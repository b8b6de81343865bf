import AnySome.Migration.Requalify

/-!
# Qualifying a type more than once

A second pass meets what the first one has made: new qualifiers, and the
parentheses that they have got below optionals. Three facts show what it makes
of them.

A type that a pass leaves alone stays with it under an optional or a qualifier,
so where the second pass decides as the first, or decides nothing because it is
conservative, nothing changes any more (`requalify_after`). Only at the top of a
type can the two ask for different qualifiers, and below it every pass asks for
`any`. At the top the old qualifier is dropped if a new one stands behind it,
and whether one does is a matter of the names alone: it is the same for every
qualifier asked for (`hasLeadingQualifier_requalify`).

## Main results

* `TypeExpr.requalify_after` — when a second pass changes nothing.
* `TypeExpr.requalify_requalify` — qualifying is idempotent.
* `TypeExpr.requalify_of_earlier` — the last of two passes decides.
* `TypeExpr.passes_compose` — both, for all types and interfaces.
-/

namespace AnySome.TypeExpr

/-! ## Types that a pass leaves alone -/

theorem optionalOf_of_not_qualified {t : TypeExpr} (h : t.isQualified = false) :
    optionalOf t = .optional t := by
  unfold optionalOf
  rw [h]
  rfl

theorem keepQualifier_of_leading {t : TypeExpr} (h : t.hasLeadingQualifier = true)
    (q : Qualifier) : keepQualifier q t = t :=
  if_pos h

theorem keepQualifier_of_not_leading {t : TypeExpr} (h : t.hasLeadingQualifier = false)
    (q : Qualifier) : keepQualifier q t = .qualified q t := by
  unfold keepQualifier
  rw [h]
  rfl

theorem hasLeadingQualifier_keepQualifier (q : Qualifier) (t : TypeExpr) :
    (keepQualifier q t).hasLeadingQualifier = true := by
  cases h : t.hasLeadingQualifier with
  | true => rw [keepQualifier_of_leading h, h]
  | false =>
    rw [keepQualifier_of_not_leading h]
    rfl

section Again

variable {rules : Rules} {k : Qualifier} {t : TypeExpr}

theorem requalify_optionalOf (h : requalify rules .any t = t) (k : Qualifier) :
    requalify rules k (optionalOf t) = optionalOf t := by
  cases hq : t.isQualified with
  | true =>
    have htuple : optionalOf t = .optional t.parenthesized := if_pos hq
    rw [htuple, requalify, parenthesized, requalify, requalifyElements, h, requalifyElements]
    exact optionalOf_of_not_qualified rfl
  | false =>
    rw [optionalOf_of_not_qualified hq, requalify, h]
    exact optionalOf_of_not_qualified hq

theorem requalify_keepQualifier (h : requalify rules k t = t) (q : Qualifier) :
    requalify rules k (keepQualifier q t) = keepQualifier q t := by
  cases hl : t.hasLeadingQualifier with
  | true => rw [keepQualifier_of_leading hl, h]
  | false =>
    rw [keepQualifier_of_not_leading hl, requalify, h]
    split
    · rfl
    · exact keepQualifier_of_not_leading hl q

/-- A pass that is not conservative gives an interface the qualifier that it
asks for, whichever it has. -/
theorem requalify_qualified (hrules : rules.conservative = false)
    (h : requalify rules k t = .qualified k t) (q : Qualifier) :
    requalify rules k (.qualified q t) = .qualified k t := by
  rw [requalify, hrules, h]
  exact keepQualifier_of_leading (t := .qualified k t) rfl q

/-- A conservative pass leaves a qualified type alone. -/
theorem requalify_qualified_of_conservative (hrules : rules.conservative = true) (q : Qualifier) :
    requalify rules k (.qualified q t) = .qualified q t := by
  rw [requalify, if_pos hrules]

end Again

/-! ## A pass that changes nothing any more -/

section After

-- The first pass is by `c` for `k`, the second by `c'` for `k'`.
variable {isInterface : String → Bool} {c c' : Bool}

/-- An interface with its new qualifier, under a second pass that is conservative
or asks for the same. -/
theorem requalify_after_interface {k k' : Qualifier} (h : c' = true ∨ c = false ∧ k' = k)
    {t : TypeExpr} (ht : requalify ⟨isInterface, c'⟩ k' t = .qualified k' t) :
    requalify ⟨isInterface, c'⟩ k' (.qualified k t) = .qualified k t := by
  cases hc : c' with
  | true => exact requalify_qualified_of_conservative rfl k
  | false =>
    rw [hc] at h ht
    obtain ⟨-, rfl⟩ := h.resolve_left Bool.false_ne_true
    exact requalify_qualified rfl ht k'

mutual
/-- A second pass changes nothing if it is conservative, or if neither pass is
and both ask for the same qualifier. -/
theorem requalify_after {k k' : Qualifier} (h : c' = true ∨ c = false ∧ k' = k) :
    (t : TypeExpr) → requalify ⟨isInterface, c'⟩ k' (requalify ⟨isInterface, c⟩ k t) =
      requalify ⟨isInterface, c⟩ k t
  | .named name => by
    rw [requalify]
    split
    next haccepted =>
      refine requalify_after_interface h ?_
      rw [requalify]
      exact if_pos haccepted
    next hrejected =>
      rw [requalify]
      exact if_neg hrejected
  | .generic base arguments => by
    rw [requalify]
    split
    next haccepted =>
      refine requalify_after_interface h ?_
      rw [requalify]
      exact if_pos haccepted
    next hrejected =>
      rw [requalify, requalifyList_after (h.imp_right And.left) arguments]
      exact if_neg hrejected
  | .optional payload => by
    rw [requalify]
    exact requalify_optionalOf (requalify_after (h.imp_right fun h => ⟨h.1, rfl⟩) payload) k'
  | .tuple elements => by
    rw [requalify, requalify, requalifyElements_after (h.imp_right And.left) elements]
  | .function parameters effects result => by
    rw [requalify, requalify, requalifyElements_after (h.imp_right And.left) parameters,
      requalify_after (h.imp_right fun h => ⟨h.1, rfl⟩) result]
  | .qualified q inner => by
    rw [requalify]
    split
    next hc =>
      -- The first pass is conservative, and then so is the second.
      have hc' : c' = true := by
        rcases h with hc' | ⟨hfalse, _⟩
        · exact hc'
        · exact absurd hc (ne_true_of_eq_false hfalse)
      exact requalify_qualified_of_conservative hc' q
    next => exact requalify_keepQualifier (requalify_after h inner) q
  | .attributed specifiers inner => by
    rw [requalify, requalify, requalify_after h inner]
  | .verbatim text => by rw [requalify_verbatim, requalify_verbatim]

theorem requalifyList_after (h : c' = true ∨ c = false) : (ts : List TypeExpr) →
    requalifyList ⟨isInterface, c'⟩ (requalifyList ⟨isInterface, c⟩ ts) =
      requalifyList ⟨isInterface, c⟩ ts
  | [] => rfl
  | t :: ts => by
    rw [requalifyList, requalifyList, requalify_after (h.imp_right fun h => ⟨h, rfl⟩) t,
      requalifyList_after h ts]

theorem requalifyElements_after (h : c' = true ∨ c = false) : (es : List (Element TypeExpr)) →
    requalifyElements ⟨isInterface, c'⟩ (requalifyElements ⟨isInterface, c⟩ es) =
      requalifyElements ⟨isInterface, c⟩ es
  | [] => rfl
  | ⟨_, t, _⟩ :: es => by
    rw [requalifyElements, requalifyElements, requalify_after (h.imp_right fun h => ⟨h, rfl⟩) t,
      requalifyElements_after h es]
end

end After

/-- Qualifying a type twice for one place is qualifying it once. -/
theorem requalify_requalify (rules : Rules) (k : Qualifier) (t : TypeExpr) :
    requalify rules k (requalify rules k t) = requalify rules k t := by
  obtain ⟨isInterface, c⟩ := rules
  cases c with
  | true => exact requalify_after (.inl rfl) t
  | false => exact requalify_after (.inr ⟨rfl, rfl⟩) t

/-! ## A pass that asks for another qualifier -/

/-- Whether a new type has a qualifier in front does not depend on the qualifier
that was asked for. -/
theorem hasLeadingQualifier_requalify (rules : Rules) (k k' : Qualifier) (t : TypeExpr) :
    (requalify rules k t).hasLeadingQualifier = (requalify rules k' t).hasLeadingQualifier := by
  cases t with
  | named | generic =>
    rw [requalify, requalify]
    split <;> rfl
  | optional | tuple | function | verbatim => rw [requalify, requalify]
  | qualified =>
    rw [requalify, requalify]
    split
    · rfl
    · rw [hasLeadingQualifier_keepQualifier, hasLeadingQualifier_keepQualifier]
  | attributed =>
    rw [requalify, requalify]
    rfl

section Earlier

variable {rules : Rules} {k k' : Qualifier}

/-- Where both passes ask for the same, inside a type for `any`. -/
theorem requalify_of_earlier_of_eq {t : TypeExpr}
    (h : requalify rules k t = requalify rules k' t) :
    requalify rules k' (requalify rules k t) = requalify rules k' t := by
  rw [h, requalify_requalify]

theorem requalify_of_earlier_interface (hrules : rules.conservative = false) {t : TypeExpr}
    (h : ∀ k, requalify rules k t = .qualified k t) :
    requalify rules k' (requalify rules k t) = requalify rules k' t := by
  rw [h k, requalify_qualified hrules (h k') k, h k']

/-- Of two passes that are not conservative the last one decides. -/
theorem requalify_of_earlier (hrules : rules.conservative = false) : (t : TypeExpr) →
    requalify rules k' (requalify rules k t) = requalify rules k' t
  | .named name => by
    by_cases h : rules.accepts name = true
    · refine requalify_of_earlier_interface hrules fun k => ?_
      rw [requalify, if_pos h]
    · refine requalify_of_earlier_of_eq ?_
      rw [requalify, requalify, if_neg h, if_neg h]
  | .generic base arguments => by
    by_cases h : rules.accepts base = true
    · refine requalify_of_earlier_interface hrules fun k => ?_
      rw [requalify, if_pos h]
    · refine requalify_of_earlier_of_eq ?_
      rw [requalify, requalify, if_neg h, if_neg h]
  | .optional _ | .tuple _ | .function _ _ _ | .verbatim _ => by
    refine requalify_of_earlier_of_eq ?_
    rw [requalify, requalify]
  | .qualified q inner => by
    have hdecided : ∀ k t, requalify rules k (.qualified q t) =
        keepQualifier q (requalify rules k t) := by
      intro k t
      rw [requalify, hrules]
      rfl
    have ih := requalify_of_earlier hrules inner
    have hleading := hasLeadingQualifier_requalify rules k k' inner
    rw [hdecided, hdecided]
    cases hl : (requalify rules k inner).hasLeadingQualifier with
    | true =>
      rw [hl] at hleading
      rw [keepQualifier_of_leading hl, keepQualifier_of_leading hleading.symm, ih]
    | false => rw [keepQualifier_of_not_leading hl, hdecided, ih]
  | .attributed specifiers inner => by
    rw [requalify, requalify, requalify_of_earlier hrules inner, requalify]

end Earlier

/-- Two passes by the same interfaces. If neither is conservative, the second
alone decides; a conservative second pass changes nothing, whatever the first
was. -/
theorem passes_compose (isInterface : String → Bool) (k₁ k₂ : Qualifier) (t : TypeExpr) :
    requalify ⟨isInterface, false⟩ k₂ (requalify ⟨isInterface, false⟩ k₁ t) =
        requalify ⟨isInterface, false⟩ k₂ t ∧
      ∀ c, requalify ⟨isInterface, true⟩ k₂ (requalify ⟨isInterface, c⟩ k₁ t) =
        requalify ⟨isInterface, c⟩ k₁ t :=
  ⟨requalify_of_earlier rfl t, fun _ => requalify_after (.inl rfl) t⟩

/-- A conservative pass can leave a trace in what a later one decides: here the
parentheses around a qualifier that the later one drops. -/
example :
    let t : TypeExpr := .optional (.qualified .some (.optional (.named "P")))
    let first : Rules := ⟨fun n => n == "P", true⟩
    let second : Rules := ⟨fun n => n == "P", false⟩
    requalify second .any (requalify first .any t) ≠ requalify second .any t := by
  decide +kernel

end AnySome.TypeExpr
