import AnySome.Proofs.Migration.Nodes
import AnySome.Proofs.Migration.Passes
import AnySome.Proofs.Migration.Placement
import AnySome.Proofs.TypeGrammar.Alone

/-!
# Qualifiers in front of qualifiers

A qualified type is *stacked* if another qualifier stands behind its own with
optionals, parentheses and specifiers between them at most.

Where qualifying decides a qualifier anew, it looks for a new one behind it
through optionals and parentheses (`TypeExpr.hasLeadingQualifier`), but not
through specifiers. So it makes stacked types, and what it makes them of can be
told beforehand: of a qualifier with specifiers between it and an interface.
There are no others, since a new qualifier stands directly in front of a name,
and an old one is dropped wherever the new one is seen.

## Main results

* `TypeExpr.hasLeadingQualifier_eq` — which qualifiers are seen.
* `TypeExpr.core_requalify` — what qualifying puts behind optionals, parentheses
  and specifiers.
* `TypeExpr.unstacked_requalify_iff` — when qualifying stacks qualifiers.
* `TypeExpr.stacked_behind_attribute` — an accepted type where it does.
-/

namespace AnySome.TypeExpr

/-! ## Behind optionals, parentheses and specifiers -/

/-- What is left of a type without the optionals, parentheses and specifiers
around it. -/
def core : TypeExpr → TypeExpr
  | .optional t => t.core
  | .tuple [⟨none, t, false⟩] => t.core
  | .attributed _ t => t.core
  | t => t

/-- There are specifiers among the optionals and parentheses around the type. -/
def hasSpecifiers : TypeExpr → Bool
  | .optional t => t.hasSpecifiers
  | .tuple [⟨none, t, false⟩] => t.hasSpecifiers
  | .attributed _ _ => true
  | _ => false

/-- The type is qualified, and so is what its qualifier stands in front of,
optionals, parentheses and specifiers apart. -/
def IsStacked : TypeExpr → Prop
  | .qualified _ inner => inner.core.isQualified = true
  | _ => False

/-- No qualifier stands in front of another. -/
def Unstacked (t : TypeExpr) : Prop := Throughout (fun u => ¬u.IsStacked) t

/-- The type is qualified, and between its qualifier and an interface stand
specifiers, with optionals and parentheses at most besides. -/
def SpecifiersBetween (rules : Rules) : TypeExpr → Prop
  | .qualified _ inner => inner.hasSpecifiers = true ∧ inner.core.isInterface rules = true
  | _ => False

mutual
/-- The type and the types inside it, but for the arguments of generic
interfaces. -/
def visitedNodes (rules : Rules) : TypeExpr → List TypeExpr
  | .named name => [.named name]
  | .verbatim text => [.verbatim text]
  | .generic base arguments =>
    .generic base arguments ::
      if rules.accepts base then [] else visitedNodesList rules arguments
  | .optional t => .optional t :: visitedNodes rules t
  | .tuple elements => .tuple elements :: visitedNodesElements rules elements
  | .function parameters effects result =>
    .function parameters effects result ::
      (visitedNodesElements rules parameters ++ visitedNodes rules result)
  | .qualified q t => .qualified q t :: visitedNodes rules t
  | .attributed specifiers t => .attributed specifiers t :: visitedNodes rules t

/-- The same for a list of types. -/
def visitedNodesList (rules : Rules) : List TypeExpr → List TypeExpr
  | [] => []
  | t :: ts => visitedNodes rules t ++ visitedNodesList rules ts

/-- The same for a list of elements. -/
def visitedNodesElements (rules : Rules) : List (Element TypeExpr) → List TypeExpr
  | [] => []
  | ⟨_, t, _⟩ :: es => visitedNodes rules t ++ visitedNodesElements rules es
end

instance : DecidablePred IsStacked
  | .qualified _ inner => inferInstanceAs (Decidable (inner.core.isQualified = true))
  | .named _ | .generic _ _ | .optional _ | .tuple _ | .function _ _ _ | .attributed _ _
  | .verbatim _ => inferInstanceAs (Decidable False)

instance (t : TypeExpr) : Decidable (Unstacked t) :=
  inferInstanceAs (Decidable (∀ u ∈ t.nodes, ¬u.IsStacked))

instance (rules : Rules) : DecidablePred (SpecifiersBetween rules)
  | .qualified _ inner =>
    inferInstanceAs (Decidable (inner.hasSpecifiers = true ∧ inner.core.isInterface rules = true))
  | .named _ | .generic _ _ | .optional _ | .tuple _ | .function _ _ _ | .attributed _ _
  | .verbatim _ => inferInstanceAs (Decidable False)

/-! ## Which qualifiers are seen -/

/-- A tuple that is no pair of parentheses is left as it is. -/
theorem core_tuple {es : List (Element TypeExpr)} (h : areTransparent es = false) :
    core (.tuple es) = .tuple es ∧ hasSpecifiers (.tuple es) = false := by
  match es with
  | [⟨none, _, false⟩] => contradiction
  | [] | [⟨some _, _, _⟩] | [⟨none, _, true⟩] | _ :: _ :: _ => simp [core, hasSpecifiers]

/-- A qualifier is in front if it is behind optionals and parentheses, and
behind no specifiers. -/
theorem hasLeadingQualifier_eq (t : TypeExpr) :
    t.hasLeadingQualifier = (t.core.isQualified && !t.hasSpecifiers) := by
  fun_induction core t with
  | case1 t ih => exact ih
  | case2 t ih => exact ih
  | case3 => simp [hasLeadingQualifier, hasSpecifiers]
  | case4 t hoptional htuple _ =>
    cases t with
    | optional payload => exact (hoptional payload rfl).elim
    | qualified => rfl
    | _ => simp [hasLeadingQualifier, isQualified]

theorem core_optionalOf (t : TypeExpr) : (optionalOf t).core = t.core := by
  unfold optionalOf
  split <;> rfl

theorem hasSpecifiers_optionalOf (t : TypeExpr) :
    (optionalOf t).hasSpecifiers = t.hasSpecifiers := by
  unfold optionalOf
  split <;> rfl

/-- Behind optionals, parentheses and specifiers, a qualified type stays one and
an interface becomes one; nothing else does. The specifiers stay. -/
theorem core_requalify (rules : Rules) (k : Qualifier) (t : TypeExpr) :
    (t.requalify rules k).core.isQualified = (t.core.isQualified || t.core.isInterface rules) ∧
      (t.requalify rules k).hasSpecifiers = t.hasSpecifiers := by
  fun_induction core t generalizing k with
  | case1 t ih =>
    rw [requalify, core_optionalOf, hasSpecifiers_optionalOf]
    exact ih .any
  | case2 t ih =>
    rw [requalify, requalifyElements, requalifyElements]
    exact ih .any
  | case3 ss t ih =>
    rw [requalify]
    exact ⟨(ih k).1, rfl⟩
  | case4 t hoptional htuple hattributed =>
    cases t with
    | optional payload => exact (hoptional payload rfl).elim
    | attributed specifiers inner => exact (hattributed specifiers inner rfl).elim
    | named name =>
      rw [requalify]
      split
      next h => exact ⟨h.symm, rfl⟩
      next h => exact ⟨(eq_false_of_ne_true h).symm, rfl⟩
    | generic base arguments =>
      rw [requalify]
      split
      next h => exact ⟨h.symm, rfl⟩
      next h => exact ⟨(eq_false_of_ne_true h).symm, rfl⟩
    | tuple elements =>
      have helements : areTransparent elements = false := by
        rw [Bool.eq_false_iff]
        intro htransparent
        obtain ⟨t, rfl⟩ := exists_of_areTransparent htransparent
        exact htuple t rfl
      rw [requalify, (core_tuple helements).2]
      rw [← areTransparent_requalifyElements rules] at helements
      rw [(core_tuple helements).1, (core_tuple helements).2]
      exact ⟨rfl, rfl⟩
    | function | verbatim =>
      rw [requalify]
      exact ⟨rfl, rfl⟩
    | qualified q inner =>
      rw [requalify]
      split
      · exact ⟨rfl, rfl⟩
      · -- Whether the old qualifier is kept or dropped, one is in front.
        have hleading := hasLeadingQualifier_keepQualifier q (inner.requalify rules k)
        rw [hasLeadingQualifier_eq, Bool.and_eq_true, Bool.not_eq_true'] at hleading
        exact hleading

/-! ## Qualifying a type without stacked qualifiers -/

theorem unstacked_optionalOf {t : TypeExpr} : Unstacked (optionalOf t) ↔ Unstacked t := by
  unfold optionalOf Unstacked
  split
  · rw [Throughout.optional_iff, parenthesized, Throughout.tuple_iff, List.forall_mem_singleton]
    exact ⟨fun h => h.2.2, fun h => ⟨id, id, h⟩⟩
  · rw [Throughout.optional_iff]
    exact ⟨And.right, fun h => ⟨id, h⟩⟩

theorem unstacked_qualified {q : Qualifier} {t : TypeExpr} :
    Unstacked (.qualified q t) ↔ t.core.isQualified = false ∧ Unstacked t := by
  unfold Unstacked
  rw [Throughout.qualified_iff]
  exact and_congr_left' (by rw [← Bool.not_eq_true]; rfl)

/-- The node gives no reason to stack: its qualifier is not decided anew, or it
is not one with specifiers between it and an interface. -/
def StaysUnstacked (rules : Rules) (u : TypeExpr) : Prop :=
  rules.conservative = true ∨ ¬u.SpecifiersBetween rules

section Qualifying

variable (rules : Rules)

theorem unstacked_keepQualifier {k q : Qualifier} {t : TypeExpr}
    (hcore : t.core.isQualified = false) (hrules : rules.conservative = false) :
    Unstacked (keepQualifier q (t.requalify rules k)) ↔
      StaysUnstacked rules (.qualified q t) ∧ Unstacked (t.requalify rules k) := by
  obtain ⟨hnew, hspecifiers⟩ := core_requalify rules k t
  have hleading := hasLeadingQualifier_eq (t.requalify rules k)
  rw [hcore, Bool.false_or] at hnew
  rw [hnew, hspecifiers] at hleading
  unfold keepQualifier
  rw [hleading]
  cases hinterface : t.core.isInterface rules with
  | false =>
    have hstays : StaysUnstacked rules (.qualified q t) := by
      refine .inr fun h => ?_
      rw [h.2] at hinterface
      contradiction
    rw [hinterface] at hnew
    rw [Bool.false_and, if_neg Bool.false_ne_true, unstacked_qualified, hnew]
    exact and_congr_left' ⟨fun _ => hstays, fun _ => rfl⟩
  | true =>
    rw [hinterface] at hnew
    cases hs : t.hasSpecifiers with
    | false =>
      have hstays : StaysUnstacked rules (.qualified q t) := by
        refine .inr fun h => ?_
        rw [h.1] at hs
        contradiction
      rw [Bool.not_false, Bool.and_true, if_pos rfl]
      exact ⟨fun h => ⟨hstays, h⟩, And.right⟩
    | true =>
      have hstacks : ¬StaysUnstacked rules (.qualified q t) := by
        rintro (hc | h)
        · rw [hrules] at hc
          contradiction
        · exact h ⟨hs, hinterface⟩
      rw [Bool.not_true, Bool.and_false, if_neg Bool.false_ne_true, unstacked_qualified, hnew]
      exact ⟨fun h => absurd h.1.symm Bool.false_ne_true, fun h => absurd h.1 hstacks⟩

mutual
/-- Qualifying stacks qualifiers exactly at the nodes that give a reason. -/
theorem unstacked_requalify (k : Qualifier) : (t : TypeExpr) → Unstacked t →
    (Unstacked (t.requalify rules k) ↔ ∀ u ∈ t.visitedNodes rules, StaysUnstacked rules u)
  | .named name, h => by
    rw [requalify, visitedNodes, List.forall_mem_singleton]
    refine iff_of_true ?_ (.inr id)
    split
    · exact unstacked_qualified.mpr ⟨rfl, h⟩
    · exact h
  | .verbatim text, h => by
    rw [requalify, visitedNodes, List.forall_mem_singleton]
    exact iff_of_true h (.inr id)
  | .generic base arguments, h => by
    by_cases haccepts : rules.accepts base = true
    · rw [requalify, visitedNodes, if_pos haccepts, if_pos haccepts, unstacked_qualified,
        List.forall_mem_singleton]
      exact iff_of_true ⟨rfl, h⟩ (.inr id)
    · have harguments := unstacked_requalifyList arguments (Throughout.generic_iff.mp h).2
      rw [requalify, visitedNodes, if_neg haccepts, if_neg haccepts, List.forall_mem_cons,
        ← harguments]
      exact Throughout.generic_iff.trans (and_congr_left' (iff_of_true id (.inr id)))
  | .optional payload, h => by
    have hpayload := unstacked_requalify .any payload (Throughout.optional_iff.mp h).2
    rw [requalify, unstacked_optionalOf, visitedNodes, List.forall_mem_cons, ← hpayload]
    exact (and_iff_right (.inr id)).symm
  | .tuple elements, h => by
    have helements := unstacked_requalifyElements elements (Throughout.tuple_iff.mp h).2
    rw [requalify, visitedNodes, List.forall_mem_cons, ← helements]
    exact Throughout.tuple_iff.trans (and_congr_left' (iff_of_true id (.inr id)))
  | .function parameters effects result, h => by
    obtain ⟨_, hparameters, hresult⟩ := Throughout.function_iff.mp h
    rw [requalify, visitedNodes, List.forall_mem_cons, List.forall_mem_append,
      ← unstacked_requalifyElements parameters hparameters,
      ← unstacked_requalify .any result hresult]
    exact Throughout.function_iff.trans (and_congr_left' (iff_of_true id (.inr id)))
  | .qualified q inner, h => by
    obtain ⟨hcore, hinner⟩ := unstacked_qualified.mp h
    rw [visitedNodes, List.forall_mem_cons]
    cases hrules : rules.conservative with
    | true =>
      rw [requalify, if_pos hrules]
      exact iff_of_true h ⟨.inl hrules, fun _ _ => .inl hrules⟩
    | false =>
      rw [requalify, hrules, if_neg Bool.false_ne_true, unstacked_keepQualifier rules hcore hrules,
        unstacked_requalify k inner hinner]
  | .attributed specifiers inner, h => by
    have hinner := unstacked_requalify k inner (Throughout.attributed_iff.mp h).2
    rw [requalify, visitedNodes, List.forall_mem_cons, ← hinner]
    exact Throughout.attributed_iff.trans (and_congr_left' (iff_of_true id (.inr id)))

theorem unstacked_requalifyList : (ts : List TypeExpr) → (∀ t ∈ ts, Unstacked t) →
    ((∀ u ∈ requalifyList rules ts, Unstacked u) ↔
      ∀ u ∈ visitedNodesList rules ts, StaysUnstacked rules u)
  | [], _ => by simp [requalifyList, visitedNodesList]
  | t :: ts, h => by
    obtain ⟨ht, hts⟩ := List.forall_mem_cons.mp h
    rw [requalifyList, visitedNodesList, List.forall_mem_cons, List.forall_mem_append,
      unstacked_requalify .any t ht, unstacked_requalifyList ts hts]

theorem unstacked_requalifyElements : (es : List (Element TypeExpr)) →
    (∀ x ∈ es, Unstacked x.type) →
      ((∀ x ∈ requalifyElements rules es, Unstacked x.type) ↔
        ∀ u ∈ visitedNodesElements rules es, StaysUnstacked rules u)
  | [], _ => by simp [requalifyElements, visitedNodesElements]
  | ⟨_, t, _⟩ :: es, h => by
    obtain ⟨ht, hes⟩ := List.forall_mem_cons.mp h
    rw [requalifyElements, visitedNodesElements, List.forall_mem_cons, List.forall_mem_append,
      unstacked_requalify .any t ht, unstacked_requalifyElements es hes]
end

end Qualifying

/-- What qualifying makes of a type without stacked qualifiers has none either,
if it is conservative; if it is not, then exactly if there is nowhere in the
type, the arguments of generic interfaces apart, a qualifier with specifiers
between it and an interface. -/
theorem unstacked_requalify_iff (rules : Rules) (k : Qualifier) {t : TypeExpr}
    (h : Unstacked t) : Unstacked (t.requalify rules k) ↔
      rules.conservative = true ∨ ∀ u ∈ t.visitedNodes rules, ¬u.SpecifiersBetween rules := by
  rw [unstacked_requalify rules k t h]
  cases hrules : rules.conservative with
  | true => exact iff_of_true (fun _ _ => .inl hrules) (.inl rfl)
  | false => simp [StaysUnstacked, hrules]

/-- Attributes in front of a qualifier, and between one and a type that is no
interface, are of no consequence. -/
theorem unstacked_requalify_iff_of_attributes :
    let rules : Rules := ⟨fun n => n == "P", false⟩
    ∃ t, parse "(@escaping any P?, some @A (P) -> Q)" = .ok t ∧ Unstacked t ∧
      (∀ u ∈ t.visitedNodes rules, ¬u.SpecifiersBetween rules) ∧
      Unstacked (t.requalify rules .some) := by
  intro rules
  have hrun : ((run "(@escaping any P?, some @A (P) -> Q)").2.pending = [] ∧
      (run "(@escaping any P?, some @A (P) -> Q)").2.findings = []) ∧
      Unstacked (run "(@escaping any P?, some @A (P) -> Q)").1 ∧
      ∀ u ∈ (run "(@escaping any P?, some @A (P) -> Q)").1.visitedNodes rules,
        ¬u.SpecifiersBetween rules := by
    decide +kernel
  obtain ⟨⟨hend, hfindings⟩, hunstacked, hnone⟩ := hrun
  exact ⟨_, parse_eq_ok_iff.mpr ⟨hend, hfindings, rfl⟩, hunstacked, hnone,
    (unstacked_requalify_iff rules .some hunstacked).mpr (.inr hnone)⟩

/-- An attribute between a qualifier and an interface hides the new qualifier,
and the old one stays in front of it. -/
theorem stacked_behind_attribute :
    ∃ t, parse "any @escaping P" = .ok t ∧ Unstacked t ∧
      ¬Unstacked (t.requalify ⟨fun n => n == "P", false⟩ .any) := by
  have hrun : ((run "any @escaping P").2.pending = [] ∧
      (run "any @escaping P").2.findings = []) ∧ Unstacked (run "any @escaping P").1 ∧
      ¬Unstacked ((run "any @escaping P").1.requalify ⟨fun n => n == "P", false⟩ .any) := by
    decide +kernel
  obtain ⟨⟨hend, hfindings⟩, hunstacked, hstacked⟩ := hrun
  exact ⟨_, parse_eq_ok_iff.mpr ⟨hend, hfindings, rfl⟩, hunstacked, hstacked⟩

end AnySome.TypeExpr
