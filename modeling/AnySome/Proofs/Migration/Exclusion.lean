import AnySome.Proofs.Migration.Nodes
import AnySome.Proofs.Rewrite.Idempotence

/-!
# Types that a migration leaves alone

A migration changes a type where it meets a name of an interface, where it
decides a qualifier anew, and where an optional gets parentheses. A type
without names of interfaces and without a qualifier in front of another gives
it no reason for the first two. The third needs an invariant of what is read:
a question mark binds tighter than a qualifier, so no optional that was read
has a qualifier directly below it.

So an accepted file all of whose types are of this kind is written back byte
for byte, whatever the policy is.

## Main results

* `TypeExpr.Spells.throughout` — what holds of every layer of what is read.
* `TypeExpr.Spells.settled` — what is read needs no parentheses.
* `TypeExpr.requalify_of_excluded` — qualifying an excluded type changes
  nothing.
* `Migration.excluded_types_stay` — the whole of a file.
-/

namespace AnySome

namespace TypeExpr

/-! ## The layers of types that are read -/

/-- Every layer that is built from signs with `Q` has `P`. In what is read, no
qualifier stands directly below an optional. -/
structure Layers (Q : Sign → Prop) (P : TypeExpr → Prop) : Prop where
  named : ∀ {x : Sign}, x.kind = .identifier → Q x → P (.named x.text)
  generic : ∀ {x : Sign} {ts : List TypeExpr}, x.kind = .identifier → Q x → P (.generic x.text ts)
  optional : ∀ {t : TypeExpr}, t.isQualified = false → P (.optional t)
  tuple : ∀ {es : List (Element TypeExpr)}, P (.tuple es)
  function : ∀ {es : List (Element TypeExpr)} {effects : Option String} {t : TypeExpr},
    P (.function es effects t)
  qualified : ∀ {q : Qualifier} {t : TypeExpr}, P (.qualified q t)
  attributed : ∀ {ss : List String} {t : TypeExpr}, P (.attributed ss t)
  verbatim : ∀ {text : String}, P (.verbatim text)

section Rules

-- Inner types are spelled by `I` and have `P` throughout, if their signs have `Q`.
variable {I : TypeExpr → List Sign → Ending → Prop} {Q : Sign → Prop} {P : TypeExpr → Prop}
  (hP : Layers Q P) (hI : ∀ {t T e}, I t T e → (∀ s ∈ T, Q s) → Throughout P t)
include hI

theorem Listed.throughout_arguments {ts : List TypeExpr} {T : List Sign}
    (h : Listed (Argument I) ts T) (hT : ∀ s ∈ T, Q s) : ∀ t ∈ ts, Throughout P t := by
  induction h with
  | nil => simp
  | last ht =>
    obtain ⟨e, he⟩ := ht
    exact List.forall_mem_singleton.mpr (hI he hT)
  | more ht _ _ ih =>
    obtain ⟨e, he⟩ := ht
    rw [List.forall_mem_append, List.forall_mem_cons] at hT
    exact List.forall_mem_cons.mpr ⟨hI he hT.1, ih hT.2.2⟩

theorem Item.throughout {x : Element TypeExpr} {T : List Sign} (h : Item I x T)
    (hT : ∀ s ∈ T, Q s) : Throughout P x.type := by
  cases h with
  | mk _ ht _ =>
    rw [List.forall_mem_append, List.forall_mem_append] at hT
    exact hI ht hT.2.1

theorem Listed.throughout_items {es : List (Element TypeExpr)} {T : List Sign}
    (h : Listed (Item I) es T) (hT : ∀ s ∈ T, Q s) : ∀ x ∈ es, Throughout P x.type := by
  induction h with
  | nil => simp
  | last hx => exact List.forall_mem_singleton.mpr (hx.throughout hI hT)
  | more hx _ _ ih =>
    rw [List.forall_mem_append, List.forall_mem_cons] at hT
    exact List.forall_mem_cons.mpr ⟨hx.throughout hI hT.1, ih hT.2.2⟩

include hP

theorem Chain.throughout {t : TypeExpr} {T : List Sign} {e : Ending} (h : Chain I t T e)
    (hT : ∀ s ∈ T, Q s) : Throughout P t := by
  induction h with
  | atom ha =>
    cases ha with
    | named hx => exact Throughout.named_iff.mpr (hP.named hx (hT _ List.mem_cons_self))
    | generic hx _ hts _ =>
      rw [List.forall_mem_cons, List.forall_mem_cons, List.forall_mem_append] at hT
      exact Throughout.generic_iff.mpr
        ⟨hP.generic hx hT.1, Listed.throughout_arguments hI hts hT.2.2.1⟩
    | tuple _ hes _ =>
      rw [List.forall_mem_cons, List.forall_mem_append] at hT
      exact Throughout.tuple_iff.mpr ⟨hP.tuple, Listed.throughout_items hI hes hT.2.1⟩
    | unit _ _ => exact Throughout.verbatim_iff.mpr hP.verbatim
  | member => exact Throughout.verbatim_iff.mpr hP.verbatim
  | memberGeneric => exact Throughout.verbatim_iff.mpr hP.verbatim
  | unwrapped => exact Throughout.verbatim_iff.mpr hP.verbatim
  | optional hc _ _ ih =>
    -- The payload is a chain too, and so it starts with no qualifier.
    rw [List.forall_mem_append] at hT
    exact Throughout.optional_iff.mpr ⟨hP.optional hc.flags.1, ih hT.1⟩

theorem Level.throughout {t : TypeExpr} {T : List Sign} {e : Ending} (h : Level I t T e)
    (hT : ∀ s ∈ T, Q s) : Throughout P t := by
  cases h with
  | word hx => exact Throughout.named_iff.mpr (hP.named hx (hT _ List.mem_cons_self))
  | plain hs _ =>
    cases hs with
    | chain hc => exact hc.throughout hP hI hT
    | function _ hes _ _ _ ht =>
      rw [List.forall_mem_cons, List.forall_mem_append, List.forall_mem_cons,
        List.forall_mem_append, List.forall_mem_cons] at hT
      exact Throughout.function_iff.mpr
        ⟨hP.function, Listed.throughout_items hI hes hT.2.1, hI ht hT.2.2.2.2.2⟩
  | composition _ _ => exact Throughout.verbatim_iff.mpr hP.verbatim
  | qualified _ _ _ ht =>
    rw [List.forall_mem_cons] at hT
    exact Throughout.qualified_iff.mpr ⟨hP.qualified, hI ht hT.2⟩
  | attributed _ _ ht _ =>
    rw [List.forall_mem_append] at hT
    exact Throughout.attributed_iff.mpr ⟨hP.attributed, hI ht hT.2⟩

end Rules

/-- What holds of every layer holds of all types inside what is read. -/
theorem Spells.throughout {Q : Sign → Prop} {P : TypeExpr → Prop} (hP : Layers Q P) {n : Nat}
    {t : TypeExpr} {T : List Sign} {e : Ending} (h : Spells n t T e) (hT : ∀ s ∈ T, Q s) :
    Throughout P t :=
  h.level_induction (P := fun t T _ => (∀ s ∈ T, Q s) → Throughout P t)
    (fun hlevel => hlevel.throughout hP id) hT

/-! ## Optionals that were read -/

/-- The type is no optional of a qualified type. -/
def Settled : TypeExpr → Prop
  | .optional payload => payload.isQualified = false
  | _ => True

/-- In what is read, no qualifier stands directly below an optional. -/
theorem Spells.settled {n : Nat} {t : TypeExpr} {T : List Sign} {e : Ending}
    (h : Spells n t T e) : Throughout Settled t := by
  refine h.throughout (Q := fun _ => True) ?_ fun _ _ => trivial
  constructor
  case optional => exact id
  all_goals intros; trivial

/-! ## Types without interfaces -/

/-- The rules find no reason in the outermost layer to change the type: a name
or a base is not accepted, and a qualifier does not stand in front of
another. -/
def Spared (rules : Rules) : TypeExpr → Prop
  | .named name => rules.accepts name = false
  | .generic base _ => rules.accepts base = false
  | .qualified _ inner => inner.hasLeadingQualifier = false
  | _ => True

/-- The rules find no reason anywhere to change the type. -/
def Excluded (rules : Rules) (t : TypeExpr) : Prop := Throughout (Spared rules) t

instance (rules : Rules) : DecidablePred (Spared rules) := fun t => by
  cases t <;> unfold Spared <;> infer_instance

instance (rules : Rules) (t : TypeExpr) : Decidable (Excluded rules t) :=
  inferInstanceAs (Decidable (∀ u ∈ t.nodes, Spared rules u))

section Requalify

variable {rules : Rules}

mutual
theorem requalify_of_spared (k : Qualifier) : (t : TypeExpr) →
    Throughout (fun u => u.Settled ∧ u.Spared rules) t → requalify rules k t = t
  | .named name, h => by
    have hname : rules.accepts name = false := h.self.2
    rw [requalify, hname]
    rfl
  | .verbatim text, _ => requalify_verbatim _ _ text
  | .generic base arguments, h => by
    obtain ⟨⟨_, hbase⟩, harguments⟩ := Throughout.generic_iff.mp h
    have hrejected : rules.accepts base = false := hbase
    rw [requalify, hrejected, requalifyList_of_spared arguments harguments]
    rfl
  | .optional payload, h => by
    obtain ⟨⟨hsettled, _⟩, hpayload⟩ := Throughout.optional_iff.mp h
    rw [requalify, requalify_of_spared .any payload hpayload]
    exact optionalOf_of_not_qualified hsettled
  | .tuple elements, h => by
    rw [requalify, requalifyElements_of_spared elements (Throughout.tuple_iff.mp h).2]
  | .function parameters effects result, h => by
    obtain ⟨_, hparameters, hresult⟩ := Throughout.function_iff.mp h
    rw [requalify, requalifyElements_of_spared parameters hparameters,
      requalify_of_spared .any result hresult]
  | .qualified q inner, h => by
    obtain ⟨⟨_, hleading⟩, hinner⟩ := Throughout.qualified_iff.mp h
    have hplain : inner.hasLeadingQualifier = false := hleading
    rw [requalify, requalify_of_spared k inner hinner]
    split
    · rfl
    · unfold keepQualifier
      rw [hplain]
      rfl
  | .attributed specifiers inner, h => by
    rw [requalify, requalify_of_spared k inner (Throughout.attributed_iff.mp h).2]

theorem requalifyList_of_spared : (ts : List TypeExpr) →
    (∀ t ∈ ts, Throughout (fun u => u.Settled ∧ u.Spared rules) t) → requalifyList rules ts = ts
  | [], _ => rfl
  | t :: ts, h => by
    obtain ⟨ht, hts⟩ := List.forall_mem_cons.mp h
    rw [requalifyList, requalify_of_spared .any t ht, requalifyList_of_spared ts hts]

theorem requalifyElements_of_spared : (es : List (Element TypeExpr)) →
    (∀ x ∈ es, Throughout (fun u => u.Settled ∧ u.Spared rules) x.type) →
      requalifyElements rules es = es
  | [], _ => rfl
  | ⟨_, t, _⟩ :: es, h => by
    obtain ⟨ht, hes⟩ := List.forall_mem_cons.mp h
    rw [requalifyElements, requalify_of_spared .any t ht, requalifyElements_of_spared es hes]
end

/-- An excluded type that was read is left as it is, whatever the qualifier of
its place. -/
theorem requalify_of_excluded {n : Nat} {t : TypeExpr} {T : List Sign} {e : Ending}
    (hread : Spells n t T e) (h : t.Excluded rules) (k : Qualifier) : requalify rules k t = t :=
  requalify_of_spared k t (hread.settled.and h)

end Requalify

end TypeExpr

/-! ## Files without interfaces -/

namespace Migration

open SourceFile

variable {name text : String} {file : SourceFile}

/-- In a migrated file an ascription whose type is excluded reads as it did. -/
theorem type_of_excluded (hparse : parse name text = .ok file) (m : Migration) {a : Ascription}
    (ha : a ∈ Declaration.ascriptionsList (m.file file).declarations)
    (hexcluded : a.parsed.Excluded m.rules) : a.type = a.parsed := by
  obtain ⟨⟨s, b⟩, hb, rfl, hread⟩ := exists_atSite_of_mem hparse m ha
  obtain ⟨segment, _, rfl, _⟩ :=
    exists_segment_of_mem hparse (Declaration.mem_ascriptionsList_of_mem_sitesList hb)
  have hspells := segment.spells
  rw [← segment.type_eq] at hspells
  rw [← hread] at hexcluded ⊢
  unfold atSite
  cases m.keyword s with
  | none => rfl
  | some k => exact TypeExpr.requalify_of_excluded hspells hexcluded k

/-- A migration leaves every type of an accepted file alone in which no name is
that of an interface and no qualifier stands in front of another. A file with
no other types is written back as it was read. -/
theorem excluded_types_stay (hparse : parse name text = .ok file) (m : Migration) :
    (∀ a ∈ Declaration.ascriptionsList (m.file file).declarations,
        a.parsed.Excluded m.rules → a.type = a.parsed) ∧
      ((∀ a ∈ Declaration.ascriptionsList (m.file file).declarations,
          a.parsed.Excluded m.rules) → (m.file file).render = text) := by
  have hstay : ∀ a ∈ Declaration.ascriptionsList (m.file file).declarations,
      a.parsed.Excluded m.rules → a.type = a.parsed :=
    fun a ha hexcluded => type_of_excluded hparse m ha hexcluded
  refine ⟨hstay, fun hall => ?_⟩
  have htext : file.text = text := text_of_parse hparse
  rw [← htext]
  refine render_of_unchanged (f := m.file file) ?_
  intro a ha
  rw [m.ascriptions_file hparse] at ha
  have htype := hstay a ha (hall a ha)
  unfold Ascription.isChanged
  rw [htype]
  simp

/-- Qualifiers on names of no interfaces, below optionals, in a function type,
in generic arguments and behind specifiers. -/
theorem excluded_types_stay_qualified :
    let text := "var x: (any Q)?\nfunc f(_ a: G<any Q, [Q]>, b: @escaping (any Q?) -> some G<Q>) {}"
    let file : SourceFile := ⟨"f", text, (run text).1⟩
    let m : Migration := ⟨fun n => n == "P", ⟨.strict, false⟩⟩
    parse "f" text = .ok file ∧
      ((Declaration.ascriptionsList (m.file file).declarations).map
        (fun a => a.parsed.qualifierCount)) = [1, 1, 2] ∧
      (∀ a ∈ Declaration.ascriptionsList (m.file file).declarations,
        a.parsed.Excluded m.rules) ∧ (m.file file).render = text := by
  intro text file m
  have hparse : parse "f" text = .ok file := parse_eq_ok_iff.mpr ⟨by decide +kernel, rfl⟩
  have hall : ∀ a ∈ Declaration.ascriptionsList (m.file file).declarations,
      a.parsed.Excluded m.rules := by decide +kernel
  exact ⟨hparse, by decide +kernel, hall, (excluded_types_stay hparse m).2 hall⟩

end Migration

end AnySome
