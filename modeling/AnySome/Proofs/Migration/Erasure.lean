import AnySome.Proofs.Migration.Nodes
import AnySome.Proofs.Migration.Placement

/-!
# What qualifying does not touch

Without its qualifiers, and without the parentheses around single types, a type
is *bare*. What is left then is what the type says about values: names and
arguments, labels, dots and effects, optionals and specifiers, and the texts
that are kept as written. Qualifying changes none of it. It rebuilds every
layer, drops old qualifiers and adds new ones and parentheses, and the bare type
is still the same.

Parentheses cannot be told apart from a tuple by their place: whether a tuple
is one of them is a matter of the label and the dots of its only element, and
qualifying keeps both.

## Main results

* `TypeExpr.bare_erase`, `TypeExpr.erase_of_bare` — erasing leaves bare types,
  and leaves them alone.
* `TypeExpr.erase_requalify` — qualifying keeps the bare type.
* `TypeExpr.bare_type_kept` — the same, with what it says of bare types.
-/

namespace AnySome.TypeExpr

/-! ## Bare types -/

/-- A tuple, or the type between parentheses if they hold nothing else. -/
def ungrouped : List (Element TypeExpr) → TypeExpr
  | [⟨none, t, false⟩] => t
  | es => .tuple es

mutual
/-- The type without its qualifiers and without the parentheses around single
types, on all levels. -/
def erase : TypeExpr → TypeExpr
  | .named name => .named name
  | .generic base arguments => .generic base (eraseList arguments)
  | .optional t => .optional (erase t)
  | .tuple elements => ungrouped (eraseElements elements)
  | .function parameters effects result =>
    .function (eraseElements parameters) effects (erase result)
  | .qualified _ t => erase t
  | .attributed specifiers t => .attributed specifiers (erase t)
  | .verbatim text => .verbatim text

/-- The same for a list of types. -/
def eraseList : List TypeExpr → List TypeExpr
  | [] => []
  | t :: ts => erase t :: eraseList ts

/-- The same for a list of elements. -/
def eraseElements : List (Element TypeExpr) → List (Element TypeExpr)
  | [] => []
  | ⟨label, t, variadic⟩ :: es => ⟨label, erase t, variadic⟩ :: eraseElements es
end

/-- The outermost layer is no qualifier and no parentheses around a single
type. -/
def IsBare : TypeExpr → Prop
  | .qualified _ _ => False
  | .tuple elements => areTransparent elements = false
  | _ => True

instance : DecidablePred IsBare
  | .qualified _ _ => inferInstanceAs (Decidable False)
  | .tuple elements => inferInstanceAs (Decidable (areTransparent elements = false))
  | .named _ | .generic _ _ | .optional _ | .function _ _ _ | .attributed _ _
  | .verbatim _ => inferInstanceAs (Decidable True)

theorem erase_qualified (q : Qualifier) (t : TypeExpr) : (qualified q t).erase = t.erase := by
  rw [erase]

theorem ungrouped_of_not_transparent {es : List (Element TypeExpr)}
    (h : areTransparent es = false) : ungrouped es = .tuple es := by
  unfold ungrouped
  split
  · contradiction
  · rfl

theorem bare_ungrouped {es : List (Element TypeExpr)}
    (h : ∀ x ∈ es, Throughout IsBare x.type) : Throughout IsBare (ungrouped es) := by
  cases hes : areTransparent es with
  | true =>
    obtain ⟨t, rfl⟩ := exists_of_areTransparent hes
    exact h _ List.mem_cons_self
  | false =>
    rw [ungrouped_of_not_transparent hes]
    exact Throughout.tuple_iff.mpr ⟨hes, h⟩

mutual
/-- No qualifier and no parentheses are left. -/
theorem bare_erase : (t : TypeExpr) → Throughout IsBare t.erase
  | .named _ => Throughout.named_iff.mpr trivial
  | .verbatim _ => Throughout.verbatim_iff.mpr trivial
  | .generic _ arguments => by
    rw [erase]
    exact Throughout.generic_iff.mpr ⟨trivial, bare_eraseList arguments⟩
  | .optional t => by
    rw [erase]
    exact Throughout.optional_iff.mpr ⟨trivial, bare_erase t⟩
  | .tuple elements => by
    rw [erase]
    exact bare_ungrouped (bare_eraseElements elements)
  | .function parameters _ result => by
    rw [erase]
    exact Throughout.function_iff.mpr
      ⟨trivial, bare_eraseElements parameters, bare_erase result⟩
  | .qualified q t => by
    rw [erase_qualified]
    exact bare_erase t
  | .attributed _ t => by
    rw [erase]
    exact Throughout.attributed_iff.mpr ⟨trivial, bare_erase t⟩

theorem bare_eraseList : (ts : List TypeExpr) → ∀ t ∈ eraseList ts, Throughout IsBare t
  | [] => by simp [eraseList]
  | t :: ts => by
    rw [eraseList]
    exact List.forall_mem_cons.mpr ⟨bare_erase t, bare_eraseList ts⟩

theorem bare_eraseElements : (es : List (Element TypeExpr)) →
    ∀ x ∈ eraseElements es, Throughout IsBare x.type
  | [] => by simp [eraseElements]
  | ⟨_, t, _⟩ :: es => by
    rw [eraseElements]
    exact List.forall_mem_cons.mpr ⟨bare_erase t, bare_eraseElements es⟩
end

mutual
/-- Nothing else is erased. -/
theorem erase_of_bare : (t : TypeExpr) → Throughout IsBare t → t.erase = t
  | .named _, _ | .verbatim _, _ => by rw [erase]
  | .generic _ arguments, h => by
    rw [erase, eraseList_of_bare arguments (Throughout.generic_iff.mp h).2]
  | .optional t, h => by
    rw [erase, erase_of_bare t (Throughout.optional_iff.mp h).2]
  | .tuple elements, h => by
    obtain ⟨hself, helements⟩ := Throughout.tuple_iff.mp h
    rw [erase, eraseElements_of_bare elements helements, ungrouped_of_not_transparent hself]
  | .function parameters _ result, h => by
    obtain ⟨_, hparameters, hresult⟩ := Throughout.function_iff.mp h
    rw [erase, eraseElements_of_bare parameters hparameters, erase_of_bare result hresult]
  | .qualified _ _, h => absurd h.self id
  | .attributed _ t, h => by
    rw [erase, erase_of_bare t (Throughout.attributed_iff.mp h).2]

theorem eraseList_of_bare : (ts : List TypeExpr) → (∀ t ∈ ts, Throughout IsBare t) →
    eraseList ts = ts
  | [], _ => rfl
  | t :: ts, h => by
    obtain ⟨ht, hts⟩ := List.forall_mem_cons.mp h
    rw [eraseList, erase_of_bare t ht, eraseList_of_bare ts hts]

theorem eraseElements_of_bare : (es : List (Element TypeExpr)) →
    (∀ x ∈ es, Throughout IsBare x.type) → eraseElements es = es
  | [], _ => rfl
  | ⟨_, t, _⟩ :: es, h => by
    obtain ⟨ht, hes⟩ := List.forall_mem_cons.mp h
    rw [eraseElements, erase_of_bare t ht, eraseElements_of_bare es hes]
end

/-! ## Qualifying keeps the bare type -/

theorem erase_optionalOf (t : TypeExpr) : (optionalOf t).erase = .optional t.erase := by
  unfold optionalOf
  split
  · rw [erase, parenthesized, erase, eraseElements, eraseElements, ungrouped]
  · rw [erase]

theorem erase_keepQualifier (q : Qualifier) (t : TypeExpr) :
    (keepQualifier q t).erase = t.erase := by
  unfold keepQualifier
  split
  · rfl
  · exact erase_qualified q t

mutual
/-- The new type is the old one, but for qualifiers and parentheses. -/
theorem erase_requalify (rules : Rules) (k : Qualifier) : (t : TypeExpr) →
    (t.requalify rules k).erase = t.erase
  | .named name => by
    rw [requalify]
    split
    · exact erase_qualified k _
    · rfl
  | .generic base arguments => by
    rw [requalify]
    split
    · exact erase_qualified k _
    · rw [erase, erase, eraseList_requalifyList rules arguments]
  | .optional payload => by
    rw [requalify, erase_optionalOf, erase_requalify rules .any payload, erase]
  | .tuple elements => by
    rw [requalify, erase, erase, eraseElements_requalifyElements rules elements]
  | .function parameters effects result => by
    rw [requalify, erase, erase, eraseElements_requalifyElements rules parameters,
      erase_requalify rules .any result]
  | .qualified q inner => by
    rw [requalify]
    split
    · rfl
    · rw [erase_keepQualifier, erase_requalify rules k inner, erase_qualified]
  | .attributed specifiers inner => by
    rw [requalify, erase, erase, erase_requalify rules k inner]
  | .verbatim text => by rw [requalify_verbatim]

theorem eraseList_requalifyList (rules : Rules) : (ts : List TypeExpr) →
    eraseList (requalifyList rules ts) = eraseList ts
  | [] => rfl
  | t :: ts => by
    rw [requalifyList, eraseList, eraseList, erase_requalify rules .any t,
      eraseList_requalifyList rules ts]

theorem eraseElements_requalifyElements (rules : Rules) : (es : List (Element TypeExpr)) →
    eraseElements (requalifyElements rules es) = eraseElements es
  | [] => rfl
  | ⟨_, t, _⟩ :: es => by
    rw [requalifyElements, eraseElements, eraseElements, erase_requalify rules .any t,
      eraseElements_requalifyElements rules es]
end

/-- Whatever the interfaces are, qualifying adds and removes nothing but
qualifiers and parentheses: without them the new type is the old one without
them. A type that has none is got back as it was. -/
theorem bare_type_kept (rules : Rules) (k : Qualifier) (t : TypeExpr) :
    (t.requalify rules k).erase = t.erase ∧ Throughout IsBare t.erase ∧
      (Throughout IsBare t → (t.requalify rules k).erase = t) := by
  have hkept := erase_requalify rules k t
  exact ⟨hkept, bare_erase t, fun hbare => hkept.trans (erase_of_bare t hbare)⟩

/-- A function type with a label, dots, an effect and an optional interface: it
gets two qualifiers and parentheses, and erasing them gives it back. -/
theorem bare_type_kept_of_function :
    let rules : Rules := ⟨fun n => n == "P", false⟩
    let t : TypeExpr := .function [⟨some "x", .optional (.named "P"), false⟩,
      ⟨none, .generic "G" [.named "P"], true⟩] (some "async")
      (.attributed ["@A"] (.verbatim "[P]"))
    Throughout IsBare t ∧ (t.requalify rules .some).qualifierCount = 2 ∧
      (t.requalify rules .some).erase = t := by
  intro rules t
  have hbare : Throughout IsBare t := by
    unfold Throughout
    decide +kernel
  exact ⟨hbare, by decide +kernel, (bare_type_kept rules .some t).2.2 hbare⟩

end AnySome.TypeExpr
