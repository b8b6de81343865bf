import Mathlib.Data.List.Forall2
import AnySome.Migration.Requalify
import AnySome.Proofs.TypeGrammar.Basic

/-!
# What qualifying makes of a type

A variant of a type is the type itself or what qualifying makes of it. Inside
a generic interface nothing is qualified, so the arguments of a variant can be
of either sort; that is why the two are one notion.

A variant has more levels than its type: none if it is the type itself, and at
most two otherwise, one for a qualifier and one for the parentheses around it
in an optional. There are no more, since qualifying does not go on inside what
it has qualified.

## Main results

* `Variant.generic`, `Variant.tuple`, … — what the variants of each shape of
  type look like.
* `Variant.isAttributed_eq` — a variant gains no specifiers.
-/

namespace AnySome.TypeExpr

/-- The type itself, or what qualifying makes of it, with at most `g` levels
more. -/
inductive Variant : (g : Nat) → TypeExpr → TypeExpr → Prop where
  | same (g : Nat) (t : TypeExpr) : Variant g t t
  | requalified (rules : Rules) (k : Qualifier) (t : TypeExpr) : Variant 2 t (t.requalify rules k)

/-- The same for tuple elements and parameters. -/
def VariantElement (g : Nat) (x y : Element TypeExpr) : Prop :=
  y.label = x.label ∧ y.variadic = x.variadic ∧ Variant g x.type y.type

namespace Variant

variable {g : Nat}

theorem forall_same (ts : List TypeExpr) : List.Forall₂ (Variant g) ts ts := by
  induction ts with
  | nil => exact .nil
  | cons t ts ih => exact .cons (.same g t) ih

theorem forall_requalifyList (rules : Rules) (ts : List TypeExpr) :
    List.Forall₂ (Variant 2) ts (requalifyList rules ts) := by
  induction ts with
  | nil => exact .nil
  | cons t ts ih => exact .cons (.requalified rules .any t) ih

theorem forall_elements_same (es : List (Element TypeExpr)) :
    List.Forall₂ (VariantElement g) es es := by
  induction es with
  | nil => exact .nil
  | cons x es ih => exact .cons ⟨rfl, rfl, .same g x.type⟩ ih

theorem forall_requalifyElements (rules : Rules) (es : List (Element TypeExpr)) :
    List.Forall₂ (VariantElement 2) es (requalifyElements rules es) := by
  induction es with
  | nil => exact .nil
  | cons x es ih => exact .cons ⟨rfl, rfl, .requalified rules .any x.type⟩ ih

/-! ## Shapes -/

variable {t u : TypeExpr}

theorem named {name : String} (h : Variant g (.named name) u) :
    u = .named name ∨ g = 2 ∧ ∃ k, u = .qualified k (.named name) := by
  cases h with
  | same => exact .inl rfl
  | requalified rules k =>
    rw [requalify]
    split
    · exact .inr ⟨rfl, k, rfl⟩
    · exact .inl rfl

/-- Where a generic type has a new qualifier, its arguments are as they were. -/
theorem generic {base : String} {ts : List TypeExpr} (h : Variant g (.generic base ts) u) :
    (∃ us, List.Forall₂ (Variant g) ts us ∧ u = .generic base us) ∨
      g = 2 ∧ ∃ k, u = .qualified k (.generic base ts) := by
  cases h with
  | same => exact .inl ⟨ts, forall_same ts, rfl⟩
  | requalified rules k =>
    rw [requalify]
    split
    · exact .inr ⟨rfl, k, rfl⟩
    · exact .inl ⟨requalifyList rules ts, forall_requalifyList rules ts, rfl⟩

theorem optional (h : Variant g (.optional t) u) (ht : t.isQualified = false) :
    ∃ p, Variant g t p ∧ u = optionalOf p := by
  cases h with
  | same =>
    refine ⟨t, .same g t, ?_⟩
    unfold optionalOf
    rw [ht]
    rfl
  | requalified rules k =>
    exact ⟨t.requalify rules .any, .requalified rules .any t, by rw [requalify]⟩

theorem tuple {es : List (Element TypeExpr)} (h : Variant g (.tuple es) u) :
    ∃ fs, List.Forall₂ (VariantElement g) es fs ∧ u = .tuple fs := by
  cases h with
  | same => exact ⟨es, forall_elements_same es, rfl⟩
  | requalified rules k =>
    exact ⟨requalifyElements rules es, forall_requalifyElements rules es, by rw [requalify]⟩

theorem function {es : List (Element TypeExpr)} {effects : Option String}
    (h : Variant g (.function es effects t) u) :
    ∃ fs r, List.Forall₂ (VariantElement g) es fs ∧ Variant g t r ∧
      u = .function fs effects r := by
  cases h with
  | same => exact ⟨es, t, forall_elements_same es, .same g t, rfl⟩
  | requalified rules k =>
    exact ⟨requalifyElements rules es, t.requalify rules .any,
      forall_requalifyElements rules es, .requalified rules .any t, by rw [requalify]⟩

/-- A qualifier stays, unless the type behind it has a new one. -/
theorem qualified {q : Qualifier} (h : Variant g (.qualified q t) u) :
    ∃ v, Variant g t v ∧ (u = .qualified q v ∨ u = v) := by
  cases h with
  | same => exact ⟨t, .same g t, .inl rfl⟩
  | requalified rules k =>
    rw [requalify]
    split
    · exact ⟨t, .same 2 t, .inl rfl⟩
    · refine ⟨t.requalify rules k, .requalified rules k t, ?_⟩
      unfold keepQualifier
      split
      · exact .inr rfl
      · exact .inl rfl

theorem attributed {ss : List String} (h : Variant g (.attributed ss t) u) :
    ∃ v, Variant g t v ∧ u = .attributed ss v := by
  cases h with
  | same => exact ⟨t, .same g t, rfl⟩
  | requalified rules k =>
    exact ⟨t.requalify rules k, .requalified rules k t, by rw [requalify]⟩

theorem verbatim {text : String} (h : Variant g (.verbatim text) u) : u = .verbatim text := by
  cases h with
  | same => rfl
  | requalified rules k => exact requalify_verbatim rules k text

/-- A type with a qualifier in front has no specifiers in front. -/
theorem isAttributed_of_hasLeadingQualifier (h : t.hasLeadingQualifier = true) :
    t.isAttributed = false := by
  cases t with
  | attributed => contradiction
  | _ => rfl

theorem isAttributed_eq (h : Variant g t u) (ht : t.isAttributed = false) :
    u.isAttributed = false := by
  cases h with
  | same => exact ht
  | requalified rules k =>
    cases t with
    | named | generic =>
      rw [requalify]
      split <;> rfl
    | optional =>
      rw [requalify]
      unfold optionalOf
      split <;> rfl
    | tuple | function | verbatim =>
      rw [requalify]
      rfl
    | qualified q inner =>
      rw [requalify]
      split
      · rfl
      · unfold keepQualifier
        split
        next hleading => exact isAttributed_of_hasLeadingQualifier hleading
        · rfl
    | attributed => contradiction

end Variant

end AnySome.TypeExpr
