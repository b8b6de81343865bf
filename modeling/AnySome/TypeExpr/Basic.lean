/-!
# Type expressions

One type reference as it appears in a declaration. Only shapes that the
migration looks into have a constructor of their own; arrays, dictionaries,
member types, compositions and implicitly unwrapped optionals are kept as
their exact text.

The elements of a tuple and the parameters of a function type are the same
thing: a type with an optional label that may be variadic. A tuple of one
element without a label is *transparent*: `((Foo))` is `Foo` in parentheses.

## Main results

* `TypeExpr.beq_iff_eq` — the structural comparison decides equality.
* `TypeExpr.unparenthesized_unparenthesized` — parentheses are stripped at
  once, however many there are.
-/

namespace AnySome

/-! ## Qualifiers -/

/-- The word in front of a protocol used as a type. -/
inductive Qualifier where
  /-- `any P`: a conforming type chosen at run time, which may vary. -/
  | any
  /-- `some P`: one fixed conforming type, hidden from callers. -/
  | some
deriving DecidableEq, Repr

namespace Qualifier

/-- How the qualifier is written. -/
def keyword : Qualifier → String
  | .any => "any"
  | .some => "some"

/-- The qualifier written as `text`, if there is one. -/
def ofKeyword? (text : String) : Option Qualifier :=
  if text = "any" then .some .any else if text = "some" then .some .some else .none

/-- Every qualifier is recognised from its own spelling. -/
@[simp] theorem ofKeyword?_keyword (q : Qualifier) : ofKeyword? q.keyword = .some q := by
  cases q <;> decide

end Qualifier

/-! ## Types -/

/-- A tuple element or a parameter of a function type. -/
structure Element (α : Type) where
  /-- The label as written: `label` or `_ name`. -/
  label : Option String
  type : α
  variadic : Bool
deriving DecidableEq, Repr

/-- A type reference. -/
inductive TypeExpr where
  /-- A bare name: `FooProtocol`, `Int`, `Self`. -/
  | named (name : String)
  /-- `Base<A, B>` -/
  | generic (base : String) (arguments : List TypeExpr)
  /-- `T?` -/
  | optional (payload : TypeExpr)
  /-- `(A, label: B)` -/
  | tuple (elements : List (Element TypeExpr))
  /-- `(A, B) async throws -> C` -/
  | function (parameters : List (Element TypeExpr)) (effects : Option String)
      (result : TypeExpr)
  /-- `any T` or `some T` -/
  | qualified (qualifier : Qualifier) (inner : TypeExpr)
  /-- Attributes and ownership specifiers in front of a type: `@escaping T`, `inout T`. -/
  | attributed (specifiers : List String) (inner : TypeExpr)
  /-- Any other shape, as its exact text. -/
  | verbatim (text : String)
deriving Repr

namespace TypeExpr

/-- `(inner)`: a transparent tuple. -/
def parenthesized (inner : TypeExpr) : TypeExpr := .tuple [⟨none, inner, false⟩]

/-! ## Equality -/

mutual
/-- Structural comparison of types. -/
def beq : TypeExpr → TypeExpr → Bool
  | .named a, .named b => a == b
  | .generic a as, .generic b bs => a == b && beqList as bs
  | .optional a, .optional b => beq a b
  | .tuple as, .tuple bs => beqElements as bs
  | .function as e a, .function bs f b => beqElements as bs && e == f && beq a b
  | .qualified q a, .qualified r b => q == r && beq a b
  | .attributed ss a, .attributed ts b => ss == ts && beq a b
  | .verbatim a, .verbatim b => a == b
  | _, _ => false

/-- Structural comparison of lists of types. -/
def beqList : List TypeExpr → List TypeExpr → Bool
  | [], [] => true
  | a :: as, b :: bs => beq a b && beqList as bs
  | _, _ => false

/-- Structural comparison of lists of elements. -/
def beqElements : List (Element TypeExpr) → List (Element TypeExpr) → Bool
  | [], [] => true
  | ⟨l, a, u⟩ :: as, ⟨m, b, v⟩ :: bs => l == m && beq a b && u == v && beqElements as bs
  | _, _ => false
end

mutual
/-- The structural comparison decides equality. -/
theorem beq_iff_eq : ∀ a b : TypeExpr, beq a b = true ↔ a = b
  | .named a, b => by cases b <;> simp [beq]
  | .generic a as, b => by cases b <;> simp [beq, beqList_iff_eq as]
  | .optional a, b => by cases b <;> simp [beq, beq_iff_eq a]
  | .tuple as, b => by cases b <;> simp [beq, beqElements_iff_eq as]
  | .function as e a, b => by
    cases b <;> simp [beq, beqElements_iff_eq as, beq_iff_eq a, and_assoc]
  | .qualified q a, b => by cases b <;> simp [beq, beq_iff_eq a]
  | .attributed ss a, b => by cases b <;> simp [beq, beq_iff_eq a]
  | .verbatim a, b => by cases b <;> simp [beq]

/-- The comparison of lists of types decides equality. -/
theorem beqList_iff_eq : ∀ as bs : List TypeExpr, beqList as bs = true ↔ as = bs
  | [], bs => by cases bs <;> simp [beqList]
  | a :: as, bs => by cases bs <;> simp [beqList, beq_iff_eq a, beqList_iff_eq as]

/-- The comparison of lists of elements decides equality. -/
theorem beqElements_iff_eq :
    ∀ as bs : List (Element TypeExpr), beqElements as bs = true ↔ as = bs
  | [], bs => by cases bs <;> simp [beqElements]
  | ⟨l, a, u⟩ :: as, bs => by
    cases bs with
    | nil => simp [beqElements]
    | cons b bs =>
      obtain ⟨m, b, v⟩ := b
      simp [beqElements, beq_iff_eq a, beqElements_iff_eq as, and_assoc]
end

instance : DecidableEq TypeExpr := fun a b => decidable_of_iff _ (beq_iff_eq a b)

/-! ## Looking through parentheses -/

/-- The outermost layer is a qualifier. -/
def isQualified : TypeExpr → Bool
  | .qualified _ _ => true
  | _ => false

/-- The type without the transparent tuples around it. -/
def unparenthesized : TypeExpr → TypeExpr
  | .tuple [⟨none, t, false⟩] => t.unparenthesized
  | t => t

/-- Parentheses are stripped at once, however many there are. -/
@[simp] theorem unparenthesized_unparenthesized (t : TypeExpr) :
    t.unparenthesized.unparenthesized = t.unparenthesized := by
  fun_induction unparenthesized t with
  | case1 t ih => exact ih
  | case2 t h =>
    unfold unparenthesized
    split
    · exact absurd rfl (h _)
    · rfl

/-- The outermost layer that means something is a qualifier, looking through
optionals and transparent tuples: `any P`, `(any P)?`. -/
def hasLeadingQualifier : TypeExpr → Bool
  | .tuple [⟨none, t, false⟩] => t.hasLeadingQualifier
  | .optional t => t.hasLeadingQualifier
  | .qualified _ _ => true
  | _ => false

/-! ## Counting -/

mutual
/-- Number of qualifiers anywhere in the type. -/
def qualifierCount : TypeExpr → Nat
  | .named _ => 0
  | .verbatim _ => 0
  | .generic _ arguments => qualifierCountList arguments
  | .optional t => qualifierCount t
  | .attributed _ t => qualifierCount t
  | .tuple elements => qualifierCountElements elements
  | .function parameters _ result =>
    qualifierCountElements parameters + qualifierCount result
  | .qualified _ t => 1 + qualifierCount t

/-- Number of qualifiers in a list of types. -/
def qualifierCountList : List TypeExpr → Nat
  | [] => 0
  | t :: ts => qualifierCount t + qualifierCountList ts

/-- Number of qualifiers in a list of elements. -/
def qualifierCountElements : List (Element TypeExpr) → Nat
  | [] => 0
  | ⟨_, t, _⟩ :: es => qualifierCount t + qualifierCountElements es
end

end TypeExpr

end AnySome
