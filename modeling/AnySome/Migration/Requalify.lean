import AnySome.Source.Name
import AnySome.TypeExpr.Basic

/-!
# Qualifying one type

A type is rebuilt with a qualifier in front of every interface that lacks
one. The qualifier asked for is used at the top of the type only; inside
optionals, tuples, functions and generic arguments `some` is not legal, so
`any` is used there. Nothing is done inside the arguments of a generic
interface, and nothing inside a text kept as written.

A qualifier that is already there is decided anew, unless the rules are
conservative: then a qualified type is left exactly as it is.
-/

namespace AnySome

/-- What qualifying depends on. -/
structure Rules where
  /-- The (bare) name is the name of an interface. -/
  isInterface : String → Bool
  /-- Leave every type that carries a qualifier exactly as it is. -/
  conservative : Bool

namespace Rules

/-- The name, escaped or not, is the name of an interface. -/
def accepts (rules : Rules) (name : String) : Bool := rules.isInterface (Name.bare name)

end Rules

namespace TypeExpr

/-- An optional, with parentheses around a payload that starts with a
qualifier. -/
def optionalOf (payload : TypeExpr) : TypeExpr :=
  if payload.isQualified then .optional payload.parenthesized else .optional payload

/-- A type under a qualifier that was there, unless it has a new one. -/
def keepQualifier (q : Qualifier) (t : TypeExpr) : TypeExpr :=
  if t.hasLeadingQualifier then t else .qualified q t

mutual
/-- The type for a place whose qualifier is `keyword`. -/
def requalify (rules : Rules) (keyword : Qualifier) : TypeExpr → TypeExpr
  | .named name =>
    if rules.accepts name then .qualified keyword (.named name) else .named name
  | .generic base arguments =>
    if rules.accepts base then .qualified keyword (.generic base arguments)
    else .generic base (requalifyList rules arguments)
  | .optional payload => optionalOf (requalify rules .any payload)
  | .tuple elements => .tuple (requalifyElements rules elements)
  | .function parameters effects result =>
    .function (requalifyElements rules parameters) effects (requalify rules .any result)
  | .qualified q inner =>
    if rules.conservative then .qualified q inner
    else keepQualifier q (requalify rules keyword inner)
  | .attributed specifiers inner => .attributed specifiers (requalify rules keyword inner)
  | .verbatim text => .verbatim text

/-- Generic arguments, each for a place inside a type. -/
def requalifyList (rules : Rules) : List TypeExpr → List TypeExpr
  | [] => []
  | t :: ts => requalify rules .any t :: requalifyList rules ts

/-- Tuple elements or parameters, each for a place inside a type. -/
def requalifyElements (rules : Rules) : List (Element TypeExpr) → List (Element TypeExpr)
  | [] => []
  | ⟨label, t, variadic⟩ :: es =>
    ⟨label, requalify rules .any t, variadic⟩ :: requalifyElements rules es
end

/-- A type kept as written stays. -/
theorem requalify_verbatim (rules : Rules) (keyword : Qualifier) (text : String) :
    requalify rules keyword (.verbatim text) = .verbatim text := by
  rw [requalify]

end TypeExpr

end AnySome
