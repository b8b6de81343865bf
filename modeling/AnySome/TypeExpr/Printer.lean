import AnySome.TypeExpr.Basic

/-!
# Writing types

The canonical form of a type: one space after each comma, colon, specifier
and qualifier, and around an arrow. A question mark binds tighter than
anything in front of a type and than an arrow, so such a payload is put in
parentheses.
-/

namespace AnySome.TypeExpr

/-- As the payload of an optional the type needs parentheses. -/
def bindsLoosely : TypeExpr → Bool
  | .qualified _ _ => true
  | .function _ _ _ => true
  | .attributed _ _ => true
  | _ => false

/-- A label as written in front of its type. -/
def printLabel : Option String → String
  | none => ""
  | some label => label ++ ": "

/-- Effects as written behind the parameters of a function type. -/
def printEffects : Option String → String
  | none => ""
  | some effects => " " ++ effects

/-- Specifiers as written in front of their type. -/
def printSpecifiers : List String → String
  | [] => ""
  | s :: ss => s ++ " " ++ printSpecifiers ss

/-- The dots behind the type of a variadic element. -/
def printVariadic (variadic : Bool) : String := if variadic then "..." else ""

mutual
/-- The type in canonical form. -/
def print : TypeExpr → String
  | .named name => name
  | .generic base arguments => base ++ "<" ++ printArguments arguments ++ ">"
  | .optional t => if t.bindsLoosely then "(" ++ print t ++ ")" ++ "?" else print t ++ "?"
  | .tuple elements => "(" ++ printElements elements ++ ")"
  | .function parameters effects result =>
    "(" ++ printElements parameters ++ ")" ++ printEffects effects ++ " -> " ++ print result
  | .qualified q t => q.keyword ++ " " ++ print t
  | .attributed specifiers t => printSpecifiers specifiers ++ print t
  | .verbatim text => text

/-- Generic arguments, separated by commas. -/
def printArguments : List TypeExpr → String
  | [] => ""
  | [t] => print t
  | t :: u :: ts => print t ++ ", " ++ printArguments (u :: ts)

/-- Tuple elements or parameters, separated by commas. -/
def printElements : List (Element TypeExpr) → String
  | [] => ""
  | [⟨label, t, variadic⟩] => printLabel label ++ print t ++ printVariadic variadic
  | ⟨label, t, variadic⟩ :: e :: es =>
    printLabel label ++ print t ++ printVariadic variadic ++ ", " ++ printElements (e :: es)
end

end AnySome.TypeExpr
