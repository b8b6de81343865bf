import AnySome.Source.Span
import AnySome.TypeExpr.Basic

/-!
# Declarations

What the migration needs to know of a source file: its declarations, the
types written in them and the spans those types occupy. Everything else stays
in the text and is never looked at again.

A type written in a declaration is an *ascription*. It remembers what was
read and what it should read now, so that only changed ascriptions need to be
written back.

`Declaration.ascriptions` lists all ascriptions of a declaration, in the order
in which they are written.
-/

namespace AnySome

/-! ## Ascriptions -/

/-- A type written in a declaration: its place, what was read there, and what
it should read now. -/
structure Ascription where
  span : Span
  parsed : TypeExpr
  type : TypeExpr
deriving DecidableEq, Repr

namespace Ascription

/-- An ascription as it was read. -/
def ofParsed (span : Span) (type : TypeExpr) : Ascription := ⟨span, type, type⟩

/-- The ascription should read differently now. -/
def isChanged (a : Ascription) : Bool := decide (a.type ≠ a.parsed)

end Ascription

/-! ## Variables -/

/-- What the block behind a variable holds. -/
inductive Accessor where
  /-- `{ get set }`, `{ return x }`: the property is computed. -/
  | computed
  /-- `{ willSet ... didSet ... }`: the property is stored and observed. -/
  | observers
deriving DecidableEq, Repr

/-- One entry `name: Type = value { accessors }` of a `var` or `let`. -/
structure Binding where
  pattern : String
  ascription : Option Ascription
  initializer : Option Span
  accessor : Option Accessor
deriving DecidableEq, Repr

/-- The property is computed. -/
def Binding.isComputed (b : Binding) : Bool := b.accessor == some .computed

/-- A `var` or `let` with its entries. -/
structure VariableDecl where
  isLet : Bool
  bindings : List Binding
  span : Span
deriving DecidableEq, Repr

/-! ## Functions -/

/-- The value a parameter has when the argument is left out. -/
structure DefaultValue where
  span : Span
  text : String
deriving DecidableEq, Repr

/-- A parameter of a function or an initializer. -/
structure Parameter where
  /-- Argument label and parameter name as written. -/
  names : List String
  ascription : Ascription
  variadic : Bool
  default : Option DefaultValue
deriving DecidableEq, Repr

/-- A body, of which only the variables declared directly in it are kept. -/
structure CodeBlock where
  span : Span
  locals : List VariableDecl
deriving DecidableEq, Repr

/-- A function. -/
structure FunctionDecl where
  name : String
  parameters : List Parameter
  result : Option Ascription
  body : Option CodeBlock
  span : Span
deriving DecidableEq, Repr

/-- An initializer. -/
structure InitializerDecl where
  parameters : List Parameter
  body : Option CodeBlock
  span : Span
deriving DecidableEq, Repr

/-- A name for a type. -/
structure AliasDecl where
  name : String
  target : Ascription
  span : Span
deriving DecidableEq, Repr

/-! ## Declarations -/

/-- What kind of type a nominal declaration declares or extends. -/
inductive NominalKind where
  | classKind
  | structKind
  | enumKind
  | extensionKind
  | actorKind
deriving DecidableEq, Repr

/-- A declaration that the migration looks into. -/
inductive Declaration where
  | protocol (name : String) (span : Span) (members : List Declaration)
  | nominal (kind : NominalKind) (name : String) (span : Span) (members : List Declaration)
  | bindings (decl : VariableDecl)
  | function (decl : FunctionDecl)
  | initializer (decl : InitializerDecl)
  | typeAlias (decl : AliasDecl)
deriving Repr

/-! ## Ascriptions in order -/

/-- The ascriptions of a variable declaration. -/
def VariableDecl.ascriptions (d : VariableDecl) : List Ascription :=
  d.bindings.filterMap Binding.ascription

/-- The ascriptions in a body. -/
def CodeBlock.ascriptions (b : CodeBlock) : List Ascription :=
  b.locals.flatMap VariableDecl.ascriptions

/-- The ascriptions in a body that may be missing. -/
def CodeBlock.ascriptionsOf (body : Option CodeBlock) : List Ascription :=
  match body with
  | none => []
  | some b => b.ascriptions

/-- The ascriptions of a function. -/
def FunctionDecl.ascriptions (d : FunctionDecl) : List Ascription :=
  d.parameters.map Parameter.ascription ++ d.result.toList ++ CodeBlock.ascriptionsOf d.body

/-- The ascriptions of an initializer. -/
def InitializerDecl.ascriptions (d : InitializerDecl) : List Ascription :=
  d.parameters.map Parameter.ascription ++ CodeBlock.ascriptionsOf d.body

namespace Declaration

mutual
/-- The ascriptions of a declaration, in the order in which they are written. -/
def ascriptions : Declaration → List Ascription
  | .protocol _ _ members => ascriptionsList members
  | .nominal _ _ _ members => ascriptionsList members
  | .bindings d => d.ascriptions
  | .function d => d.ascriptions
  | .initializer d => d.ascriptions
  | .typeAlias d => [d.target]

/-- The ascriptions of declarations that follow each other. -/
def ascriptionsList : List Declaration → List Ascription
  | [] => []
  | d :: ds => ascriptions d ++ ascriptionsList ds
end

mutual
/-- The names of the protocols that a declaration declares, at its top or
nested in other types. A protocol's body declares no protocols. -/
def interfaceNames : Declaration → List String
  | .protocol name _ _ => [name]
  | .nominal _ _ _ members => interfaceNamesList members
  | _ => []

/-- The names of the protocols that declarations declare. -/
def interfaceNamesList : List Declaration → List String
  | [] => []
  | d :: ds => interfaceNames d ++ interfaceNamesList ds
end

end Declaration

end AnySome
