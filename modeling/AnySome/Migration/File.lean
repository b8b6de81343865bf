import AnySome.Migration.Policy
import AnySome.Migration.Requalify
import AnySome.SourceFile

/-!
# Migrating a file

Every ascription of a file is qualified for its place. Nothing else of a
declaration changes, and an ascription keeps its span and what was read, so
that the file can be written back.

The result of a function is special inside a protocol: a requirement cannot
hide its type, so its place is one for `any`. The same holds for variadic
parameters.
-/

namespace AnySome

/-- What a migration depends on. -/
structure Migration where
  /-- The (bare) name is the name of an interface. -/
  isInterface : String → Bool
  policy : Policy

namespace Migration

/-- The rules for single types. -/
def rules (m : Migration) : Rules := ⟨m.isInterface, m.policy.conservative⟩

/-- An ascription in a place whose qualifier is `keyword`; none leaves it
alone. -/
def ascription (m : Migration) (keyword : Option Qualifier) (a : Ascription) : Ascription :=
  match keyword with
  | none => a
  | some q => { a with type := a.type.requalify m.rules q }

/-! ## Variables -/

/-- A binding of a variable that stands in `place` unless it is computed. -/
def binding (m : Migration) (place : Place) (b : Binding) : Binding :=
  let place := if b.isComputed then Place.computedProperty else place
  { b with ascription := b.ascription.map (m.ascription (m.policy.qualifierFor place .absent)) }

/-- A variable declaration. -/
def bindings (m : Migration) (place : Place) (d : VariableDecl) : VariableDecl :=
  { d with bindings := d.bindings.map (m.binding place) }

/-- A body. -/
def body (m : Migration) (b : CodeBlock) : CodeBlock :=
  { b with locals := b.locals.map (m.bindings .localVariable) }

/-! ## Functions -/

/-- The qualifier for a parameter. -/
def parameterKeyword (m : Migration) (place : Place) (p : Parameter) : Option Qualifier :=
  if p.variadic then some .any
  else m.policy.qualifierFor place (DefaultShape.ofDefault (p.default.map DefaultValue.text))

/-- A parameter. -/
def parameter (m : Migration) (place : Place) (p : Parameter) : Parameter :=
  { p with ascription := m.ascription (m.parameterKeyword place p) p.ascription }

/-- The qualifier for the result of a function. -/
def resultKeyword (m : Migration) (inProtocol : Bool) : Option Qualifier :=
  if inProtocol then some .any else m.policy.qualifierFor .functionResult .absent

/-- A function. -/
def function (m : Migration) (inProtocol : Bool) (d : FunctionDecl) : FunctionDecl :=
  { d with
    parameters := d.parameters.map (m.parameter .functionParameter)
    result := d.result.map (m.ascription (m.resultKeyword inProtocol))
    body := d.body.map m.body }

/-- An initializer. -/
def initializer (m : Migration) (d : InitializerDecl) : InitializerDecl :=
  { d with
    parameters := d.parameters.map (m.parameter .initializerParameter)
    body := d.body.map m.body }

/-- An alias. -/
def typeAlias (m : Migration) (d : AliasDecl) : AliasDecl :=
  { d with target := m.ascription (m.policy.qualifierFor .aliasTarget .absent) d.target }

/-! ## Declarations -/

mutual
/-- A declaration, directly in a protocol or not. -/
def declaration (m : Migration) (inProtocol : Bool) : Declaration → Declaration
  | .protocol name span members => .protocol name span (declarations m true members)
  | .nominal kind name span members => .nominal kind name span (declarations m false members)
  | .bindings d => .bindings (m.bindings .storedProperty d)
  | .function d => .function (m.function inProtocol d)
  | .initializer d => .initializer (m.initializer d)
  | .typeAlias d => .typeAlias (m.typeAlias d)

/-- Declarations that follow each other. -/
def declarations (m : Migration) (inProtocol : Bool) : List Declaration → List Declaration
  | [] => []
  | d :: ds => declaration m inProtocol d :: declarations m inProtocol ds
end

/-! ## Files -/

/-- A file whose ascriptions are qualified. -/
def file (m : Migration) (f : SourceFile) : SourceFile :=
  { f with declarations := m.declarations false f.declarations }

/-- The text of a file after the migration, or why it was rejected. -/
def text (m : Migration) (name source : String) : Except ParseError String :=
  (SourceFile.parse name source).map fun f => (m.file f).render

end Migration

end AnySome
