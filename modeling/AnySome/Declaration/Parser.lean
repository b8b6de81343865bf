import AnySome.Cursor.Skip
import AnySome.Declaration.Basic
import AnySome.Source.Name
import AnySome.TypeExpr.Parser

/-!
# Reading declarations

Declarations are recognised by their keyword, behind any attributes and
modifiers. What is not recognised is passed over as a statement. In a body
only variables are kept; in a file and in a type every kind of declaration
is.

Type declarations hold further declarations. `Declaration.members` reads such
a block by recursion on the number of levels that are still allowed, and
everything below it takes the reader of inner blocks as an argument.

Every round of a list of declarations consumes something (`advancing`), so
the list ends.
-/

namespace AnySome.Declaration

open AnySome.Parser

/-! ## Attributes and modifiers -/

/-- Modifiers that are ordinary names elsewhere. -/
def modifierWords : List String :=
  ["public", "private", "fileprivate", "internal", "open", "package", "final", "override",
    "mutating", "nonmutating", "lazy", "async", "weak", "unowned", "dynamic", "optional",
    "required", "convenience", "indirect", "nonisolated", "isolated", "distributed", "prefix",
    "postfix", "infix", "consuming", "borrowing", "__consuming"]

/-- Behind `class` stands something that makes it a modifier. -/
def isModifiedByClass (next : Cursor) : Bool :=
  match next.kind with
  | .keyword .funcDecl | .keyword .varDecl | .keyword .letDecl | .keyword .subscriptDecl
  | .keyword .staticModifier => true
  | .identifier => modifierWords.contains next.current.text
  | _ => false

/-- Behind a modifier word stands something that it can modify. -/
def isModified (next : Cursor) : Bool := next.kind.isName || next.kind == .atSign

/-- The current token is a modifier: the words are names unless a name or an
attribute follows. -/
def isAtModifier (c : Cursor) : Bool :=
  match c.kind with
  | .keyword .staticModifier => true
  | .keyword .classDecl => isModifiedByClass c.advance
  | .identifier =>
    modifierWords.contains c.current.text && isModified c.advance.skipAdjacentParen
  | _ => false

/-- One attribute, if one stands here. -/
def attribute? : Parser (Option Unit) := do
  if ← isAt .atSign then
    move Cursor.skipAttribute
    return some ()
  else return none

/-- Any attributes. -/
def attributes : Parser Unit := do
  let _ ← many attribute?

/-- One attribute or modifier, if one stands here. A modifier may have an
argument: `private(set)`. -/
def modifier : Parser (Option Unit) := do
  if ← isAt .atSign then
    move Cursor.skipAttribute
    return some ()
  else if isAtModifier (← get) then
    move fun c => c.advance.skipAdjacentParen
    return some ()
  else return none

/-- Any attributes and modifiers. -/
def modifiers : Parser Unit := do
  let _ ← many modifier

/-! ## Recognising declarations -/

/-- The current token is the word `actor` in front of a name on its line. -/
def isAtActor (c : Cursor) : Bool :=
  c.kind == .identifier && c.current.text == "actor" &&
    (let next := c.advance
     next.kind == .identifier && !next.current.onNewLine)

/-- A declaration starts here, behind any attributes and modifiers. -/
def isAtDeclaration (c : Cursor) : Bool :=
  let next := (modifiers c).2
  match next.kind with
  | .keyword .protocolDecl | .keyword .classDecl | .keyword .structDecl | .keyword .enumDecl
  | .keyword .extensionDecl | .keyword .varDecl | .keyword .letDecl | .keyword .funcDecl
  | .keyword .initDecl | .keyword .typealiasDecl => true
  | .identifier => isAtActor next
  | _ => false

/-- Passes over a directive: a condition with its line, other branches of it
alone. What the branches hold is read as usual. -/
def skipDirective (c : Cursor) : Cursor :=
  match c.current.text with
  | "#if" | "#elseif" => c.advance.skipUntil (·.current.onNewLine)
  | "#else" | "#endif" => c.advance
  | _ => c.skipStatement

/-- Reads one declaration by `body`, which is given the byte offset of its
start and stands behind its modifiers. Anything else is passed over. -/
def item (body : Nat → Parser (Option α)) : Parser (Option α) := do
  if ← isAt .poundKeyword then
    move skipDirective
    return none
  else if isAtDeclaration (← get) then
    let first ← current
    modifiers
    body first.start
  else
    move Cursor.skipStatement
    return none

/-- Runs `p`, and consumes a token if it consumed none. -/
def advancing (p : Parser α) : Parser α := fun c =>
  let (a, later) := p c
  (a, if later.remaining < c.remaining then later else later.advance)

/-- The items of a list up to the end of the text or, inside a block, up to
its closing brace. Semicolons separate items. -/
def items (inBlock : Bool) (one : Parser (Option α)) : Parser (List α) := do
  let found ← collect do
    let k ← kind
    if k == .endOfFile || (inBlock && k == .closing .brace) then return .finished
    else if k == .semicolon then
      advance
      return .more none
    else return .more (← advancing one)
  return found.filterMap id

/-! ## Parts of declarations -/

/-- A name without its backticks; `what` is missing if there is none. -/
def nameOf (what : Expectation) : Parser String := do
  let token ← current
  if ← isAtName then
    advance
    return Name.bare token.text
  else
    reportHere (.missing what)
    return ""

/-- The span from byte `start` through the last consumed token. -/
def spanFrom (start : Nat) : Parser Span := fun c => (⟨start, c.previousStop⟩, c)

/-- A type with its span. -/
def ascription : Parser Ascription := do
  let (type, span) ← spanned (TypeExpr.parser TypeExpr.nestingLimit)
  return Ascription.ofParsed span type

/-- A type behind the token `k`, if that token stands here. -/
def ascriptionBehind (k : Kind) : Parser (Option Ascription) := do
  if ← isAt k then
    advance
    return some (← ascription)
  else return none

/-- Passes over a generic clause, if one starts here. -/
def skipGenerics (c : Cursor) : Cursor :=
  if c.kind == .lessThan then c.skipGenericClause else c

/-- Passes over a `where` clause, if one starts here. -/
def skipWhere (c : Cursor) : Cursor :=
  if c.kind == .keyword .whereClause then c.skipWhereClause else c

/-- Passes over generic parameters, inheritance and `where` clauses, up to a
block. -/
def skipHeader (c : Cursor) : Cursor := c.skipUntil (fun d => Cursor.endsHeader d.kind)

/-! ## Variables -/

/-- The pattern of a binding: a name or a parenthesised pattern. -/
def pattern : Parser Unit := do
  if ← isAt (.opening .paren) then move Cursor.skipBalanced
  else if ← isAtName then advance
  else reportHere (.missing .pattern)

/-- What the accessor block that starts here holds: its first word behind any
attributes tells. -/
def accessorOf (c : Cursor) : Accessor :=
  let first := (attributes c.advance).2
  if first.kind == .identifier
      && (first.current.text == "willSet" || first.current.text == "didSet") then .observers
  else .computed

/-- An accessor block, if one stands here. -/
def accessor : Parser (Option Accessor) := do
  if ← isAt (.opening .brace) then
    let kind := accessorOf (← get)
    move Cursor.skipBalanced
    return some kind
  else return none

/-- An initial value, if one stands here: it ends with its line. -/
def initialValue : Parser (Option Span) := do
  if ← isAt .equals then
    advance
    let (_, span) ← spanned (move (Cursor.skipExpression true))
    return some span
  else return none

/-- One entry of a variable declaration. A block behind an initial value is
part of that value. -/
def binding : Parser Binding := do
  let name ← written pattern
  let type ← ascriptionBehind .colon
  let value ← initialValue
  let block ← if value.isNone then accessor else pure none
  return ⟨name, type, value, block⟩

/-- A further entry of a variable declaration, if a comma announces one. -/
def furtherBinding : Parser (Option Binding) := do
  if ← isAt .comma then
    advance
    return some (← binding)
  else return none

/-- A `var` or `let` whose modifiers start at byte `start`. -/
def variableDecl (start : Nat) : Parser VariableDecl := do
  let isLet ← isAt (.keyword .letDecl)
  advance
  let first ← binding
  let more ← many furtherBinding
  return ⟨isLet, first :: more, ← spanFrom start⟩

/-! ## Bodies -/

/-- What is declared in a body behind the modifiers that start at byte `start`,
if it is a variable. Other declarations are passed over. -/
def localBehind (start : Nat) : Parser (Option VariableDecl) := do
  match ← kind with
  | .keyword .varDecl | .keyword .letDecl => return some (← variableDecl start)
  | _ =>
    move Cursor.skipStatement
    return none

/-- A variable declared in a body, with its modifiers. -/
def localVariable : Parser (Option VariableDecl) := item localBehind

/-- A body, whose opening brace stands here. -/
def codeBlock : Parser CodeBlock := do
  let opening ← current
  advance
  let locals ← items true localVariable
  close .brace opening.start
  return ⟨← spanFrom opening.start, locals⟩

/-- A body, if one stands here. -/
def body : Parser (Option CodeBlock) := do
  if ← isAt (.opening .brace) then return some (← codeBlock) else return none

/-! ## Parameters -/

/-- A token at which a parameter is over. -/
def endsParameter (c : Cursor) : Bool := TypeExpr.endsList c.kind || c.kind == .comma

/-- A name as written, if one stands here. -/
def name? : Parser (Option String) := do
  let token ← current
  if ← isAtName then
    advance
    return some token.text
  else return none

/-- A default value, if one stands here. -/
def defaultValue : Parser (Option DefaultValue) := do
  if ← isAt .equals then
    advance
    let start ← get
    let (_, span) ← spanned (move (Cursor.skipExpression false))
    return some ⟨span, start.writtenSince (← get)⟩
  else return none

/-- One parameter. Without a name and a colon it is passed over. -/
def parameter : Parser (Option Parameter) := do
  attributes
  let names ← many name?
  let atColon ← isAt .colon
  if names.isEmpty || !atColon then
    reportHere (.missing .parameterName)
    move fun c => c.skipUntil endsParameter
    return none
  else
    advance
    let type ← ascription
    let variadic ← isAt .ellipsis
    if variadic then advance
    return some ⟨names, type, variadic, ← defaultValue⟩

/-- What separates a parameter from the next. -/
def parameterSeparator : Parser Unit := do
  match ← kind with
  | .comma => advance
  | .closing .paren => return ()
  | _ =>
    reportHere (.missing .parameterSeparator)
    move fun c => c.skipUntil endsParameter
    if ← isAt .comma then advance

/-- A parameter clause with its parentheses. -/
def parameterClause : Parser (List Parameter) := do
  let opening ← current
  if ← isAt (.opening .paren) then
    advance
    let found ← collect do
      if TypeExpr.endsList (← kind) then return .finished
      else
        let p ← parameter
        parameterSeparator
        return .more p
    close .paren opening.start
    return found.filterMap id
  else
    reportHere (.missing .openingParen)
    return []

/-! ## Functions and initializers -/

/-- The effect of a declared function that `token`, which stands here, begins,
if it begins one. -/
def effectOf (token : Token) : Parser (Option Unit) := do
  match ← kind with
  | .keyword .rethrowsEffect =>
    advance
    return some ()
  | .keyword .throwsEffect =>
    move fun c => c.advance.skipAdjacentParen
    return some ()
  | .identifier =>
    if token.text == "async" || token.text == "reasync" then
      advance
      return some ()
    else return none
  | _ => return none

/-- One effect of a declared function, if one stands here. -/
def effect : Parser (Option Unit) := do
  effectOf (← current)

/-- Passes over the effects of a declared function. -/
def effects : Parser Unit := do
  let _ ← many effect

/-- A place at which an operator's name is over: blanks separate the name `<`
from a generic clause. -/
def endsOperatorName (c : Cursor) : Bool :=
  match c.kind with
  | .opening .paren | .opening .brace | .endOfFile => true
  | .lessThan => c.current.isSeparated
  | _ => c.current.onNewLine

/-- A further token of an operator's name, if one stands here. -/
def operatorPart : Parser (Option Unit) := do
  if endsOperatorName (← get) then return none
  else
    advance
    return some ()

/-- The name of an operator function. -/
def operatorName : Parser Unit := do
  match ← kind with
  | .opening .paren | .opening .brace | .endOfFile => reportHere (.missing .functionName)
  | _ =>
    advance
    let _ ← many operatorPart

/-- The name of a function. -/
def functionName : Parser String := do
  if ← isAtName then nameOf .functionName else written operatorName

/-- A function whose modifiers start at byte `start`. -/
def functionDecl (start : Nat) : Parser FunctionDecl := do
  advance
  let name ← functionName
  move skipGenerics
  let parameters ← parameterClause
  effects
  let result ← ascriptionBehind .arrow
  move skipWhere
  let block ← body
  return ⟨name, parameters, result, block, ← spanFrom start⟩

/-- Passes over the mark of a failable initializer. -/
def skipFailureMark (c : Cursor) : Cursor :=
  if (c.kind == .question || c.kind == .exclamation) && !c.current.isSeparated then c.advance
  else c

/-- An initializer whose modifiers start at byte `start`. -/
def initializerDecl (start : Nat) : Parser InitializerDecl := do
  advance
  move skipFailureMark
  move skipGenerics
  let parameters ← parameterClause
  effects
  move skipWhere
  let block ← body
  return ⟨parameters, block, ← spanFrom start⟩

/-! ## Aliases -/

/-- An alias whose modifiers start at byte `start`. Without a type it is
passed over. -/
def aliasDecl (start : Nat) : Parser (Option AliasDecl) := do
  advance
  let name ← nameOf .aliasName
  move skipGenerics
  if ← isAt .equals then
    advance
    let target ← ascription
    return some ⟨name, target, ← spanFrom start⟩
  else
    reportHere (.missing .equalsSign)
    move Cursor.skipStatement
    return none

/-! ## Types -/

/-- A protocol whose modifiers start at byte `start`. -/
def protocolDecl (members : Parser (List Declaration)) (start : Nat) : Parser Declaration := do
  advance
  let name ← nameOf .protocolName
  move skipHeader
  let inner ← members
  return .protocol name (← spanFrom start) inner

/-- A further part of a dotted name, if one stands here. -/
def dottedPart (name : String) : Parser (Option String) := do
  if ← isAt .dot then
    advance
    return some (name ++ "." ++ (← nameOf .memberName))
  else return none

/-- Any other type declaration whose modifiers start at byte `start`. -/
def nominalDecl (members : Parser (List Declaration)) (kind : NominalKind) (start : Nat) :
    Parser Declaration := do
  advance
  let first ← nameOf .typeName
  let name ← iterate dottedPart first
  move skipHeader
  let inner ← members
  return .nominal kind name (← spanFrom start) inner

/-! ## Declarations -/

/-- The declaration behind the modifiers that start at byte `start`, in which
blocks of members are read by `members`. -/
def declarationBehind (members : Parser (List Declaration)) (start : Nat) :
    Parser (Option Declaration) := do
  match ← kind with
  | .keyword .varDecl | .keyword .letDecl => return some (.bindings (← variableDecl start))
  | .keyword .protocolDecl => return some (← protocolDecl members start)
  | .keyword .classDecl => return some (← nominalDecl members .classKind start)
  | .keyword .structDecl => return some (← nominalDecl members .structKind start)
  | .keyword .enumDecl => return some (← nominalDecl members .enumKind start)
  | .keyword .extensionDecl => return some (← nominalDecl members .extensionKind start)
  | .identifier => return some (← nominalDecl members .actorKind start)
  | .keyword .funcDecl => return some (.function (← functionDecl start))
  | .keyword .initDecl => return some (.initializer (← initializerDecl start))
  | .keyword .typealiasDecl => return (← aliasDecl start).map Declaration.typeAlias
  | _ =>
    move Cursor.skipStatement
    return none

/-- One declaration with its modifiers, in which blocks of members are read by
`members`. -/
def declaration (members : Parser (List Declaration)) : Parser (Option Declaration) :=
  item (declarationBehind members)

/-- A block in braces, whose contents are read by `contents`. -/
def memberBlock (contents : Nat → Parser (List Declaration)) : Parser (List Declaration) := do
  let opening ← current
  if ← isAt (.opening .brace) then
    advance
    let inner ← contents opening.start
    close .brace opening.start
    return inner
  else
    reportHere (.missing .openingBrace)
    return []

/-- What stands in a block beyond the limit is passed over. -/
def tooDeep (start : Nat) : Parser (List Declaration) := do
  reportDelimiter start .declarationsTooDeep
  move fun c => c.skipUntil (fun d => d.kind == .closing .brace)
  return []

/-- A block of members in which blocks may nest `depth` levels deep. -/
def members : (depth : Nat) → Parser (List Declaration)
  | 0 => memberBlock tooDeep
  | depth + 1 => memberBlock fun _ => items true (declaration (members depth))

/-- The greatest number of levels of member blocks. -/
def nestingLimit : Nat := 64

/-- The declarations of a whole file. -/
def parser : Parser (List Declaration) := items false (declaration (members nestingLimit))

end AnySome.Declaration
