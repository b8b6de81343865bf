import AnySome.Cursor.Skip
import AnySome.TypeExpr.Basic

/-!
# Reading types

Types are read by recursive descent. Every function that meets a type inside
a type takes the parser for that inner type as an argument; `TypeExpr.parser`
ties the knot by recursion on the number of levels that are still allowed, so
a type nested beyond the limit is a problem of its own and reading always
ends.

Whether a suffix or an argument list belongs to a type depends on gaps: `?`,
`!`, `.` and `<` count only when nothing separates them from what stands
before. Whether `any`, `some` or a specifier word is used as such depends on
what follows it on the same line.
-/

namespace AnySome.TypeExpr

open AnySome.Parser

/-! ## Words in front of a type -/

/-- Words for ownership, isolation and parameter packs. They are ordinary
names wherever no type follows. -/
def specifierWords : List String :=
  ["borrowing", "consuming", "isolated", "sending", "__owned", "__shared", "repeat", "each"]

/-- Tokens that can start the type behind a word. -/
def startsType : Kind → Bool
  | .identifier | .opening .paren | .opening .square | .atSign => true
  | _ => false

/-- A type starts behind the current token, on the same line. -/
def isTypeNext (c : Cursor) : Bool :=
  let next := c.advance
  !next.current.onNewLine && startsType next.kind

/-- The current token is a specifier word. -/
def isAtSpecifierWord (c : Cursor) : Bool :=
  c.kind == .keyword .inoutSpecifier ||
    (c.kind == .identifier && specifierWords.contains c.current.text && isTypeNext c)

/-- One attribute or specifier, as written. -/
def specifier : Parser (Option String) := do
  if ← isAt .atSign then
    return some (← written (move Cursor.skipAttribute))
  else if isAtSpecifierWord (← get) then
    let token ← current
    advance
    return some token.text
  else return none

/-- The qualifier that the current token is, if a type follows it. -/
def qualifierAt (c : Cursor) : Option Qualifier :=
  if c.kind == .identifier && isTypeNext c then Qualifier.ofKeyword? c.current.text else none

/-! ## Arguments, elements and effects -/

/-- Generic arguments, of which the current token opens the list. -/
def genericArguments (inner : Parser TypeExpr) : Parser (List TypeExpr) := do
  let opening ← current
  advance
  let arguments ← commaSeparated (· == .greaterThan) inner
  if ← isAt .greaterThan then advance
  else reportDelimiter opening.start .unclosedGenericArguments
  return arguments

/-- How many tokens of a label stand in front of a colon here: `name` or
`_ name`; zero if there is no label. -/
def labelWidth (c : Cursor) : Nat :=
  if c.kind.isName then
    let next := c.advance
    if next.kind == .colon then 1
    else if next.kind.isName && next.advance.kind == .colon then 2
    else 0
  else 0

/-- A label with its colon, if one stands here. -/
def label : Parser (Option String) := do
  match labelWidth (← get) with
  | 0 => return none
  | 1 =>
    let name ← written advance
    advance
    return some name
  | _ =>
    let name ← written (do advance; advance)
    advance
    return some name

/-- A tuple element or a parameter of a function type. -/
def element (inner : Parser TypeExpr) : Parser (Element TypeExpr) := do
  let name ← label
  let type ← inner
  let variadic ← isAt .ellipsis
  if variadic then advance
  return ⟨name, type, variadic⟩

/-- A token at which a parenthesised list is over. -/
def endsList : Kind → Bool
  | .closing _ | .endOfFile => true
  | _ => false

/-- One effect of a function type, on the line of its parameters. -/
def effect : Parser (Option String) := do
  let token ← current
  if token.onNewLine then return none
  else if token.isWord "async" then
    advance
    return some "async"
  else if ← isAt (.keyword .throwsEffect) then
    return some (← written (move fun c => c.advance.skipAdjacentParen))
  else return none

/-- The effects of a function type, separated by spaces. -/
def effects : Parser (Option String) := do
  match ← many effect with
  | [] => return none
  | first :: more => return some (String.intercalate " " (first :: more))

/-- A tuple, or a function type whose parameters it lists. -/
def tupleOrFunction (inner : Parser TypeExpr) : Parser TypeExpr := do
  let opening ← current
  advance
  let elements ← commaSeparated endsList (element inner)
  close .paren opening.start
  let effects ← effects
  if ← isAt .arrow then
    advance
    return .function elements effects (← inner)
  else
    if effects.isSome then reportHere (.missing .arrow)
    return .tuple elements

/-! ## Types -/

/-- Generic arguments directly behind a name. -/
def argumentsFollow (c : Cursor) : Bool :=
  c.kind == .lessThan && !c.current.isSeparated

/-- A type without suffixes. -/
def primary (inner : Parser TypeExpr) : Parser TypeExpr := do
  let token ← current
  match ← kind with
  | .identifier =>
    advance
    if argumentsFollow (← get) then return .generic token.text (← genericArguments inner)
    else return .named token.text
  | .opening .paren => tupleOrFunction inner
  | .opening .square | .numericLiteral => return .verbatim (← written (move Cursor.skipBalanced))
  | _ =>
    reportHere (.missing .type)
    return .verbatim ""

/-- One suffix of the type `type`, which starts at the cursor `start`: a
member, `?` or `!`. Members and implicitly unwrapped optionals are kept as
written. -/
def suffix (inner : Parser TypeExpr) (start : Cursor) (type : TypeExpr) :
    Parser (Option TypeExpr) := do
  if ← isSeparated then return none
  else
    match ← kind with
    | .dot =>
      advance
      if ← isAtName then
        advance
        if argumentsFollow (← get) then
          let _ ← genericArguments inner
        return some (.verbatim (start.writtenSince (← get)))
      else
        reportHere (.missing .memberTypeName)
        return none
    | .question =>
      advance
      return some (.optional type)
    | .exclamation =>
      advance
      return some (.verbatim (start.writtenSince (← get)))
    | _ => return none

/-- A type with its suffixes. -/
def suffixed (inner : Parser TypeExpr) : Parser TypeExpr := do
  let start ← get
  let type ← primary inner
  iterate (suffix inner start) type

/-- One further member of a composition. -/
def composedWith (inner : Parser TypeExpr) : Parser (Option Unit) := do
  if ← isAt .ampersand then
    advance
    let _ ← suffixed inner
    return some ()
  else return none

/-- A type whose inner types are read by `inner`. A composition is kept as
written. -/
def level (inner : Parser TypeExpr) : Parser TypeExpr := do
  let start ← get
  let specifiers ← many specifier
  if !specifiers.isEmpty then return .attributed specifiers (← inner)
  else
    match qualifierAt (← get) with
    | some q =>
      advance
      return .qualified q (← inner)
    | none =>
      let type ← suffixed inner
      if ← isAt .ampersand then
        let _ ← many (composedWith inner)
        return .verbatim (start.writtenSince (← get))
      else return type

/-- A type of at most `depth` levels. -/
def parser : (depth : Nat) → Parser TypeExpr
  | 0 => do
    reportHere .typeTooDeep
    return .verbatim ""
  | depth + 1 => level (parser depth)

/-- The greatest number of levels of a type. -/
def nestingLimit : Nat := 128

/-! ## A type on its own -/

/-- Reads a text that is one type and nothing else. -/
def parse (source : String) : Except ParseError TypeExpr :=
  let (type, after) := parser nestingLimit (Cursor.start (TokenStream.scan source))
  let done := if after.atEnd then after else after.reportHere .trailingToken
  if done.findings.isEmpty then .ok type
  else
    let file := "<type>"
    .error (ParseError.ofDiagnostics file source (done.findings.map (·.toDiagnostic file)))

end AnySome.TypeExpr
