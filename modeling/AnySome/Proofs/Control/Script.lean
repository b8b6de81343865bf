import AnySome.Declaration.Parser

/-!
# The reader as a program

A parser of this library is a function, and its loops end because each of them
stops when a round consumes nothing. A script says step by step what such a
parser does: which tokens it consumes, what it looks at, where it calls itself,
and how it counts the types and blocks that it is in. The loops of a script
have no guard, a step at the end of the text is a step like any other, and a
call is a call, however deep. So whether a script ends, and what it consumes on
its way, is a question about it.

This module writes out the script of every part of the reader.

## Main definitions

* `Script` — steps, loops and calls.
* `Routine.body` — the two routines that call each other.
* `Script.file` — a whole file.
-/

namespace AnySome

/-! ## Scripts -/

/-- How many types, and how many blocks of members, are being read. -/
structure Depths where
  types : Nat
  blocks : Nat
deriving DecidableEq, Repr

/-- What the reader calls while it is being called. -/
inductive Routine : Type → Type where
  | type : Routine TypeExpr
  | members : Routine (List Declaration)

/-- What is done at a cursor, step by step, and what is found. -/
inductive Script : Type → Type 1 where
  /-- Asks about the cursor. -/
  | look {α : Type} (f : Cursor → α) : Script α
  /-- Goes on to the next token. -/
  | next : Script Unit
  | reportHere (fault : Fault) : Script Unit
  | reportDelimiter (start : Nat) (fault : Fault) : Script Unit
  /-- Asks about the depths. -/
  | depths {α : Type} (f : Depths → α) : Script α
  | setDepths (d : Depths) : Script Unit
  | bind {α β : Type} (p : Script α) (k : α → Script β) : Script β
  /-- Repeats rounds until one of them gives a result. -/
  | loop {σ α : Type} (round : σ → Script (σ ⊕ α)) (x : σ) : Script α
  /-- Runs a script and goes back to where it started. -/
  | lookahead {α : Type} (p : Script α) : Script α
  | call {α : Type} (r : Routine α) : Script α

namespace Script

open Declaration

instance : Monad Script where
  pure a := .look fun _ => a
  bind := .bind

/-! ## Single steps -/

/-- The cursor itself. -/
def get : Script Cursor := look id

/-- The token at the cursor. -/
def current : Script Token := look Cursor.current

/-- The kind of the token at the cursor. -/
def kind : Script Kind := look Cursor.kind

/-- The token at the cursor is of kind `k`. -/
def isAt (k : Kind) : Script Bool := look fun c => c.kind == k

/-- The token at the cursor may serve as a name. -/
def isAtName : Script Bool := look fun c => c.kind.isName

/-- The token at the cursor is separated from the one before. -/
def isSeparated : Script Bool := look fun c => c.current.isSeparated

variable {α : Type}

/-- Runs `p` and gives the text that it consumed, as written. -/
def written (p : Script Unit) : Script String := do
  let start ← get
  p
  return start.writtenSince (← get)

/-- Runs `p` and gives its result with the span that it consumed. -/
def spanned (p : Script α) : Script (α × Span) := do
  let start ← get
  let a ← p
  let stop ← get
  return (a, ⟨start.current.start, max stop.previousStop start.current.start⟩)

/-- Consumes the closing delimiter of the clause opened at byte `start`. -/
def close (bracket : Bracket) (start : Nat) : Script Unit := do
  if ← isAt (.closing bracket) then next else reportDelimiter start (.unmatched bracket)

/-! ## Loops -/

/-- Runs `round` and adds the item that it found, if any, to those before. -/
def collectRound (round : Script (Parser.Round α)) (before : List α) :
    Script (List α ⊕ List α) := do
  match ← round with
  | .finished => return .inr before
  | .last a => return .inr (before ++ [a])
  | .more a => return .inl (before ++ [a])

/-- Repeats `round` and lists the items that it found. -/
def collect (round : Script (Parser.Round α)) : Script (List α) := loop (collectRound round) []

/-- Repeats `round` on a growing result until it gives none. -/
def iterate (round : α → Script (Option α)) (a : α) : Script α :=
  loop (fun a => do
    match ← round a with
    | none => return .inr a
    | some b => return .inl b) a

/-- Items for as long as `item` gives them. -/
def many (item : Script (Option α)) : Script (List α) :=
  collect do
    match ← item with
    | none => return .finished
    | some a => return .more a

/-- Items separated by commas, up to a token at which the list is over. -/
def commaSeparated (isOver : Kind → Bool) (item : Script α) : Script (List α) :=
  collect do
    if isOver (← kind) then return .finished
    else
      let a ← item
      if ← isAt .comma then
        next
        return .more a
      else return .last a

/-! ## Passing over text -/

/-- Passes over one unit, inside the delimiters `opened`. -/
def skipWithin : List (Bracket × Nat) → Script Unit :=
  loop fun opened => do
    if ← isAt .endOfFile then
      match opened with
      | [] => return .inr ()
      | (bracket, start) :: _ =>
        reportDelimiter start (.unclosed bracket)
        return .inr ()
    else
      match Cursor.nesting opened (← current) with
      | .stray found =>
        reportHere (.stray found)
        next
        return .inr ()
      | .mismatched expected found =>
        reportHere (.mismatched expected found)
        return .inr ()
      | .consume opened' =>
        next
        if opened'.isEmpty then return .inr () else return .inl opened'

/-- Passes over one token, or from an opening delimiter through the one that
closes it. -/
def skipBalanced : Script Unit := skipWithin []

/-- Passes over units up to a place where `isOver` holds, or the end. -/
def skipUntil (isOver : Cursor → Bool) : Script Unit :=
  loop (fun _ => do
    if ← isAt .endOfFile then return .inr ()
    else if ← look isOver then return .inr ()
    else
      skipBalanced
      return .inl ()) ()

/-- Passes over a statement or declaration that is not modelled. -/
def skipStatement : Script Unit := do
  match ← kind with
  | .closing found =>
    reportHere (.stray found)
    next
  | .endOfFile => return ()
  | _ =>
    skipBalanced
    skipUntil Cursor.atStatementEnd

/-- Passes over an expression, which ends with its line if `oneLine` is set. -/
def skipExpression (oneLine : Bool) : Script Unit := do
  if Cursor.endsExpression (← kind) then reportHere (.missing .expression)
  else
    skipBalanced
    skipUntil fun d => Cursor.endsExpression d.kind || (oneLine && d.current.onNewLine)

/-- Passes over a parenthesis that continues what stands before it. -/
def skipAdjacentParen : Script Unit := do
  if ← look (fun c => c.kind == .opening .paren && !c.current.isSeparated) then skipBalanced
  else return ()

/-- Passes over an attribute. -/
def skipAttribute : Script Unit := do
  next
  if ← isAtName then
    next
    skipAdjacentParen
  else reportHere (.missing .attributeName)

/-- Passes over the rest of a generic clause in which angle brackets are open,
and which starts at byte `start`. -/
def skipGenericWithin (start : Nat) : Nat → Script Unit :=
  loop fun depth => do
    match ← kind with
    | .endOfFile | .opening .brace | .closing .brace | .semicolon =>
      reportDelimiter start .unclosedGenericClause
      return .inr ()
    | .lessThan =>
      next
      return .inl (depth + 1)
    | .greaterThan =>
      next
      if depth ≤ 1 then return .inr () else return .inl (depth - 1)
    | _ =>
      skipBalanced
      return .inl depth

/-- Passes over a generic clause, counting nested angle brackets. -/
def skipGenericClause : Script Unit := do
  let opening ← current
  skipGenericWithin opening.start 0

/-- Passes over requirements of a `where` clause. -/
def skipRequirements : Bool → Script Unit :=
  loop fun afterComma => do
    if ← look (fun c => Cursor.endsHeader c.kind || (c.current.onNewLine && !afterComma)) then
      return .inr ()
    else
      let atComma ← isAt .comma
      skipBalanced
      return .inl atComma

/-- Passes over a `where` clause. -/
def skipWhereClause : Script Unit := do
  next
  skipRequirements true

/-! ## Types -/

/-- A type starts behind the current token, on the same line. -/
def isTypeNext : Script Bool :=
  lookahead do
    next
    look fun c => !c.current.onNewLine && TypeExpr.startsType c.kind

/-- The current token is a specifier word. -/
def isAtSpecifierWord : Script Bool := do
  if ← isAt (.keyword .inoutSpecifier) then return true
  else if ← look (fun c =>
      c.kind == .identifier && TypeExpr.specifierWords.contains c.current.text) then isTypeNext
  else return false

/-- One attribute or specifier, as written. -/
def specifier : Script (Option String) := do
  if ← isAt .atSign then
    return some (← written skipAttribute)
  else if ← isAtSpecifierWord then
    let token ← current
    next
    return some token.text
  else return none

/-- The qualifier that the current token is, if a type follows it. -/
def qualifierAt : Script (Option Qualifier) := do
  if ← isAt .identifier then
    let token ← current
    if ← isTypeNext then return Qualifier.ofKeyword? token.text else return none
  else return none

/-- Generic arguments, of which the current token opens the list. -/
def genericArguments : Script (List TypeExpr) := do
  let opening ← current
  next
  let arguments ← commaSeparated (· == .greaterThan) (call .type)
  if ← isAt .greaterThan then next
  else reportDelimiter opening.start .unclosedGenericArguments
  return arguments

/-- How many tokens of a label stand in front of a colon here. -/
def labelWidth : Script Nat := do
  if ← isAtName then
    lookahead do
      next
      if ← isAt .colon then return 1
      else if ← isAtName then
        next
        if ← isAt .colon then return 2 else return 0
      else return 0
  else return 0

/-- A label with its colon, if one stands here. -/
def label : Script (Option String) := do
  match ← labelWidth with
  | 0 => return none
  | 1 =>
    let name ← written next
    next
    return some name
  | _ =>
    let name ← written (do next; next)
    next
    return some name

/-- A tuple element or a parameter of a function type. -/
def element : Script (Element TypeExpr) := do
  let name ← label
  let type ← call .type
  let variadic ← isAt .ellipsis
  if variadic then next
  return ⟨name, type, variadic⟩

/-- One effect of a function type, on the line of its parameters. -/
def typeEffect : Script (Option String) := do
  let token ← current
  if token.onNewLine then return none
  else if token.isWord "async" then
    next
    return some "async"
  else if ← isAt (.keyword .throwsEffect) then
    return some (← written (do next; skipAdjacentParen))
  else return none

/-- The effects of a function type. -/
def typeEffects : Script (Option String) := do
  match ← many typeEffect with
  | [] => return none
  | first :: more => return some (String.intercalate " " (first :: more))

/-- A tuple, or a function type whose parameters it lists. -/
def tupleOrFunction : Script TypeExpr := do
  let opening ← current
  next
  let elements ← commaSeparated TypeExpr.endsList element
  close .paren opening.start
  let effects ← typeEffects
  if ← isAt .arrow then
    next
    return .function elements effects (← call .type)
  else
    if effects.isSome then reportHere (.missing .arrow)
    return .tuple elements

/-- A type without suffixes. -/
def primary : Script TypeExpr := do
  let token ← current
  match ← kind with
  | .identifier =>
    next
    if ← look TypeExpr.argumentsFollow then return .generic token.text (← genericArguments)
    else return .named token.text
  | .opening .paren => tupleOrFunction
  | .opening .square | .numericLiteral => return .verbatim (← written skipBalanced)
  | _ =>
    reportHere (.missing .type)
    return .verbatim ""

/-- One suffix of the type `type`, which starts at the cursor `start`. -/
def suffix (start : Cursor) (type : TypeExpr) : Script (Option TypeExpr) := do
  if ← isSeparated then return none
  else
    match ← kind with
    | .dot =>
      next
      if ← isAtName then
        next
        if ← look TypeExpr.argumentsFollow then
          let _ ← genericArguments
        return some (.verbatim (start.writtenSince (← get)))
      else
        reportHere (.missing .memberTypeName)
        return none
    | .question =>
      next
      return some (.optional type)
    | .exclamation =>
      next
      return some (.verbatim (start.writtenSince (← get)))
    | _ => return none

/-- A type with its suffixes. -/
def suffixed : Script TypeExpr := do
  let start ← get
  let type ← primary
  iterate (suffix start) type

/-- One further member of a composition. -/
def composedWith : Script (Option Unit) := do
  if ← isAt .ampersand then
    next
    let _ ← suffixed
    return some ()
  else return none

/-- A type, of which the level is counted already. -/
def level : Script TypeExpr := do
  let start ← get
  let specifiers ← many specifier
  if !specifiers.isEmpty then return .attributed specifiers (← call .type)
  else
    match ← qualifierAt with
    | some q =>
      next
      return .qualified q (← call .type)
    | none =>
      let type ← suffixed
      if ← isAt .ampersand then
        let _ ← many composedWith
        return .verbatim (start.writtenSince (← get))
      else return type

/-! ## Attributes and modifiers -/

/-- One attribute, if one stands here. -/
def attribute? : Script (Option Unit) := do
  if ← isAt .atSign then
    skipAttribute
    return some ()
  else return none

/-- Any attributes. -/
def attributes : Script Unit := do
  let _ ← many attribute?

/-- The current token is a modifier. -/
def isAtModifier : Script Bool := do
  match ← kind with
  | .keyword .staticModifier => return true
  | .keyword .classDecl =>
    lookahead do
      next
      look isModifiedByClass
  | .identifier =>
    if ← look (fun c => modifierWords.contains c.current.text) then
      lookahead do
        next
        skipAdjacentParen
        look isModified
    else return false
  | _ => return false

/-- One attribute or modifier, if one stands here. -/
def modifier : Script (Option Unit) := do
  if ← isAt .atSign then
    skipAttribute
    return some ()
  else if ← isAtModifier then
    next
    skipAdjacentParen
    return some ()
  else return none

/-- Any attributes and modifiers. -/
def modifiers : Script Unit := do
  let _ ← many modifier

/-! ## Lists of declarations -/

/-- The current token is the word `actor` in front of a name on its line. -/
def isAtActor : Script Bool := do
  if ← look (fun c => c.kind == .identifier && c.current.text == "actor") then
    lookahead do
      next
      look fun c => c.kind == .identifier && !c.current.onNewLine
  else return false

/-- A declaration starts here, behind any attributes and modifiers. -/
def isAtDeclaration : Script Bool :=
  lookahead do
    modifiers
    match ← kind with
    | .keyword .protocolDecl | .keyword .classDecl | .keyword .structDecl | .keyword .enumDecl
    | .keyword .extensionDecl | .keyword .varDecl | .keyword .letDecl | .keyword .funcDecl
    | .keyword .initDecl | .keyword .typealiasDecl => return true
    | .identifier => isAtActor
    | _ => return false

/-- Passes over a directive. -/
def skipDirective : Script Unit := do
  match (← current).text with
  | "#if" | "#elseif" =>
    next
    skipUntil (·.current.onNewLine)
  | "#else" | "#endif" => next
  | _ => skipStatement

/-- Reads one declaration by `body`, which stands behind its modifiers. -/
def item (body : Nat → Script (Option α)) : Script (Option α) := do
  if ← isAt .poundKeyword then
    skipDirective
    return none
  else if ← isAtDeclaration then
    let first ← current
    modifiers
    body first.start
  else
    skipStatement
    return none

/-- Runs `p`, and goes on to the next token if it consumed none and there is
one. -/
def advancing (p : Script α) : Script α := do
  let before ← get
  let a ← p
  if ← look (fun c => !(c.remaining < before.remaining) && !(c.kind == .endOfFile)) then next
  return a

/-- The items of a list up to the end of the text or, inside a block, up to
its closing brace. -/
def items (inBlock : Bool) (one : Script (Option α)) : Script (List α) := do
  let found ← collect do
    let k ← kind
    if k == .endOfFile || (inBlock && k == .closing .brace) then return .finished
    else if k == .semicolon then
      next
      return .more none
    else return .more (← advancing one)
  return found.filterMap id

/-! ## Parts of declarations -/

/-- A name without its backticks; `what` is missing if there is none. -/
def nameOf (what : Expectation) : Script String := do
  let token ← current
  if ← isAtName then
    next
    return Name.bare token.text
  else
    reportHere (.missing what)
    return ""

/-- The span from byte `start` through the last consumed token. -/
def spanFrom (start : Nat) : Script Span := look fun c => ⟨start, c.previousStop⟩

/-- A type with its span. -/
def ascription : Script Ascription := do
  let (type, span) ← spanned (call .type)
  return Ascription.ofParsed span type

/-- A type behind the token `k`, if that token stands here. -/
def ascriptionBehind (k : Kind) : Script (Option Ascription) := do
  if ← isAt k then
    next
    return some (← ascription)
  else return none

/-- Passes over a generic clause, if one starts here. -/
def skipGenerics : Script Unit := do
  if ← isAt .lessThan then skipGenericClause else return ()

/-- Passes over a `where` clause, if one starts here. -/
def skipWhere : Script Unit := do
  if ← isAt (.keyword .whereClause) then skipWhereClause else return ()

/-- Passes over generic parameters, inheritance and `where` clauses. -/
def skipHeader : Script Unit := skipUntil fun d => Cursor.endsHeader d.kind

/-! ## Variables -/

/-- The pattern of a binding: a name or a parenthesised pattern. -/
def pattern : Script Unit := do
  if ← isAt (.opening .paren) then skipBalanced
  else if ← isAtName then next
  else reportHere (.missing .pattern)

/-- What the accessor block that starts here holds. -/
def accessorOf : Script Accessor :=
  lookahead do
    next
    attributes
    look fun first =>
      if first.kind == .identifier
          && (first.current.text == "willSet" || first.current.text == "didSet") then .observers
      else .computed

/-- An accessor block, if one stands here. -/
def accessor : Script (Option Accessor) := do
  if ← isAt (.opening .brace) then
    let kind ← accessorOf
    skipBalanced
    return some kind
  else return none

/-- An initial value, if one stands here. -/
def initialValue : Script (Option Span) := do
  if ← isAt .equals then
    next
    let (_, span) ← spanned (skipExpression true)
    return some span
  else return none

/-- One entry of a variable declaration. -/
def binding : Script Binding := do
  let name ← written pattern
  let type ← ascriptionBehind .colon
  let value ← initialValue
  let block ← if value.isNone then accessor else pure none
  return ⟨name, type, value, block⟩

/-- A further entry of a variable declaration, if a comma announces one. -/
def furtherBinding : Script (Option Binding) := do
  if ← isAt .comma then
    next
    return some (← binding)
  else return none

/-- A `var` or `let` whose modifiers start at byte `start`. -/
def variableDecl (start : Nat) : Script VariableDecl := do
  let isLet ← isAt (.keyword .letDecl)
  next
  let first ← binding
  let more ← many furtherBinding
  return ⟨isLet, first :: more, ← spanFrom start⟩

/-! ## Bodies -/

/-- A variable declared in a body. -/
def localVariable : Script (Option VariableDecl) :=
  item fun start => do
    match ← kind with
    | .keyword .varDecl | .keyword .letDecl => return some (← variableDecl start)
    | _ =>
      skipStatement
      return none

/-- A body, whose opening brace stands here. -/
def codeBlock : Script CodeBlock := do
  let opening ← current
  next
  let locals ← items true localVariable
  close .brace opening.start
  return ⟨← spanFrom opening.start, locals⟩

/-- A body, if one stands here. -/
def body : Script (Option CodeBlock) := do
  if ← isAt (.opening .brace) then return some (← codeBlock) else return none

/-! ## Parameters -/

/-- A name as written, if one stands here. -/
def name? : Script (Option String) := do
  let token ← current
  if ← isAtName then
    next
    return some token.text
  else return none

/-- A default value, if one stands here. -/
def defaultValue : Script (Option DefaultValue) := do
  if ← isAt .equals then
    next
    let start ← get
    let (_, span) ← spanned (skipExpression false)
    return some ⟨span, start.writtenSince (← get)⟩
  else return none

/-- One parameter. Without a name and a colon it is passed over. -/
def parameter : Script (Option Parameter) := do
  attributes
  let names ← many name?
  let atColon ← isAt .colon
  if names.isEmpty || !atColon then
    reportHere (.missing .parameterName)
    skipUntil endsParameter
    return none
  else
    next
    let type ← ascription
    let variadic ← isAt .ellipsis
    if variadic then next
    return some ⟨names, type, variadic, ← defaultValue⟩

/-- What separates a parameter from the next. -/
def parameterSeparator : Script Unit := do
  match ← kind with
  | .comma => next
  | .closing .paren => return ()
  | _ =>
    reportHere (.missing .parameterSeparator)
    skipUntil endsParameter
    if ← isAt .comma then next

/-- A parameter clause with its parentheses. -/
def parameterClause : Script (List Parameter) := do
  let opening ← current
  if ← isAt (.opening .paren) then
    next
    let found ← collect do
      if TypeExpr.endsList (← kind) then return .finished
      else
        let p ← parameter
        parameterSeparator
        return .more p
    close .paren opening.start
    return found.filterMap id
  else
    reportHere (.missing .openingParen)
    return []

/-! ## Functions, initializers and aliases -/

/-- One effect of a declared function, if one stands here. -/
def effect : Script (Option Unit) := do
  let token ← current
  match ← kind with
  | .keyword .rethrowsEffect =>
    next
    return some ()
  | .keyword .throwsEffect =>
    next
    skipAdjacentParen
    return some ()
  | .identifier =>
    if token.text == "async" || token.text == "reasync" then
      next
      return some ()
    else return none
  | _ => return none

/-- Passes over the effects of a declared function. -/
def effects : Script Unit := do
  let _ ← many effect

/-- A further token of an operator's name, if one stands here. -/
def operatorPart : Script (Option Unit) := do
  if ← look endsOperatorName then return none
  else
    next
    return some ()

/-- The name of an operator function. -/
def operatorName : Script Unit := do
  match ← kind with
  | .opening .paren | .opening .brace | .endOfFile => reportHere (.missing .functionName)
  | _ =>
    next
    let _ ← many operatorPart

/-- The name of a function. -/
def functionName : Script String := do
  if ← isAtName then nameOf .functionName else written operatorName

/-- A function whose modifiers start at byte `start`. -/
def functionDecl (start : Nat) : Script FunctionDecl := do
  next
  let name ← functionName
  skipGenerics
  let parameters ← parameterClause
  effects
  let result ← ascriptionBehind .arrow
  skipWhere
  let block ← body
  return ⟨name, parameters, result, block, ← spanFrom start⟩

/-- Passes over the mark of a failable initializer. -/
def skipFailureMark : Script Unit := do
  if ← look (fun c =>
      (c.kind == .question || c.kind == .exclamation) && !c.current.isSeparated) then next
  else return ()

/-- An initializer whose modifiers start at byte `start`. -/
def initializerDecl (start : Nat) : Script InitializerDecl := do
  next
  skipFailureMark
  skipGenerics
  let parameters ← parameterClause
  effects
  skipWhere
  let block ← body
  return ⟨parameters, block, ← spanFrom start⟩

/-- An alias whose modifiers start at byte `start`. -/
def aliasDecl (start : Nat) : Script (Option AliasDecl) := do
  next
  let name ← nameOf .aliasName
  skipGenerics
  if ← isAt .equals then
    next
    let target ← ascription
    return some ⟨name, target, ← spanFrom start⟩
  else
    reportHere (.missing .equalsSign)
    skipStatement
    return none

/-! ## Declarations -/

/-- A protocol whose modifiers start at byte `start`. -/
def protocolDecl (start : Nat) : Script Declaration := do
  next
  let name ← nameOf .protocolName
  skipHeader
  let inner ← call .members
  return .protocol name (← spanFrom start) inner

/-- A further part of a dotted name, if one stands here. -/
def dottedPart (name : String) : Script (Option String) := do
  if ← isAt .dot then
    next
    return some (name ++ "." ++ (← nameOf .memberName))
  else return none

/-- Any other type declaration whose modifiers start at byte `start`. -/
def nominalDecl (kind : NominalKind) (start : Nat) : Script Declaration := do
  next
  let first ← nameOf .typeName
  let name ← iterate dottedPart first
  skipHeader
  let inner ← call .members
  return .nominal kind name (← spanFrom start) inner

/-- One declaration. -/
def declaration : Script (Option Declaration) :=
  item fun start => do
    match ← kind with
    | .keyword .varDecl | .keyword .letDecl => return some (.bindings (← variableDecl start))
    | .keyword .protocolDecl => return some (← protocolDecl start)
    | .keyword .classDecl => return some (← nominalDecl .classKind start)
    | .keyword .structDecl => return some (← nominalDecl .structKind start)
    | .keyword .enumDecl => return some (← nominalDecl .enumKind start)
    | .keyword .extensionDecl => return some (← nominalDecl .extensionKind start)
    | .identifier => return some (← nominalDecl .actorKind start)
    | .keyword .funcDecl => return some (.function (← functionDecl start))
    | .keyword .initDecl => return some (.initializer (← initializerDecl start))
    | .keyword .typealiasDecl => return (← aliasDecl start).map Declaration.typeAlias
    | _ =>
      skipStatement
      return none

/-- What stands in a block beyond the limit is passed over. -/
def tooDeep (start : Nat) : Script (List Declaration) := do
  reportDelimiter start .declarationsTooDeep
  skipUntil fun d => d.kind == .closing .brace
  return []

/-! ## Routines -/

/-- One more type is being read while `p` runs. -/
def inType (p : Script α) : Script α := do
  let d ← depths id
  setDepths { d with types := d.types + 1 }
  let a ← p
  let e ← depths id
  setDepths { e with types := e.types - 1 }
  return a

/-- One more block of members is being read while `p` runs. -/
def inBlock (p : Script α) : Script α := do
  let d ← depths id
  setDepths { d with blocks := d.blocks + 1 }
  let a ← p
  let e ← depths id
  setDepths { e with blocks := e.blocks - 1 }
  return a

/-- A type, unless too many types are being read already. -/
def type : Script TypeExpr := do
  if TypeExpr.nestingLimit ≤ (← depths Depths.types) then
    reportHere .typeTooDeep
    return .verbatim ""
  else inType level

/-- A block of members in braces. If too many such blocks are being read, what
it holds is passed over. -/
def members : Script (List Declaration) := do
  let opening ← current
  if ← isAt (.opening .brace) then
    next
    let inner ← inBlock do
      if Declaration.nestingLimit < (← depths Depths.blocks) then tooDeep opening.start
      else items true declaration
    close .brace opening.start
    return inner
  else
    reportHere (.missing .openingBrace)
    return []

/-- A whole file. -/
def file : Script (List Declaration) := items false declaration

end Script

/-- What a call does. -/
def Routine.body {α : Type} : Routine α → Script α
  | .type => Script.type
  | .members => Script.members

end AnySome
