/-!
# Kinds of tokens

The vocabulary of the reader of Swift source text. Only keywords that start
or shape a declaration have a kind of their own. Contextual words such as
`some`, `any`, `actor`, `get`, `didSet` or `async` are identifiers, and are
recognised by their spelling where they matter.

The three pairs of brackets are one type, `Bracket`, so that an opening and
a closing token of the same pair are matched by equality.

## Main results

* `Keyword.ofSpelling?_spelling` — every keyword is recognised from its own
  spelling.
* `Keyword.spelling_of_ofSpelling?` — and from no other.
-/

namespace AnySome

/-! ## Brackets -/

/-- A pair of delimiters that must nest. -/
inductive Bracket where
  | brace
  | paren
  | square
deriving DecidableEq, Repr

namespace Bracket

/-- The opening delimiter. -/
def opener : Bracket → Char
  | .brace => '{'
  | .paren => '('
  | .square => '['

/-- The closing delimiter. -/
def closer : Bracket → Char
  | .brace => '}'
  | .paren => ')'
  | .square => ']'

end Bracket

/-! ## Keywords -/

/-- A reserved word, named for what it introduces. -/
inductive Keyword where
  | associatedtypeDecl
  | caseDecl
  | classDecl
  | deinitDecl
  | enumDecl
  | extensionDecl
  | funcDecl
  | importDecl
  | initDecl
  | inoutSpecifier
  | letDecl
  | operatorDecl
  | precedencegroupDecl
  | protocolDecl
  | rethrowsEffect
  | staticModifier
  | structDecl
  | subscriptDecl
  | throwsEffect
  | typealiasDecl
  | varDecl
  | whereClause
deriving DecidableEq, Repr

namespace Keyword

/-- How the keyword is written. -/
def spelling : Keyword → String
  | .associatedtypeDecl => "associatedtype"
  | .caseDecl => "case"
  | .classDecl => "class"
  | .deinitDecl => "deinit"
  | .enumDecl => "enum"
  | .extensionDecl => "extension"
  | .funcDecl => "func"
  | .importDecl => "import"
  | .initDecl => "init"
  | .inoutSpecifier => "inout"
  | .letDecl => "let"
  | .operatorDecl => "operator"
  | .precedencegroupDecl => "precedencegroup"
  | .protocolDecl => "protocol"
  | .rethrowsEffect => "rethrows"
  | .staticModifier => "static"
  | .structDecl => "struct"
  | .subscriptDecl => "subscript"
  | .throwsEffect => "throws"
  | .typealiasDecl => "typealias"
  | .varDecl => "var"
  | .whereClause => "where"

/-- Every keyword. -/
def all : List Keyword :=
  [.associatedtypeDecl, .caseDecl, .classDecl, .deinitDecl, .enumDecl, .extensionDecl,
    .funcDecl, .importDecl, .initDecl, .inoutSpecifier, .letDecl, .operatorDecl,
    .precedencegroupDecl, .protocolDecl, .rethrowsEffect, .staticModifier, .structDecl,
    .subscriptDecl, .throwsEffect, .typealiasDecl, .varDecl, .whereClause]

/-- The keyword written as `text`, if there is one. -/
def ofSpelling? (text : String) : Option Keyword :=
  all.find? (fun k => k.spelling == text)

/-- Every keyword is recognised from its own spelling. -/
@[simp] theorem ofSpelling?_spelling (k : Keyword) : ofSpelling? k.spelling = some k := by
  cases k <;> decide +kernel

/-- Only a keyword's own spelling is recognised as that keyword. -/
theorem spelling_of_ofSpelling? {text : String} {k : Keyword}
    (h : ofSpelling? text = some k) : k.spelling = text := by
  have := List.find?_some h
  simpa using this

end Keyword

/-! ## Token kinds -/

/-- What a token is. -/
inductive Kind where
  /-- A character that starts no token. -/
  | unknown
  /-- The end of the text. -/
  | endOfFile
  /-- A plain or backticked name. -/
  | identifier
  /-- A string literal, interpolations included. -/
  | stringLiteral
  /-- A number in any base. -/
  | numericLiteral
  /-- An extended regular expression literal. -/
  | regexLiteral
  /-- A directive word such as `#if` or `#selector`. -/
  | poundKeyword
  /-- An opening delimiter. -/
  | opening (bracket : Bracket)
  /-- A closing delimiter. -/
  | closing (bracket : Bracket)
  /-- `<` -/
  | lessThan
  /-- `>` -/
  | greaterThan
  /-- `,` -/
  | comma
  /-- `:` -/
  | colon
  /-- `;` -/
  | semicolon
  /-- `.` -/
  | dot
  /-- `...` -/
  | ellipsis
  /-- `?` -/
  | question
  /-- `!` -/
  | exclamation
  /-- `=` -/
  | equals
  /-- `&` -/
  | ampersand
  /-- `@` -/
  | atSign
  /-- `->` -/
  | arrow
  /-- Any other single operator character. -/
  | operatorSign
  /-- A reserved word. -/
  | keyword (word : Keyword)
deriving DecidableEq, Repr

namespace Kind

/-- A reserved word. -/
def isKeyword : Kind → Bool
  | .keyword _ => true
  | _ => false

/-- An opening delimiter. -/
def isOpening : Kind → Bool
  | .opening _ => true
  | _ => false

/-- A closing delimiter. -/
def isClosing : Kind → Bool
  | .closing _ => true
  | _ => false

/-- The delimiter that closes this one. -/
def closing? : Kind → Option Kind
  | .opening b => some (.closing b)
  | _ => none

/-- An identifier or a reserved word: what may serve as a name. -/
def isName : Kind → Bool
  | .identifier => true
  | .keyword _ => true
  | _ => false

/-- The kind of a word: reserved, or a plain identifier. -/
def ofWord (text : String) : Kind :=
  match Keyword.ofSpelling? text with
  | some k => .keyword k
  | none => .identifier

end Kind

end AnySome
