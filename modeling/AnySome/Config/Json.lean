/-!
# JSON values

A reader for JSON. A string is kept as the pieces it was written with: a code
unit written as an escape may be half of a surrogate pair, so whether a
string stands for a text is a question of its own (`JsonString.decode?`), which
is asked only of strings that matter.

Numbers are checked and then forgotten: no setting is a number.
-/

namespace AnySome

/-! ## Strings -/

/-- A piece of a string. -/
inductive JsonPiece where
  /-- A character, plain or by a short escape. -/
  | char (c : Char)
  /-- A UTF-16 code unit, by a numeric escape. -/
  | unit (code : Nat)
deriving DecidableEq, Repr

/-- A string as it was written. -/
abbrev JsonString := List JsonPiece

namespace JsonString

/-- A code unit that begins a surrogate pair. -/
def isHighSurrogate (code : Nat) : Bool := 0xd800 ≤ code && code < 0xdc00

/-- A code unit that ends a surrogate pair. -/
def isLowSurrogate (code : Nat) : Bool := 0xdc00 ≤ code && code < 0xe000

/-- The character of a surrogate pair. -/
def ofSurrogates (high low : Nat) : Char :=
  Char.ofNat (0x10000 + (high - 0xd800) * 0x400 + (low - 0xdc00))

/-- The characters of a string; none if half of a surrogate pair stands alone. -/
def decodeChars? : JsonString → Option (List Char)
  | [] => some []
  | .char c :: ps => (decodeChars? ps).map (c :: ·)
  | .unit high :: .unit low :: ps =>
    if isHighSurrogate high then
      if isLowSurrogate low then (decodeChars? ps).map (ofSurrogates high low :: ·) else none
    else if isLowSurrogate high then none
    else (decodeChars? (.unit low :: ps)).map (Char.ofNat high :: ·)
  | .unit code :: ps =>
    if isHighSurrogate code || isLowSurrogate code then none
    else (decodeChars? ps).map (Char.ofNat code :: ·)

/-- The text of a string; none if half of a surrogate pair stands alone. -/
def decode? (s : JsonString) : Option String := (decodeChars? s).map String.ofList

end JsonString

/-! ## Values -/

/-- A JSON value. -/
inductive JsonValue where
  | null
  | bool (value : Bool)
  | number
  | string (pieces : JsonString)
  | array (items : List JsonValue)
  | object (members : List (JsonString × JsonValue))

namespace JsonValue

/-! ## Reading leaves -/

/-- A character that may stand between tokens. -/
def isSpace (c : Char) : Bool := c == ' ' || c == '\t' || c == '\n' || c == '\r'

/-- The text behind any white space. -/
def skipSpace (cs : List Char) : List Char := cs.dropWhile isSpace

/-- The value of a hexadecimal digit. -/
def hexDigit? (c : Char) : Option Nat :=
  if '0' ≤ c ∧ c ≤ '9' then some (c.toNat - '0'.toNat)
  else if 'a' ≤ c ∧ c ≤ 'f' then some (c.toNat - 'a'.toNat + 10)
  else if 'A' ≤ c ∧ c ≤ 'F' then some (c.toNat - 'A'.toNat + 10)
  else none

/-- The code unit of four hexadecimal digits. -/
def codeUnit? (a b c d : Char) : Option Nat := do
  return (← hexDigit? a) * 0x1000 + (← hexDigit? b) * 0x100 + (← hexDigit? c) * 0x10
    + (← hexDigit? d)

/-- The character of a short escape. -/
def shortEscape? : Char → Option Char
  | '"' => some '"'
  | '\\' => some '\\'
  | '/' => some '/'
  | 'b' => some '\x08'
  | 'f' => some '\x0c'
  | 'n' => some '\n'
  | 'r' => some '\r'
  | 't' => some '\t'
  | _ => none

/-- Reads a string behind its opening quote. Control characters have to be
escaped. -/
def readString? : List Char → Option (JsonString × List Char)
  | [] => none
  | '"' :: cs => some ([], cs)
  | '\\' :: 'u' :: a :: b :: c :: d :: cs => do
    let code ← codeUnit? a b c d
    let (pieces, rest) ← readString? cs
    return (.unit code :: pieces, rest)
  | '\\' :: e :: cs => do
    let c ← shortEscape? e
    let (pieces, rest) ← readString? cs
    return (.char c :: pieces, rest)
  | '\\' :: [] => none
  | c :: cs =>
    if c.toNat < 0x20 then none
    else do
      let (pieces, rest) ← readString? cs
      return (.char c :: pieces, rest)

/-- The text behind one or more digits. -/
def skipDigits? (cs : List Char) : Option (List Char) :=
  match cs with
  | c :: rest => if c.isDigit then some (rest.dropWhile Char.isDigit) else none
  | [] => none

/-- The text behind the fraction of a number, if there is one. -/
def skipFraction? : List Char → Option (List Char)
  | '.' :: cs => skipDigits? cs
  | cs => some cs

/-- The text behind the exponent of a number, if there is one. -/
def skipExponent? : List Char → Option (List Char)
  | c :: cs =>
    if c = 'e' ∨ c = 'E' then
      match cs with
      | '+' :: ds => skipDigits? ds
      | '-' :: ds => skipDigits? ds
      | ds => skipDigits? ds
    else some (c :: cs)
  | [] => some []

/-- The text behind the whole part of a number, which has no spare zeros. -/
def skipWhole? : List Char → Option (List Char)
  | '0' :: c :: cs => if c.isDigit then none else some (c :: cs)
  | ['0'] => some []
  | cs => skipDigits? cs

/-- The text behind a number. -/
def skipNumber? (cs : List Char) : Option (List Char) := do
  let unsigned := match cs with
    | '-' :: rest => rest
    | rest => rest
  skipExponent? (← skipFraction? (← skipWhole? unsigned))

/-! ## Reading values -/

mutual
/-- Reads a value. -/
def read? : (fuel : Nat) → List Char → Option (JsonValue × List Char)
  | 0, _ => none
  | fuel + 1, cs =>
    match skipSpace cs with
    | 'n' :: 'u' :: 'l' :: 'l' :: rest => some (.null, rest)
    | 't' :: 'r' :: 'u' :: 'e' :: rest => some (.bool true, rest)
    | 'f' :: 'a' :: 'l' :: 's' :: 'e' :: rest => some (.bool false, rest)
    | '"' :: rest => (readString? rest).map fun (s, after) => (.string s, after)
    | '[' :: rest =>
      match skipSpace rest with
      | ']' :: after => some (.array [], after)
      | _ => (readItems? fuel rest).map fun (items, after) => (.array items, after)
    | '{' :: rest =>
      match skipSpace rest with
      | '}' :: after => some (.object [], after)
      | _ => (readMembers? fuel rest).map fun (members, after) => (.object members, after)
    | rest => (skipNumber? rest).map fun after => (.number, after)

/-- Reads one or more items of a list and its end. -/
def readItems? : (fuel : Nat) → List Char → Option (List JsonValue × List Char)
  | 0, _ => none
  | fuel + 1, cs => do
    let (item, rest) ← read? fuel cs
    match skipSpace rest with
    | ',' :: more =>
      let (items, after) ← readItems? fuel more
      return (item :: items, after)
    | ']' :: after => return ([item], after)
    | _ => none

/-- Reads one or more members of an object and its end. -/
def readMembers? : (fuel : Nat) → List Char → Option (List (JsonString × JsonValue) × List Char)
  | 0, _ => none
  | fuel + 1, cs => do
    match skipSpace cs with
    | '"' :: quoted =>
      let (key, rest) ← readString? quoted
      match skipSpace rest with
      | ':' :: valueText =>
        let (value, rest) ← read? fuel valueText
        match skipSpace rest with
        | ',' :: more =>
          let (members, after) ← readMembers? fuel more
          return ((key, value) :: members, after)
        | '}' :: after => return ([(key, value)], after)
        | _ => none
      | _ => none
    | _ => none
end

/-- Reads a text that is one value and nothing else. Every level of nesting
takes a character and two units of fuel. -/
def parse? (cs : List Char) : Option JsonValue := do
  let (value, rest) ← read? (2 * cs.length + 2) cs
  if (skipSpace rest).isEmpty then some value else none

end JsonValue

end AnySome
