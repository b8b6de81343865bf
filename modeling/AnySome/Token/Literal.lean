import AnySome.Token.Trivia

/-!
# String, regular expression and numeric literals

How far a literal reaches. A string literal may hold interpolations, an
interpolation may hold further string literals, and each literal has its own
number of `#` signs, which its escapes and its end must repeat. That is a
pushdown automaton: its stack lists the literals and parentheses that are
open, innermost first, and each move consumes at least one character.

A one-line literal that meets the end of its line stops the whole automaton
there, however deep it is nested; so does the end of the text.

`stringExtent` runs the automaton from an opening quote. Every move but the
last consumes the character it was given, so the run ends.

A scanner of UTF-8 moves by bytes. It has the same moves on ASCII characters,
which are one byte each. On the bytes of any other character it has the
default move of whatever is innermost, byte by byte, and is left with the same
stack as by the one move here. Only an escape consumes a character that is not
looked at: a byte scanner takes its first byte there, and the others by
default. A regular expression takes the bytes of such a character one by one
as well, and a number ends before it. `Literal.run_write` says so for the
automaton, in the coding `Text.utf8`.
-/

namespace AnySome.Literal

/-! ## Hash runs and quotes -/

/-- How many `#` signs `cs` starts with. -/
def hashes (cs : List Char) : Nat := (cs.takeWhile (· == '#')).length

/-- `cs` starts with three quotes. -/
def startsWithTripleQuote : List Char → Bool
  | '"' :: '"' :: '"' :: _ => true
  | _ => false

/-! ## The automaton -/

/-- Something that is open inside a string literal. -/
inductive Frame where
  /-- A literal with its number of `#` signs; `multiline` if it opened with three quotes. -/
  | quoted (hashes : Nat) (multiline : Bool)
  /-- A parenthesis of an interpolation. -/
  | group
deriving DecidableEq, Repr

/-- What the automaton does with the character it looks at. -/
inductive Move where
  /-- A one-line literal has run into the end of its line. -/
  | stop
  /-- Consume the character and `extra` more, and go on with `stack` open. -/
  | next (extra : Nat) (stack : List Frame)
deriving DecidableEq, Repr

/-- The frame of a literal whose quotes start at `cs`, and how many quotes it
opens with. -/
def opening (count : Nat) (cs : List Char) : Frame × Nat :=
  if startsWithTripleQuote cs then (.quoted count true, 3) else (.quoted count false, 1)

/-- The move inside a literal, when `c` is met before `rest`. -/
def quotedMove (count : Nat) (multiline : Bool) (outer : List Frame)
    (c : Char) (rest : List Char) : Move :=
  let stay := Frame.quoted count multiline :: outer
  if c = '\\' ∧ count ≤ hashes rest then
    match rest.drop count with
    | [] => .next count stay
    | '(' :: _ => .next (count + 1) (.group :: stay)
    | _ :: _ => .next (count + 1) stay
  else if c = '"' then
    if multiline then
      if startsWithTripleQuote (c :: rest) ∧ count ≤ hashes (rest.drop 2) then
        .next (2 + count) outer
      else .next 0 stay
    else if count ≤ hashes rest then .next count outer
    else .next 0 stay
  else if Trivia.isLineBreak c ∧ !multiline then .stop
  else .next 0 stay

/-- The move inside an interpolation, when `c` is met before `rest`. -/
def groupMove (outer : List Frame) (c : Char) (rest : List Char) : Move :=
  let stay := Frame.group :: outer
  if c = '(' then .next 0 (.group :: stay)
  else if c = ')' then .next 0 outer
  else if c = '"' then
    let (frame, quotes) := opening 0 (c :: rest)
    .next (quotes - 1) (frame :: stay)
  else if c = '#' then
    let more := hashes rest
    match rest.drop more with
    | '"' :: tail =>
      let (frame, quotes) := opening (more + 1) ('"' :: tail)
      .next (more + quotes) (frame :: stay)
    | _ => .next more stay
  else .next 0 stay

/-- The move with `frame` innermost. -/
def move (frame : Frame) (outer : List Frame) (c : Char) (rest : List Char) : Move :=
  match frame with
  | .quoted count multiline => quotedMove count multiline outer c rest
  | .group => groupMove outer c rest

/-- Runs the automaton with `stack` open and `seen` characters consumed: the
literal is closed once nothing is open. -/
def run (stack : List Frame) (seen : Nat) (cs : List Char) : Extent :=
  match stack, cs with
  | [], _ => ⟨seen, true⟩
  | _ :: _, [] => ⟨seen, false⟩
  | frame :: outer, c :: rest =>
    match move frame outer c rest with
    | .stop => ⟨seen, false⟩
    | .next extra stack' => run stack' (seen + 1 + extra) (rest.drop extra)
termination_by cs.length
decreasing_by
  simp only [List.length_drop, List.length_cons]
  omega

/-- How far a string literal reaches that has `count` signs `#` in front of
the quotes at which `cs` starts. The signs are counted in. -/
def stringExtent (count : Nat) (cs : List Char) : Extent :=
  let (frame, quotes) := opening count cs
  run [frame] (count + quotes) (cs.drop quotes)

/-! ## Regular expressions -/

/-- How far an extended regular expression reaches, `seen` characters of
which are known: up to a slash followed by `count` signs `#`. -/
def regexRun (count seen : Nat) : List Char → Extent
  | [] => ⟨seen, false⟩
  | c :: cs =>
    if c = '/' ∧ count ≤ hashes cs then ⟨seen + 1 + count, true⟩
    else regexRun count (seen + 1) cs

/-- How far an extended regular expression reaches that has `count` signs `#`
in front of the slash at which `cs` starts. The signs are counted in. -/
def regexExtent (count : Nat) (cs : List Char) : Extent :=
  regexRun count (count + 1) (cs.drop 1)

/-! ## Numbers -/

/-- A letter after which a sign belongs to the number's exponent. -/
def isExponentMark (c : Char) : Bool := c == 'e' || c == 'E' || c == 'p' || c == 'P'

/-- The text starts with a decimal digit. -/
def startsWithDigit : List Char → Bool
  | c :: _ => c.isDigit
  | [] => false

/-- How many characters of `cs` continue a number whose last character so far
is `last`: letters, digits, underscores, the sign of an exponent, and a point
before a digit. -/
def numberLength (last : Char) : List Char → Nat
  | [] => 0
  | c :: cs =>
    if c.isAlphanum || c == '_' || ((c == '+' || c == '-') && isExponentMark last)
        || (c == '.' && startsWithDigit cs) then
      numberLength c cs + 1
    else 0

end AnySome.Literal
