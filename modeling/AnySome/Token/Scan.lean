import AnySome.Token.Basic
import AnySome.Token.Literal

/-!
# Reading tokens

A text is read from left to right. At each place the gap is skipped, and the
first character behind it decides what kind of token stands there and how far
it reaches. A byte order mark at the very start of a text belongs to nothing.

Characters outside ASCII are part of names, and every decision is made on
ASCII characters. So it makes no difference that a scanner of UTF-8 steps over
bytes: the bytes of a character outside ASCII are `0x80` or greater, no ASCII
character is among them, and a character step of this reader stands for byte
steps that end at the same place.

* A name takes every byte from `0x80` up, and with it all bytes of a
  character outside ASCII.
* A backticked name, a regular expression and a comment are searched for a
  quote, a slash, a marker or a line feed, which are ASCII. The bytes in
  between are passed one by one.
* An escape in a string literal takes one byte behind the backslash and its
  signs. That may be the first byte of a character, whose other bytes are then
  passed as ordinary ones; here the escape takes the character at once.

So no token ends inside a character, and read byte by byte a text has the same
tokens in the same places (`TokenStream.scanFrom_utf8`,
`TokenStream.start_eq_length`).

Every token but the last takes at least the character it was recognised by,
which is why reading a text ends.

## Main results

* `Trivia.gap_append` — a gap and what follows it are the text.
* `Token.fullChars_append_of_step_found` — a token with its gap, and what
  follows it, are the text.
* `Token.length_lt_of_step_found` — reading a token leaves less to read.
* `TokenStream.flatMap_fullChars_scanFrom` — the tokens with their gaps are
  the text.
-/

namespace AnySome

/-- What stands at a place: a kind, a number of characters, and whether the
end was found. -/
structure Lexeme where
  kind : Kind
  length : Nat
  closed : Bool
deriving DecidableEq, Repr

namespace Lexeme

/-! ## Names -/

/-- A character that may start a name. -/
def isNameStart (c : Char) : Bool := c.isAlpha || c == '_' || c == '$' || 0x80 ≤ c.toNat

/-- A character that may continue a name. -/
def isNamePart (c : Char) : Bool := c.isAlphanum || c == '_' || c == '$' || 0x80 ≤ c.toNat

/-- How many characters of `cs` continue a name. -/
def nameLength (cs : List Char) : Nat := (cs.takeWhile isNamePart).length

/-- A name or a reserved word that starts with `c`. -/
def word (c : Char) (cs : List Char) : Lexeme :=
  let name := c :: cs.takeWhile isNamePart
  ⟨Kind.ofWord (String.ofList name), name.length, true⟩

/-- The name between backticks of which `cs` follows the first: it ends with
its line at the latest. -/
def backticked (cs : List Char) : Lexeme :=
  let body := (cs.takeWhile (fun c => c != '\x60' && c != '\n')).length
  match cs.drop body with
  | '\x60' :: _ => ⟨.identifier, body + 2, true⟩
  | _ => ⟨.identifier, body + 1, false⟩

/-! ## Single characters -/

/-- The token of exactly one character. -/
def single (kind : Kind) : Lexeme := ⟨kind, 1, true⟩

/-- The kind of a punctuation character that is always a token of its own. -/
def punctuation? : Char → Option Kind
  | '{' => some (.opening .brace)
  | '}' => some (.closing .brace)
  | '(' => some (.opening .paren)
  | ')' => some (.closing .paren)
  | '[' => some (.opening .square)
  | ']' => some (.closing .square)
  | '<' => some .lessThan
  | '>' => some .greaterThan
  | ',' => some .comma
  | ':' => some .colon
  | ';' => some .semicolon
  | '?' => some .question
  | '!' => some .exclamation
  | '=' => some .equals
  | '&' => some .ampersand
  | '@' => some .atSign
  | _ => none

/-- An operator character that is a token of its own. -/
def isOperatorSign (c : Char) : Bool :=
  c == '+' || c == '-' || c == '*' || c == '/' || c == '%' || c == '|' || c == '^' || c == '~'

/-! ## The token at a place -/

/-- What a `#` before `cs` starts: a raw string, a regular expression or a
directive word. -/
def pound (cs : List Char) : Lexeme :=
  let count := Literal.hashes cs + 1
  match cs.drop (count - 1) with
  | '"' :: tail =>
    let extent := Literal.stringExtent count ('"' :: tail)
    ⟨.stringLiteral, extent.length, extent.closed⟩
  | '/' :: tail =>
    let extent := Literal.regexExtent count ('/' :: tail)
    ⟨.regexLiteral, extent.length, extent.closed⟩
  | d :: _ =>
    if count = 1 ∧ (d.isAlpha || d == '_') then ⟨.poundKeyword, nameLength cs + 1, true⟩
    else single .unknown
  | [] => single .unknown

/-- What the characters `c :: cs`, which start no gap, start with. -/
def scan (c : Char) (cs : List Char) : Lexeme :=
  match punctuation? c with
  | some kind => single kind
  | none =>
    if c = '-' ∧ cs.head? = some '>' then ⟨.arrow, 2, true⟩
    else if c = '.' then
      match cs with
      | '.' :: '.' :: _ => ⟨.ellipsis, 3, true⟩
      | _ => single .dot
    else if c = '"' then
      let extent := Literal.stringExtent 0 (c :: cs)
      ⟨.stringLiteral, extent.length, extent.closed⟩
    else if c = '#' then pound cs
    else if c = '\x60' then backticked cs
    else if c.isDigit then ⟨.numericLiteral, Literal.numberLength c cs + 1, true⟩
    else if isOperatorSign c then single .operatorSign
    else if isNameStart c then word c cs
    else single .unknown

end Lexeme

/-! ## Reading one token -/

/-- A gap and what follows it are the text. -/
theorem Trivia.gap_append (cs : List Char) :
    (Trivia.gap cs).1.flatMap Trivia.chars ++ (Trivia.gap cs).2 = cs := by
  fun_induction Trivia.gap cs with
  | case1 cs h => simp
  | case2 cs t h ts rest heq ih =>
    rw [heq] at ih
    simp only [List.flatMap_cons, List.append_assoc]
    rw [ih]
    exact Trivia.chars_append_drop h

namespace Token

/-- The token that ends every text, behind `gap`. -/
def endOfText (gap : List Trivia) (start : Nat) : Token := ⟨gap, .endOfFile, "", start, true⟩

/-- What reading at a place finds. -/
inductive Step where
  /-- The end of the text. -/
  | finish (last : Token)
  /-- A token, and what follows it. -/
  | found (token : Token) (rest : List Char)
deriving DecidableEq, Repr

/-- The token recognised by `c`, at byte `start` behind `gap`. -/
def ofLexeme (gap : List Trivia) (start : Nat) (lexeme : Lexeme) (c : Char)
    (tail : List Char) : Token :=
  ⟨gap, lexeme.kind, String.ofList (c :: tail.take (lexeme.length - 1)), start, lexeme.closed⟩

/-- Reads the token at byte `start` behind `gap`. -/
def behind (gap : List Trivia) (start : Nat) : List Char → Step
  | [] => .finish (endOfText gap start)
  | c :: tail =>
    let lexeme := Lexeme.scan c tail
    .found (ofLexeme gap start lexeme c tail) (tail.drop (lexeme.length - 1))

/-- Reads the token at the front of `cs`, which starts at byte `offset`. -/
def step (offset : Nat) (cs : List Char) : Step :=
  let split := Trivia.gap cs
  behind split.1 (offset + Text.byteLength (split.1.flatMap Trivia.chars)) split.2

/-- The last token's gap is all that is left of the text. -/
theorem gapChars_of_step_finish {offset : Nat} {cs : List Char} {last : Token}
    (h : step offset cs = .finish last) : last.gapChars = cs := by
  have happ := Trivia.gap_append cs
  unfold step behind at h
  simp only at h
  split at h
  next heq => cases h; simpa [gapChars, endOfText, heq] using happ
  · contradiction

/-- The last token has no text of its own. -/
theorem text_of_step_finish {offset : Nat} {cs : List Char} {last : Token}
    (h : step offset cs = .finish last) : last.text = "" := by
  unfold step behind at h
  simp only at h
  split at h
  · cases h; rfl
  · contradiction

/-- A token with its gap, and what follows it, are the text. -/
theorem fullChars_append_of_step_found {offset : Nat} {cs rest : List Char} {token : Token}
    (h : step offset cs = .found token rest) : token.fullChars ++ rest = cs := by
  have happ := Trivia.gap_append cs
  unfold step behind at h
  simp only at h
  split at h
  · contradiction
  next heq => cases h; simpa [fullChars, gapChars, ofLexeme, heq] using happ

/-- A token has at least one character. -/
theorem text_ne_nil_of_step_found {offset : Nat} {cs rest : List Char} {token : Token}
    (h : step offset cs = .found token rest) : token.text.toList ≠ [] := by
  unfold step behind at h
  simp only at h
  split at h
  · contradiction
  · cases h; simp [ofLexeme]

/-- Reading a token leaves less to read. -/
theorem length_lt_of_step_found {offset : Nat} {cs rest : List Char} {token : Token}
    (h : step offset cs = .found token rest) : rest.length < cs.length := by
  have happ := congrArg List.length (fullChars_append_of_step_found h)
  have hpos := List.length_pos_iff.mpr (text_ne_nil_of_step_found h)
  simp only [fullChars, List.length_append] at happ
  omega

end Token

/-! ## Reading a text -/

/-- The tokens of a text: those in front of its end, and the empty token at
its end, which carries the last gap. -/
structure TokenStream where
  pending : List Token
  final : Token
deriving DecidableEq, Repr

namespace TokenStream

/-- All tokens of `cs`, which starts at byte `offset`. -/
def scanFrom (offset : Nat) (cs : List Char) : TokenStream :=
  match _h : Token.step offset cs with
  | .finish last => ⟨[], last⟩
  | .found token rest =>
    let stream := scanFrom token.stop rest
    ⟨token :: stream.pending, stream.final⟩
termination_by cs.length
decreasing_by exact Token.length_lt_of_step_found _h

/-- The characters of `text` that are read, and the offset of the first: a
byte order mark at the start is left out. -/
def body (text : String) : Nat × List Char :=
  match text.toList with
  | '\ufeff' :: cs => (3, cs)
  | cs => (0, cs)

/-- All tokens of a text. -/
def scan (text : String) : TokenStream := scanFrom (body text).1 (body text).2

/-- The tokens in order, the one at the end of the text included. -/
def toList (s : TokenStream) : List Token := s.pending ++ [s.final]

/-- The tokens with their gaps, in order, are the text. -/
theorem flatMap_fullChars_scanFrom (offset : Nat) (cs : List Char) :
    (scanFrom offset cs).toList.flatMap Token.fullChars = cs := by
  fun_induction scanFrom offset cs with
  | case1 offset cs last h =>
    have hgap := Token.gapChars_of_step_finish h
    have htext := Token.text_of_step_finish h
    simp [toList, Token.fullChars, hgap, htext]
  | case2 offset cs token rest h stream ih =>
    have happ := Token.fullChars_append_of_step_found h
    simpa [toList, ← happ] using ih

end TokenStream

/-! ## Reading step by step -/

/-- A place in a text: the token read last, and what is left to read. A
saved place is just an earlier value. -/
structure Reader where
  token : Token
  rest : List Char
deriving DecidableEq, Repr

namespace Reader

/-- The start of a text, where no token has been read. -/
def start (text : String) : Reader :=
  ⟨⟨[], .unknown, "", (TokenStream.body text).1, true⟩, (TokenStream.body text).2⟩

/-- Reads one token. At the end of the text that is the empty token, again
and again. -/
def next (r : Reader) : Reader :=
  match Token.step r.token.stop r.rest with
  | .finish last => ⟨last, []⟩
  | .found token rest => ⟨token, rest⟩

end Reader

end AnySome
