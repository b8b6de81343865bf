import AnySome.Token.Kind
import AnySome.Token.Trivia

/-!
# Tokens

A token is a stretch of source text together with the gap in front of it.
The gaps and texts of all tokens, in order, are the source text, so a token
list loses nothing. What a reader of tokens asks about the gap are two
questions: is the token on a new line, and is it separated at all.

A token is *unterminated* when its literal or backticked name has no end, or
when a block comment in its gap has none. Nothing but the end of the text can
follow an unclosed block comment.
-/

namespace AnySome

/-- A stretch of source text with the gap in front of it. -/
structure Token where
  /-- What separates the token from the one before. -/
  gap : List Trivia
  kind : Kind
  text : String
  /-- Byte offset of the text. -/
  start : Nat
  /-- The end of the literal or backticked name was found. -/
  closed : Bool
deriving DecidableEq, Repr

namespace Token

/-- Byte offset of the token's end. -/
def stop (t : Token) : Nat := t.start + Text.byteLength t.text.toList

/-- The token is separated from the one before. -/
def isSeparated (t : Token) : Bool := !t.gap.isEmpty

/-- A line break stands between the token and the one before. -/
def onNewLine (t : Token) : Bool := t.gap.any Trivia.breaksLine

/-- The end of the token, or of a comment before it, is missing. -/
def isUnterminated (t : Token) : Bool := !t.closed || t.gap.any Trivia.isUnclosed

/-- The characters of the gap in front of the token. -/
def gapChars (t : Token) : List Char := t.gap.flatMap Trivia.chars

/-- The gap and the text of the token. -/
def fullChars (t : Token) : List Char := t.gapChars ++ t.text.toList

/-- The token is the given word, used as a name. -/
def isWord (t : Token) (word : String) : Bool := t.kind == .identifier && t.text == word

/-- The text of consecutive tokens as written: gaps inside are kept, the gap
in front of the first is not. -/
def written : List Token → String
  | [] => ""
  | t :: ts => t.text ++ String.ofList (ts.flatMap fullChars)

end Token

end AnySome
