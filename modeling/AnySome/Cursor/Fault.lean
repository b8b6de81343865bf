import AnySome.Token.Kind

/-!
# What can be wrong with a source text

Every problem that reading a source text can find, as a cause. The wording
is in one place, `Fault.message`.
-/

namespace AnySome

/-- Something that must stand at a place and does not. -/
inductive Expectation where
  | expression
  | attributeName
  | memberTypeName
  | type
  | arrow
  | protocolName
  | typeName
  | memberName
  | functionName
  | aliasName
  | pattern
  | parameterName
  | parameterSeparator
  | openingBrace
  | openingParen
  | equalsSign
deriving DecidableEq, Repr

/-- What is expected, in words. -/
def Expectation.phrase : Expectation → String
  | .expression => "expression"
  | .attributeName => "attribute name"
  | .memberTypeName => "member type name"
  | .type => "type"
  | .arrow => "'->'"
  | .protocolName => "protocol name"
  | .typeName => "type name"
  | .memberName => "member name"
  | .functionName => "function name"
  | .aliasName => "type alias name"
  | .pattern => "pattern"
  | .parameterName => "parameter name followed by ':'"
  | .parameterSeparator => "',' or ')'"
  | .openingBrace => "'\x7b'"
  | .openingParen => "'('"
  | .equalsSign => "'='"

/-- A problem with a source text. -/
inductive Fault where
  /-- A string literal has no end. -/
  | unterminatedString
  /-- A regular expression has no end. -/
  | unterminatedRegex
  /-- A backticked name has no end. -/
  | unterminatedName
  /-- A block comment has no end. -/
  | unterminatedComment
  /-- A closing delimiter of the wrong kind. -/
  | mismatched (expected found : Bracket)
  /-- A closing delimiter without an opening one. -/
  | stray (found : Bracket)
  /-- An opening delimiter in skipped text without a closing one. -/
  | unclosed (bracket : Bracket)
  /-- An opening delimiter of a clause without a closing one. -/
  | unmatched (bracket : Bracket)
  /-- `<` of a generic parameter clause without `>`. -/
  | unclosedGenericClause
  /-- `<` of generic arguments without `>`. -/
  | unclosedGenericArguments
  /-- Something else stands where `what` must stand. -/
  | missing (what : Expectation)
  /-- Something stands behind a type that must stand alone. -/
  | trailingToken
  /-- A type nested beyond the limit. -/
  | typeTooDeep
  /-- Declarations nested beyond the limit. -/
  | declarationsTooDeep
deriving DecidableEq, Repr

/-- A delimiter in quotes. -/
private def quoted (delimiter : Char) : String := "'" ++ String.singleton delimiter ++ "'"

/-- The problem in words. -/
def Fault.message : Fault → String
  | .unterminatedString => "unterminated string literal"
  | .unterminatedRegex => "unterminated regex literal"
  | .unterminatedName => "unterminated backticked identifier"
  | .unterminatedComment => "unterminated block comment"
  | .mismatched expected found =>
    quoted expected.closer ++ " expected but found " ++ quoted found.closer
  | .stray found => "unexpected " ++ quoted found.closer
  | .unclosed bracket => quoted bracket.closer ++ " expected to close this delimiter"
  | .unmatched bracket =>
    quoted bracket.closer ++ " expected to match this " ++ quoted bracket.opener
  | .unclosedGenericClause => "'>' expected to close generic clause"
  | .unclosedGenericArguments => "'>' expected to close generic arguments"
  | .missing what => what.phrase ++ " expected"
  | .trailingToken => "unexpected token after type"
  | .typeTooDeep => "type is nested too deeply"
  | .declarationsTooDeep => "declarations are nested too deeply"

/-- The problem of a token whose end, or the end of a comment before it, is
missing. -/
def Fault.ofUnterminated : Kind → Fault
  | .stringLiteral => .unterminatedString
  | .regexLiteral => .unterminatedRegex
  | .identifier => .unterminatedName
  | _ => .unterminatedComment

end AnySome
