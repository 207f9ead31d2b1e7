import Unmarshal.Text.Span

/-!
# Errors of reading a type expression

A reading fails for one of six reasons, at a span of the text. The reasons are data; their wording
is in one place.
-/
namespace Unmarshal.TypeText

/-- What a reader waits for where it can name it. -/
inductive Expectation where
  | type
  | qualifiedName
  | lengthOrBracket
  | closingBracket
  | openingBrace
  | fieldName
  | fieldEnd
  | closingBrace
  | closingParen
deriving DecidableEq, Repr

def Expectation.text : Expectation → String
  | .type => "a type"
  | .qualifiedName => "a qualified type name"
  | .lengthOrBracket => "an array length or `]`"
  | .closingBracket => "`]`"
  | .openingBrace => "`\x7b`"
  | .fieldName => "a field name"
  | .fieldEnd => "`;` or `\x7d`"
  | .closingBrace => "`\x7d`"
  | .closingParen => "`)`"

/-- Why a text is no type expression. -/
inductive Cause where
  | unrecognizedShape (what : String)
  | unexpectedToken (expected : Expectation) (found : String)
  | unexpectedEnd (expected : Expectation)
  | invalidLength (found : String)
  | duplicateField (name : String)
  | trailingInput (rest : String)
deriving DecidableEq, Repr

def Cause.message : Cause → String
  | .unrecognizedShape what => "unrecognized native type: " ++ what
  | .unexpectedToken expected found => "expected " ++ expected.text ++ ", found `" ++ found ++ "`"
  | .unexpectedEnd expected => "expected " ++ expected.text ++ ", found end of input"
  | .invalidLength found => "invalid array length: " ++ found
  | .duplicateField name => "duplicate field `" ++ name ++ "`"
  | .trailingInput rest => "unexpected trailing input `" ++ rest ++ "`"

/-- A cause and the bytes at fault. -/
structure ReadError where
  cause : Cause
  span : Text.Span
deriving DecidableEq, Repr

def ReadError.message (error : ReadError) : String := error.cause.message

end Unmarshal.TypeText
