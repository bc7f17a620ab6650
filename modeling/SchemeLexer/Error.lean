/-!
# Error — what can be wrong with a text

An error names its cause; `message` is the one place that words it.
-/
namespace SchemeLexer

inductive ScanError
  | illegalCharacter
  /-- A dot is neither a token of its own nor the start of an identifier or a number. -/
  | invalidAfterDot
  /-- The same of a sign, which the error carries. -/
  | invalidAfterSign (sign : Char)
  /-- A token that has to be followed by a delimiter is not. -/
  | expectedDelimiter
  /-- A backslash in a string or a quoted identifier begins no escape sequence. -/
  | invalidEscape
  | unexpectedEof
  /-- What follows a hash sign and a backslash names no character. -/
  | invalidCharacter
  /-- The word after a hash sign means nothing. -/
  | invalidHashWord
  /-- Nothing begins with a hash sign and this character. -/
  | invalidAfterHash
  | expectedOpenParen
  | invalidDirective
  /-- The markers before a number are repeated or unknown. -/
  | invalidPrefix
  | invalidNumber
  | invalidFraction
  | invalidExponent
  | expectedImaginaryUnit
  deriving Repr, DecidableEq

def ScanError.message : ScanError → String
  | illegalCharacter => "illegal character"
  | invalidAfterDot => "invalid character after '.'"
  | invalidAfterSign sign => s!"invalid character after '{sign}'"
  | expectedDelimiter => "expected delimiter or EOF"
  | invalidEscape => "invalid escape sequence"
  | unexpectedEof => "unexpected EOF"
  | invalidCharacter => "invalid character"
  | invalidHashWord => "invalid # word"
  | invalidAfterHash => "invalid character following #"
  | expectedOpenParen => "expected '('"
  | invalidDirective => "invalid directive"
  | invalidPrefix => "invalid prefix"
  | invalidNumber => "invalid number"
  | invalidFraction => "invalid fraction"
  | invalidExponent => "invalid exponent"
  | expectedImaginaryUnit => "expected i"

end SchemeLexer
