import SchemeLexer.Text.Unprintable
/-!
# Quoted — text between quotes, on one line and in visible characters

A quoted text stands between two quotes.  The quote itself and the backslash are written after a backslash, NUL, tab,
carriage return and newline as `\0`, `\t`, `\r` and `\n`, every other unprintable character as its code point in
hexadecimal between braces after `\u`, and all the rest as itself.  So a text has one written form, and two texts never
share one.
-/
namespace SchemeLexer
namespace Quoted

/-- The code point of a character, in as few hexadecimal digits as it needs. -/
def codePoint (c : Char) : List Char := Nat.toDigits 16 c.toNat

/-- A character as written between quotes `q`. -/
def escape (q c : Char) : List Char :=
  if c = '\x00' then ['\\', '0']
  else if c = '\t' then ['\\', 't']
  else if c = '\r' then ['\\', 'r']
  else if c = '\n' then ['\\', 'n']
  else if c = '\\' ∨ c = q then ['\\', c]
  else if isUnprintable c then ['\\', 'u', '\x7b'] ++ codePoint c ++ ['\x7d']
  else [c]

/-- A text between quotes `q`. -/
def encode (q : Char) (cs : List Char) : List Char := q :: cs.flatMap (escape q) ++ [q]

def string (cs : List Char) : String := String.ofList (encode '"' cs)

def char (c : Char) : String := String.ofList (encode '\x27' [c])

end Quoted
end SchemeLexer
