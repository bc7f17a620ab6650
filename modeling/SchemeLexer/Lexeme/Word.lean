import SchemeLexer.Lexeme
import SchemeLexer.Number.Complex
/-!
# Word — identifiers, numbers, and the dot

An identifier begins with an initial and goes on with subsequents.  A dot or a sign begins an identifier too when what
follows could not make a number of it, and a number otherwise; by itself a dot is a token of its own and a sign an
identifier.

An identifier that begins with a sign is read to its end before it is looked at: five words, those of the infinities,
the values that are no number and the imaginary unit, are numbers after all.
-/
namespace SchemeLexer
namespace Lexeme

/-- The number of radix ten at the head of a text. -/
def number (cs : List Char) : Lexeme := ofReading .number true (Number.complex .decimal cs)

/-- An identifier of which `n` characters are read, those ahead being the rest. -/
def identifier (n : Nat) (cs : List Char) : Lexeme := word .identifier (n + Text.run isSubsequent cs)

/-- What makes a number of a sign before it. -/
def signedNumbers : List (List Char) :=
  [['i'], Number.infinity, Number.notANumber, Number.infinity ++ ['i'], Number.notANumber ++ ['i']]

def isSignedNumber (w : List Char) : Bool := signedNumbers.any (Caseless.sameWord w)

def dot : List Char → Lexeme
  | [] => closed .dot 1
  | c :: cs =>
    if isDelimiter c then closed .dot 1
    else if isDotSubsequent c then identifier 2 cs
    else if isDigit c then number ('.' :: c :: cs)
    else .invalid .invalidAfterDot 2

def signDot (sign : Char) : List Char → Lexeme
  | [] => .invalid .invalidAfterDot 2
  | c :: cs =>
    if isDigit c then number (sign :: '.' :: c :: cs)
    else if isDotSubsequent c then identifier 3 cs
    else .invalid .invalidAfterDot 3

/-- A word behind a sign, known not to begin a number by its first character. -/
def signedWord (cs : List Char) : Lexeme :=
  let n := Text.run isSubsequent cs
  word (if isSignedNumber (cs.take n) then .number else .identifier) (n + 1)

def signed (sign : Char) : List Char → Lexeme
  | [] => closed .identifier 1
  | c :: cs =>
    if isDelimiter c then closed .identifier 1
    else if c = '.' then signDot sign cs
    else if isDigit c then number (sign :: c :: cs)
    else if isSignSubsequent c then signedWord (c :: cs)
    else .invalid (.invalidAfterSign sign) 2

end Lexeme
end SchemeLexer
