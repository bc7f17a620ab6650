import SchemeLexer.CharClass
import SchemeLexer.Text.Caseless
import SchemeLexer.Text.Quoted
/-!
# Radix — the four bases a number is written in

A radix has the letter that designates it after a hash sign, and its digits.
-/
namespace SchemeLexer

inductive Radix
  | binary
  | octal
  | decimal
  | hexadecimal
  deriving Repr, DecidableEq

namespace Radix

/-- The radix of a designator: b, o, d or x in either case. -/
def ofDesignator? (c : Char) : Option Radix :=
  if Caseless.fold c = 'b' then some binary
  else if Caseless.fold c = 'o' then some octal
  else if Caseless.fold c = 'd' then some decimal
  else if Caseless.fold c = 'x' then some hexadecimal
  else none

/-- Whether a character is a digit of the radix. -/
def isDigit : Radix → Char → Bool
  | binary => isBinaryDigit
  | octal => isOctalDigit
  | decimal => SchemeLexer.isDigit
  | hexadecimal => isHexDigit

/-- A character that was to designate a radix, and does not. -/
structure UnknownDesignator where
  designator : Char
  deriving Repr, DecidableEq

def UnknownDesignator.message (e : UnknownDesignator) : String :=
  s!"invalid radix designator {Quoted.char e.designator}"

/-- The radix of a designator, or the complaint that there is none. -/
def ofDesignator (c : Char) : Except UnknownDesignator Radix :=
  match ofDesignator? c with
  | some r => .ok r
  | none => .error ⟨c⟩

end Radix
end SchemeLexer
