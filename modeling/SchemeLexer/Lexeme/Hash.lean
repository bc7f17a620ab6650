import SchemeLexer.Lexeme.Comment
import SchemeLexer.Number.Marked
/-!
# Hash — what a hash sign begins

Block comments, directives, characters, vectors, datum comments, marked numbers, booleans and byte vectors.  Every rule
here gets the text behind what is already read and answers with the length from the hash sign on.
-/
namespace SchemeLexer
namespace Lexeme

/-- A directive behind its `#!`. -/
def directive : List Char → Lexeme
  | [] => .invalid .invalidDirective 2
  | c :: cs =>
    if isInitial c then word .directive (3 + Text.run isSubsequent cs) else .invalid .invalidDirective 3

/-- A character behind its `#\`: any character that a delimiter follows, a code point in hexadecimal behind an x, or a
name. -/
def character : List Char → Lexeme
  | [] => .invalid .unexpectedEof 2
  | [_] => closed .character 3
  | c :: d :: cs =>
    if isDelimiter d then closed .character 3
    else if (c = 'x' ∨ c = 'X') ∧ isHexDigit d then word .character (4 + Text.run isHexDigit cs)
    else if isInitial c ∧ isSubsequent d then word .character (4 + Text.run isSubsequent cs)
    else .invalid .invalidCharacter 4

def booleans : List (List Char) := [['t'], ['t', 'r', 'u', 'e'], ['f'], ['f', 'a', 'l', 's', 'e']]

/-- The word that opens a byte vector, a parenthesis after it. -/
def byteVector : List Char := ['u', '8']

/-- A word behind a hash sign. -/
def hashWord (cs : List Char) : Lexeme :=
  let n := Text.run isSubsequent cs
  let w := cs.take n
  let rest := cs.drop n
  if booleans.any (Caseless.sameWord w) then word .boolean (n + 1)
  else if Caseless.sameWord w byteVector then
    if rest.head? = some '(' then closed .openByteVector (n + 2)
    else .invalid .expectedOpenParen (n + 1 + Text.oneMore rest)
  else .invalid .invalidHashWord (n + 1)

/-- The number of a marked number, its hash sign counted in. -/
def markedNumber (cs : List Char) : Lexeme := ofReading .number true ((Number.marked cs).shift 1)

def hash : List Char → Lexeme
  | [] => .invalid .unexpectedEof 1
  | c :: cs =>
    if c = '|' then blockComment cs
    else if c = '!' then directive cs
    else if c = '\\' then character cs
    else if c = '(' then closed .openVector 2
    else if c = ';' then closed .commentDatum 2
    else if (Number.Marker.ofChar? c).isSome then markedNumber (c :: cs)
    else if isInitial c then hashWord (c :: cs)
    else .invalid .invalidAfterHash 2

end Lexeme
end SchemeLexer
