import SchemeLexer.CharClass
import SchemeLexer.Lexeme
import SchemeLexer.Text.Run
/-!
# Enclosed — strings, and identifiers between bars

Both kinds run from a mark to the next one of its sort, and may hold any character in between.  A backslash begins an
escape sequence: a code point in hexadecimal between `\x` and a semicolon, one of the letters a, b, t, n, r, another
backslash, the enclosing mark, or a line end with the blanks around it.
-/
namespace SchemeLexer
namespace Lexeme

/-- What stands for a character when a backslash precedes it, the enclosing mark apart. -/
def isEscapeLetter (c : Char) : Bool := ['a', 'b', 't', 'n', 'r', '\\'].contains c

/-- An escape sequence behind its backslash, between marks `q`.  A character that breaks the sequence is taken for the
error. -/
def escape (q : Char) : List Char → Reading
  | [] => .reject .invalidEscape 0
  | c :: cs =>
    if c = 'x' then
      let n := Text.run isHexDigit cs
      if n = 0 then .reject .invalidEscape 1
      else if (cs.drop n).head? = some ';' then .accept (n + 2)
      else .reject .invalidEscape (n + 1 + Text.oneMore (cs.drop n))
    else if isEscapeLetter c ∨ c = q then .accept 1
    else if isInlineWhitespace c then
      let n := Text.run isInlineWhitespace cs
      match cs.drop n with
      | [] => .reject .invalidEscape (n + 1)
      | d :: rest =>
        if d = '\n' then .accept (n + 2 + Text.run isInlineWhitespace rest) else .reject .invalidEscape (n + 2)
    else if c = '\n' then .accept (1 + Text.run isInlineWhitespace cs)
    else .reject .invalidEscape 1

theorem error?_escape (q : Char) (cs : List Char) :
    (escape q cs).error? = none ∨ (escape q cs).error? = some .invalidEscape := by
  cases cs with
  | nil => exact Or.inr rfl
  | cons x cs =>
    simp only [escape]
    repeat' split
    all_goals simp [Reading.accept, Reading.reject]

/-- The text behind an opening mark `q`, up to and with the closing one. -/
def enclosed (q : Char) : List Char → Reading
  | [] => .reject .unexpectedEof 0
  | c :: cs =>
    if c = q then .accept 1
    else if c = '\\' then
      let e := escape q cs
      if e.isOk then (enclosed q (cs.drop e.taken)).shift (1 + e.taken) else e.shift 1
    else (enclosed q cs).shift 1
termination_by cs => cs.length
decreasing_by all_goals simp only [List.length_cons, List.length_drop]; omega

end Lexeme
end SchemeLexer
