import SchemeLexer.Lexeme
import SchemeLexer.Text.Run
/-!
# Comment — text that is skipped

A line comment runs to the end of its line.  A block comment stands between `#|` and `|#` and may hold others.  It is
read one character at a time, and a character that has closed one pair does not open the next: `#||#` is a complete
comment, and `#|#` does not close itself.
-/
namespace SchemeLexer
namespace Lexeme

/-- A line comment behind its semicolon, with the newline that ends it. -/
def lineComment (cs : List Char) : Nat :=
  let n := Text.run (· ≠ '\n') cs
  n + Text.oneMore (cs.drop n)

/-- The half of a pair that the last character may have been. -/
inductive Half
  | neither
  | hash
  | bar
  deriving Repr, DecidableEq

/-- Inside a block comment: how many comments are open, and which half was read last. -/
structure Nesting where
  depth : Nat
  half  : Half
  deriving Repr, DecidableEq

namespace Nesting

def opened : Nesting := ⟨1, .neither⟩

def step (s : Nesting) (c : Char) : Nesting :=
  if c = '#' then
    if s.half = .bar then ⟨s.depth - 1, .neither⟩ else ⟨s.depth, .hash⟩
  else if c = '|' then
    if s.half = .hash then ⟨s.depth + 1, .neither⟩ else ⟨s.depth, .bar⟩
  else ⟨s.depth, .neither⟩

/-- How many characters it takes until every comment is closed; `none` if the text ends before that. -/
def closing? (s : Nesting) : List Char → Option Nat
  | [] => if s.depth = 0 then some 0 else none
  | c :: cs => if s.depth = 0 then some 0 else ((s.step c).closing? cs).map (· + 1)

end Nesting

/-- A block comment behind its `#|`. -/
def blockComment (cs : List Char) : Lexeme :=
  match Nesting.opened.closing? cs with
  | some n => .skip (n + 2)
  | none => .invalid .unexpectedEof (cs.length + 2)

end Lexeme
end SchemeLexer
