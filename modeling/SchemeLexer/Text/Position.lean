import SchemeLexer.Text.Utf8
/-!
# Position — where in a source

A position is counted in two ways: the offset in bytes from 0, the line and the column from 1 in characters.  Only a
newline starts a line; every other character, the replacement of an ill-formed sequence included, is one column.
-/
namespace SchemeLexer

open Utf8 (Glyph)

structure Position where
  offset : Nat
  line   : Nat
  column : Nat
  deriving Repr, DecidableEq

namespace Position

/-- The start of a source. -/
def start : Position := ⟨0, 1, 1⟩

instance : Inhabited Position := ⟨start⟩

/-- The position after a glyph that stands at `p`. -/
def after (p : Position) (g : Glyph) : Position :=
  if g.char = '\n' then ⟨p.offset + g.width, p.line + 1, 1⟩
  else ⟨p.offset + g.width, p.line, p.column + 1⟩

/-- The written form, line and column. -/
def text (p : Position) : String := s!"{p.line}:{p.column}"

@[simp] theorem after_offset (p : Position) (g : Glyph) : (p.after g).offset = p.offset + g.width := by
  unfold after; split <;> rfl

end Position
end SchemeLexer
