import SchemeLexer.Text.Operation
/-!
# Checked/Cursor — operations that can fault

Some operations of a scanner make sense on part of what they could be given: a text is cut out of the source between two
places that lie in order inside it, a cursor goes back to a place that it has passed, a first byte is dropped of a word
that has one.  Here each of them checks that, and a scan that would break the rule ends in a `Fault`.
-/
namespace SchemeLexer

/-- An operation used where it makes no sense. -/
inductive Fault
  /-- A text cut out of the source whose end lies before its start, or behind the end of the source. -/
  | slice
  /-- A cursor sent back to a place that does not lie between its mark and where it is. -/
  | reset
  /-- The first byte dropped of a word that has none. -/
  | emptyWord
  /-- A block comment closed where none is open, or more of them open than the text read can have opened. -/
  | depth
  /-- A radix asked for by a character that designates none. -/
  | designator (c : Char)
  /-- A loop gone round again where nothing has been read. -/
  | stuck
  deriving Repr, DecidableEq

namespace Checked

/-- The bytes of the source since the mark. -/
def lit (source : List UInt8) (c : Cursor) : Except Fault (List UInt8) :=
  if c.mark.position.offset ≤ c.pos.position.offset ∧ c.pos.position.offset ≤ source.length then
    .ok (source.extract c.mark.position.offset c.pos.position.offset)
  else .error .slice

/-- Makes a token of what was read since the mark. -/
def emit (source : List UInt8) (kind : Kind) (c : Cursor) : Except Fault (Token × Cursor) := do
  let text ← lit source c
  .ok (⟨kind, text, c.mark.position⟩, c.ignore)

/-- Goes back to a place passed since the mark. -/
def reset (p : Place) (c : Cursor) : Except Fault Cursor :=
  if c.mark.position.offset ≤ p.position.offset ∧ p.position.offset ≤ c.pos.position.offset then .ok (c.reset p)
  else .error .reset

/-- A word without its first byte. -/
def dropFirst : List UInt8 → Except Fault (List UInt8)
  | [] => .error .emptyWord
  | _ :: word => .ok word

/-- Goes round a loop again, if the cursor has got from `c` to `d` since the last time. -/
def again {α : Type} (c d : Cursor) (loop : d.pos.rest.length < c.pos.rest.length → Except Fault (α × Cursor)) :
    Except Fault (α × Cursor) :=
  if h : d.pos.rest.length < c.pos.rest.length then loop h else .error .stuck

@[simp] theorem ok_bind {α β : Type} (a : α) (f : α → Except Fault β) : (Except.ok a >>= f) = f a := rfl

/-! ## One operation after the other -/

/-- An operation that faults where it makes no sense. -/
def perform (source : List UInt8) (s : Bookmarked) : Operation → Except Fault (Answer × Bookmarked)
  | .reset i => do
    let d ← reset (s.place i) s.cursor
    .ok (.done, ⟨d, s.saved⟩)
  | .emit kind => do
    let (t, d) ← emit source kind s.cursor
    .ok (.token t, ⟨d, s.saved⟩)
  | .lit => do
    let text ← lit source s.cursor
    .ok (.text text, s)
  | o => .ok (s.perform o)

def trace (source : List UInt8) : Bookmarked → List Operation → Except Fault (List (Answer × Stand))
  | _, [] => .ok []
  | s, o :: os => do
    let (a, d) ← perform source s o
    let rest ← trace source d os
    .ok ((a, d.stand) :: rest)

end Checked
end SchemeLexer
