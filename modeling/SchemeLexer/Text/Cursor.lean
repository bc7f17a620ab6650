import SchemeLexer.Reading
import SchemeLexer.Text.Caseless
import SchemeLexer.Text.Utf8
import SchemeLexer.Token
/-!
# Cursor — reading a source from left to right

A cursor stands at a place of its source and remembers two earlier ones: `prev`, where it stood before it last read a
character, and `mark`, where the token at hand begins.  `next` reads a character and `backup` takes one reading back,
the end of the input included; `emit` makes a token of what lies between the mark and the cursor, and `ignore` drops
it.

A place carries the bytes that lie ahead of it, so a cursor never looks outside its source.  `ahead_next` and
`ahead_advance` say what reading does to the characters ahead.
-/
namespace SchemeLexer

open Utf8 (Glyph)

/-- A place in a source: where it is, and the bytes from there on. -/
structure Place where
  position : Position
  rest     : List UInt8
  deriving Repr, DecidableEq

namespace Place

/-- The glyph at a place and the place after it; `none` at the end. -/
def next? (p : Place) : Option (Glyph × Place) :=
  match p.rest with
  | [] => none
  | b :: bs =>
    let g := Glyph.read b bs
    some (g, ⟨p.position.after g, bs.drop g.trail⟩)

def ahead (p : Place) : List Char := Utf8.chars p.rest

/-- The place `n` characters further on, the end if there are fewer. -/
def advance : Nat → Place → Place
  | 0, p => p
  | n + 1, p =>
    match p.next? with
    | none => p
    | some (_, q) => advance n q

/-- The bytes from a place up to a later one. -/
def slice (p q : Place) : List UInt8 := p.rest.take (q.position.offset - p.position.offset)

theorem next?_rest_lt {p q : Place} {g : Glyph} (h : p.next? = some (g, q)) : q.rest.length < p.rest.length := by
  unfold next? at h
  split at h
  · cases h
  · rename_i b bs hr
    obtain ⟨-, rfl⟩ := h
    simp only [hr, List.length_drop, List.length_cons]
    omega

theorem ahead_of_next?_none {p : Place} (h : p.next? = none) : p.ahead = [] := by
  unfold next? at h
  split at h
  · rename_i hr; simp [ahead, hr]
  · cases h

theorem ahead_of_next?_some {p q : Place} {g : Glyph} (h : p.next? = some (g, q)) : p.ahead = g.char :: q.ahead := by
  unfold next? at h
  split at h
  · cases h
  · rename_i b bs hr
    obtain ⟨rfl, rfl⟩ := h
    simp [ahead, hr, Utf8.chars_cons]

/-- **Advancing drops the characters passed over.** -/
theorem ahead_advance (n : Nat) (p : Place) : (advance n p).ahead = p.ahead.drop n := by
  induction n generalizing p with
  | zero => rfl
  | succ n ih =>
    unfold advance
    split
    · rename_i h; simp [ahead_of_next?_none h]
    · rename_i g q h; rw [ih, ahead_of_next?_some h, List.drop_succ_cons]

end Place

structure Cursor where
  pos  : Place
  prev : Place
  mark : Place
  deriving Repr, DecidableEq

namespace Cursor

def ofBytes (source : List UInt8) : Cursor :=
  let p : Place := ⟨.start, source⟩
  ⟨p, p, p⟩

def position (c : Cursor) : Position := c.pos.position

def ahead (c : Cursor) : List Char := c.pos.ahead

/-- Reads one character, `none` at the end of the input. -/
def next (c : Cursor) : Option Char × Cursor :=
  match c.pos.next? with
  | none => (none, { c with prev := c.pos })
  | some (g, q) => (some g.char, { c with prev := c.pos, pos := q })

/-- Takes the last reading back.  A second time in a row changes nothing. -/
def backup (c : Cursor) : Cursor := { c with pos := c.prev }

/-- The next character, which stays unread. -/
def peek (c : Cursor) : Option Char × Cursor :=
  let (c?, d) := c.next
  (c?, d.backup)

def rewind (c : Cursor) : Cursor := { c with pos := c.mark, prev := c.mark }

/-- Goes to a place where the cursor has stood before. -/
def reset (c : Cursor) (p : Place) : Cursor := { c with pos := p, prev := p }

def ignore (c : Cursor) : Cursor := { c with mark := c.pos }

def lit (c : Cursor) : List UInt8 := c.mark.slice c.pos

/-- Makes a token of what was read since the mark. -/
def emit (c : Cursor) (kind : Kind) : Token × Cursor := (⟨kind, c.lit, c.mark.position⟩, c.ignore)

/-- Reads `n` characters, or as many as there are. -/
def advance (n : Nat) (c : Cursor) : Cursor := { c with pos := Place.advance n c.pos, prev := c.pos }

/-- Reads what a rule makes of the text ahead, and answers the rule's error if it has one. -/
def consume (rule : List Char → Reading) (c : Cursor) : Option ScanError × Cursor :=
  let r := rule c.ahead
  (r.error?, c.advance r.taken)

/-- Reads the next character if it is one of `set`. -/
def accept (set : List Char) (c : Cursor) : Bool × Cursor :=
  match c.next with
  | (some x, d) => if set.contains x then (true, d) else (false, d.backup)
  | (none, d) => (false, d.backup)

theorem next_rest_lt {c d : Cursor} {x : Char} (h : c.next = (some x, d)) :
    d.pos.rest.length < c.pos.rest.length := by
  unfold next at h
  split at h
  · cases h
  · rename_i g q hp
    obtain ⟨-, rfl⟩ := Prod.mk.inj h
    exact Place.next?_rest_lt hp

/-- Reads characters while they satisfy `p`, at most `max?` if that is given, and answers how many. -/
def acceptWhile (p : Char → Bool) (max? : Option Nat) (c : Cursor) : Nat × Cursor :=
  if max? = some 0 then (0, c)
  else
    match _h : c.next with
    | (some x, d) =>
      if p x then
        let (n, e) := acceptWhile p (max?.map (· - 1)) d
        (n + 1, e)
      else (0, d.backup)
    | (none, d) => (0, d.backup)
termination_by c.pos.rest.length
decreasing_by exact next_rest_lt ‹_›

/-- Reads as much of `word` as stands ahead, whatever the case of its letters, and answers how many characters that
is. -/
def acceptWord : List Char → Cursor → Nat × Cursor
  | [], c => (0, c)
  | w :: word, c =>
    match c.next with
    | (some x, d) =>
      if Caseless.fold x = Caseless.fold w then
        let (n, e) := acceptWord word d
        (n + 1, e)
      else (0, d.backup)
    | (none, d) => (0, d.backup)

theorem ahead_next (c : Cursor) : c.next.1 = c.ahead.head? ∧ c.next.2.ahead = c.ahead.tail := by
  unfold next
  split
  · rename_i h; simp [ahead, Place.ahead_of_next?_none h]
  · rename_i g q h; simp [ahead, Place.ahead_of_next?_some h]

theorem next_backup_pos (c : Cursor) : c.next.2.backup.pos = c.pos := by
  unfold next backup; split <;> rfl

@[simp] theorem ahead_advance (n : Nat) (c : Cursor) : (c.advance n).ahead = c.ahead.drop n :=
  Place.ahead_advance n c.pos

@[simp] theorem ahead_ignore (c : Cursor) : c.ignore.ahead = c.ahead := rfl

@[simp] theorem ahead_emit (c : Cursor) (k : Kind) : (c.emit k).2.ahead = c.ahead := rfl

end Cursor
end SchemeLexer
