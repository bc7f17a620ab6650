import SchemeLexer.Text.Cursor
/-!
# Operation — what a cursor can be asked to do

The operations of a cursor as data, so that one can be done after the other in any order.  A cursor may be sent back to
a place where it has stood: those that are to be remembered are kept beside it.
-/
namespace SchemeLexer

/-- What a cursor can be asked to do. -/
inductive Operation
  | next
  | peek
  | backup
  | rewind
  | ignore
  /-- Remembers where the cursor is. -/
  | save
  /-- Sends the cursor back to where it was remembered, the first place being number 0. -/
  | reset (i : Nat)
  | emit (kind : Kind)
  | lit
  | accept (set : List Char)
  | acceptWhile (p : Char → Bool) (max? : Option Nat)
  | acceptWord (word : List Char)

inductive Answer
  | done
  | char (c? : Option Char)
  | position (p : Position)
  | token (t : Token)
  | text (bs : List UInt8)
  | flag (b : Bool)
  | count (n : Nat)
  deriving Repr, DecidableEq

/-- The positions of a cursor, of its last reading and of its mark. -/
structure Stand where
  pos  : Position
  prev : Position
  mark : Position
  deriving Repr, DecidableEq

/-- A cursor and the places remembered of it. -/
structure Bookmarked where
  cursor : Cursor
  saved  : List Place

namespace Bookmarked

def ofBytes (source : List UInt8) : Bookmarked := ⟨.ofBytes source, []⟩

def stand (s : Bookmarked) : Stand := ⟨s.cursor.pos.position, s.cursor.prev.position, s.cursor.mark.position⟩

/-- The place remembered under number `i`, that of the cursor if there is none. -/
def place (s : Bookmarked) (i : Nat) : Place := s.saved.getD i s.cursor.pos

def perform (s : Bookmarked) : Operation → Answer × Bookmarked
  | .next => (.char s.cursor.next.1, ⟨s.cursor.next.2, s.saved⟩)
  | .peek => (.char s.cursor.peek.1, ⟨s.cursor.peek.2, s.saved⟩)
  | .backup => (.done, ⟨s.cursor.backup, s.saved⟩)
  | .rewind => (.done, ⟨s.cursor.rewind, s.saved⟩)
  | .ignore => (.done, ⟨s.cursor.ignore, s.saved⟩)
  | .save => (.position s.cursor.position, ⟨s.cursor, s.saved ++ [s.cursor.pos]⟩)
  | .reset i => (.done, ⟨s.cursor.reset (s.place i), s.saved⟩)
  | .emit kind => (.token (s.cursor.emit kind).1, ⟨(s.cursor.emit kind).2, s.saved⟩)
  | .lit => (.text s.cursor.lit, s)
  | .accept set => (.flag (s.cursor.accept set).1, ⟨(s.cursor.accept set).2, s.saved⟩)
  | .acceptWhile p max? => (.count (s.cursor.acceptWhile p max?).1, ⟨(s.cursor.acceptWhile p max?).2, s.saved⟩)
  | .acceptWord word => (.count (s.cursor.acceptWord word).1, ⟨(s.cursor.acceptWord word).2, s.saved⟩)

/-- One operation after the other: what each answers, and where it leaves the cursor. -/
def trace : Bookmarked → List Operation → List (Answer × Stand)
  | _, [] => []
  | s, o :: os => ((s.perform o).1, (s.perform o).2.stand) :: trace (s.perform o).2 os

end Bookmarked
end SchemeLexer
