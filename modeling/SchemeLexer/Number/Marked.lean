import SchemeLexer.Number.Complex
/-!
# Marked — numbers behind a hash sign

A number may be preceded by a marker for its radix and a marker for its exactness, in either order, each a hash sign
and a letter.  The exactness says nothing about how the number is written.
-/
namespace SchemeLexer
namespace Number

/-- What a letter after a hash sign says about the number to come. -/
inductive Marker
  | radix (r : Radix)
  | exactness
  deriving Repr, DecidableEq

def Marker.ofChar? (c : Char) : Option Marker :=
  match Radix.ofDesignator? c with
  | some r => some (.radix r)
  | none => if Caseless.fold c = 'e' ∨ Caseless.fold c = 'i' then some .exactness else none

/-- The markers read so far: the radix, if one was given, and whether the exactness was. -/
structure Marks where
  radix?    : Option Radix
  exactness : Bool
  deriving Repr, DecidableEq

/-- One marker more, `none` if its sort was given before. -/
def Marks.add? (m : Marks) : Marker → Option Marks
  | .radix r => if m.radix?.isNone then some { m with radix? := some r } else none
  | .exactness => if m.exactness then none else some { m with exactness := true }

/-- A number without a radix marker is in radix ten. -/
def Marks.radix (m : Marks) : Radix := m.radix?.getD .decimal

/-- The letter of a marker, further markers and the number, the marks `m` having been read.  A character that is no
letter of a marker is taken for the error. -/
def afterMarks (m : Marks) : List Char → Reading
  | [] => .reject .invalidPrefix 0
  | c :: cs =>
    match (Marker.ofChar? c).bind m.add? with
    | none => .reject .invalidPrefix 1
    | some m' =>
      match cs with
      | [] => (complex m'.radix []).shift 1
      | d :: rest => if d = '#' then (afterMarks m' rest).shift 2 else (complex m'.radix (d :: rest)).shift 1

/-- A marked number behind its first hash sign. -/
def marked (cs : List Char) : Reading := afterMarks ⟨none, false⟩ cs

end Number
end SchemeLexer
