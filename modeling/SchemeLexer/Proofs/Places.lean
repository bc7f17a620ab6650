import SchemeLexer.Proofs.Decoding
import SchemeLexer.Text.Cursor
/-!
# Places — where reading characters leads

Reading `n` characters from a place passes over the bytes of `n` glyphs: those are what lies between the two places
(`slice_advance`), and what is ahead afterwards is what stood behind them (`rest_advance`).
-/
namespace SchemeLexer

open Utf8 (Glyph width)

namespace Place

@[simp] theorem advance_zero (p : Place) : advance 0 p = p := rfl

@[simp] theorem advance_nil : ∀ (n : Nat) (q : Position), advance n ⟨q, []⟩ = ⟨q, []⟩
  | 0, _ => rfl
  | _ + 1, _ => rfl

theorem advance_succ_cons (n : Nat) (q : Position) (b : UInt8) (bs : List UInt8) :
    advance (n + 1) ⟨q, b :: bs⟩ =
      advance n ⟨q.after (Glyph.read b bs), bs.drop (Glyph.read b bs).trail⟩ := rfl

theorem advance_add : ∀ (m n : Nat) (p : Place), advance (m + n) p = advance n (advance m p)
  | 0, n, p => by rw [Nat.zero_add, advance_zero]
  | _ + 1, _, ⟨_, []⟩ => by simp
  | m + 1, n, ⟨q, b :: bs⟩ => by rw [Nat.add_right_comm, advance_succ_cons, advance_add m n, advance_succ_cons]

theorem rest_advance : ∀ (n : Nat) (p : Place), (advance n p).rest = p.rest.drop (width n p.rest)
  | 0, _ => by simp
  | _ + 1, ⟨_, []⟩ => by simp
  | n + 1, ⟨q, b :: bs⟩ => by
    rw [advance_succ_cons, rest_advance n, Utf8.width_succ_cons, List.drop_succ_cons, List.drop_drop]

theorem offset_advance : ∀ (n : Nat) (p : Place),
    (advance n p).position.offset = p.position.offset + width n p.rest
  | 0, _ => by simp
  | _ + 1, ⟨_, []⟩ => by simp
  | n + 1, ⟨q, b :: bs⟩ => by
    rw [advance_succ_cons, offset_advance n]
    simp only [Position.after_offset, Utf8.width_succ_cons, Glyph.width]
    omega

theorem offset_le_advance (n : Nat) (p : Place) : p.position.offset ≤ (advance n p).position.offset := by
  rw [offset_advance]
  exact Nat.le_add_right ..

theorem slice_advance (n : Nat) (p : Place) : p.slice (advance n p) = p.rest.take (width n p.rest) := by
  rw [slice, offset_advance, Nat.add_sub_cancel_left]

theorem offset_advance_add_length (n : Nat) (p : Place) :
    (advance n p).position.offset + (advance n p).rest.length = p.position.offset + p.rest.length := by
  have := Utf8.width_le n p.rest
  rw [offset_advance, rest_advance, List.length_drop]
  omega

theorem length_slice (n : Nat) (p : Place) :
    p.position.offset + (p.slice (advance n p)).length = (advance n p).position.offset := by
  rw [slice_advance, offset_advance, List.length_take, Nat.min_eq_left (Utf8.width_le n p.rest)]

theorem chars_slice (n : Nat) (p : Place) : Utf8.chars (p.slice (advance n p)) = p.ahead.take n := by
  rw [slice_advance, Utf8.chars_take, ahead]

/-! ## A text with another behind it -/

/-- The same place, more text behind what is ahead. -/
def followedBy (p : Place) (c : List UInt8) : Place := ⟨p.position, p.rest ++ c⟩

section
variable {c : List UInt8} (hc : Utf8.Fresh c)
include hc

theorem ahead_followedBy (p : Place) : (p.followedBy c).ahead = p.ahead ++ Utf8.chars c := Utf8.chars_append hc p.rest

/-- **Reading as far as before** leads to the same place. -/
theorem advance_followedBy : ∀ (n : Nat) (p : Place), n ≤ p.ahead.length →
    advance n (p.followedBy c) = (advance n p).followedBy c
  | 0, _, _ => rfl
  | n + 1, ⟨q, []⟩, h => by cases h
  | n + 1, ⟨q, b :: bs⟩, h => by
    have hle : n ≤ (Utf8.chars (bs.drop (Glyph.read b bs).trail)).length := by
      rw [ahead, Utf8.chars_cons, List.length_cons] at h
      omega
    have hfollow : followedBy ⟨q, b :: bs⟩ c = ⟨q, b :: (bs ++ c)⟩ := rfl
    rw [hfollow, advance_succ_cons, advance_succ_cons, Glyph.read_append hc,
      List.drop_append_of_le_length (Glyph.read_trail_le b bs), ← advance_followedBy n ⟨_, _⟩ hle, followedBy]

theorem slice_followedBy {n : Nat} {p : Place} (h : n ≤ p.ahead.length) :
    (p.followedBy c).slice (advance n (p.followedBy c)) = p.slice (advance n p) := by
  have hle := Utf8.width_le n p.rest
  rw [slice_advance, slice_advance, followedBy, Utf8.width_append hc h, List.take_append_of_le_length hle]

end

end Place

/-- The position behind a text that stands at `q`. -/
def Position.past (q : Position) (b : List UInt8) : Position := (Place.advance (Utf8.chars b).length ⟨q, b⟩).position

namespace Place

theorem rest_advance_all (q : Position) (b : List UInt8) : (advance (Utf8.chars b).length ⟨q, b⟩).rest = [] := by
  have hle : (Utf8.decode b).length ≤ (Utf8.chars b).length := by simp [Utf8.chars]
  rw [rest_advance, Utf8.width_of_length_le hle, List.drop_length]

/-- **A text read to its end** leaves what stands behind it. -/
theorem advance_all {c : List UInt8} (hc : Utf8.Fresh c) (q : Position) (b : List UInt8) :
    advance (Utf8.chars b).length ⟨q, b ++ c⟩ = ⟨q.past b, c⟩ := by
  have h := advance_followedBy hc (Utf8.chars b).length ⟨q, b⟩ (Nat.le_refl _)
  rw [followedBy, followedBy, rest_advance_all] at h
  exact h

theorem slice_all {c : List UInt8} (hc : Utf8.Fresh c) (q : Position) (b : List UInt8) :
    slice ⟨q, b ++ c⟩ (advance (Utf8.chars b).length ⟨q, b ++ c⟩) = b := by
  have hle : (Utf8.decode b).length ≤ (Utf8.chars b).length := by simp [Utf8.chars]
  rw [slice_advance, Utf8.width_append hc (Nat.le_refl _), Utf8.width_of_length_le hle, List.take_left]

/-- The position after `n` characters counts them one by one. -/
theorem position_advance : ∀ (n : Nat) (p : Place),
    (advance n p).position = ((Utf8.decode p.rest).take n).foldl Position.after p.position
  | 0, _ => rfl
  | _ + 1, ⟨_, []⟩ => rfl
  | n + 1, ⟨q, b :: bs⟩ => by
    rw [advance_succ_cons, position_advance n, Utf8.decode_cons, List.take_succ_cons, List.foldl_cons]

end Place

theorem Position.past_eq_foldl (q : Position) (b : List UInt8) : q.past b = (Utf8.decode b).foldl Position.after q := by
  rw [past, Place.position_advance, Utf8.chars, List.length_map, List.take_length]

/-- **What lies between two places leads from the one to the other.** -/
theorem Place.past_slice (n : Nat) (p : Place) : p.position.past (p.slice (advance n p)) = (advance n p).position := by
  rw [Position.past_eq_foldl, slice_advance, Utf8.decode_take, position_advance]

namespace Cursor

theorem peek_fst (c : Cursor) : c.peek.1 = c.ahead.head? := (ahead_next c).1

/-- Reading a character: the next one, if there is one, and the place behind it. -/
theorem next_eq (c : Cursor) : c.next = (c.ahead.head?, c.advance 1) := by
  refine Prod.ext (ahead_next c).1 ?_
  unfold next
  split <;> (rename_i h; simp only [advance, Place.advance, h])

@[simp] theorem ahead_ofBytes (s : List UInt8) : (ofBytes s).ahead = Utf8.chars s := rfl

theorem consume_fst (rule : List Char → Reading) (c : Cursor) : (c.consume rule).1 = (rule c.ahead).error? := rfl

theorem consume_snd (rule : List Char → Reading) (c : Cursor) :
    (c.consume rule).2 = c.advance (rule c.ahead).taken := rfl

theorem lit_advance_ofBytes (n : Nat) (s : List UInt8) : ((ofBytes s).advance n).lit = s.take (width n s) :=
  Place.slice_advance n ⟨.start, s⟩

end Cursor
end SchemeLexer
