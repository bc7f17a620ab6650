import SchemeLexer.Checked.Cursor
import SchemeLexer.Proofs.Tiling
/-!
# Checked/Cursor — a rule on a cursor and on the text ahead

A rule run on a cursor is compared with the rule on the text ahead.  `At p k cs c` says where the cursor `c` is: its mark
at `p`, itself `k` characters further on, and `cs` ahead of it.  `Reads` says of a rule that it succeeds, how many
characters it reads and what it answers.  What the cursor read last, and would take back, is not a part of either: each
backup follows right on the reading that it takes back (`At.next_cons`).

The operations that check what they are given pass that check wherever a cursor is so described.
-/
namespace SchemeLexer

open Text (run oneMore)

/-! ## Where a cursor is -/

/-- The mark of `c` is at `p`, and `c` itself is `k` characters further on, where `cs` is ahead. -/
structure At (p : Place) (k : Nat) (cs : List Char) (c : Cursor) : Prop where
  mark : c.mark = p
  pos  : c.pos = p.advance k
  rest : p.ahead.drop k = cs

/-- The rule succeeds, reads `n` of the characters ahead and answers `a`. -/
def Reads {α : Type} (x : Except Fault (α × Cursor)) (p : Place) (k : Nat) (cs : List Char) (n : Nat) (a : α) : Prop :=
  ∃ d, x = .ok (a, d) ∧ At p (k + n) (cs.drop n) d

namespace Place

theorem next?_of_ahead_nil {p : Place} (h : p.ahead = []) : p.next? = none := by
  obtain ⟨q, rest⟩ := p
  obtain rfl : rest = [] := Utf8.chars_eq_nil h
  rfl

theorem next?_of_ahead_cons {p : Place} {x : Char} {cs : List Char} (h : p.ahead = x :: cs) :
    ∃ g, p.next? = some (g, p.advance 1) ∧ g.char = x := by
  obtain ⟨q, rest⟩ := p
  cases rest with
  | nil => cases h
  | cons b bs =>
    rw [ahead, Utf8.chars_cons, List.cons.injEq] at h
    exact ⟨Utf8.Glyph.read b bs, rfl, h.1⟩

theorem length_rest_advance_le (n : Nat) (p : Place) : (p.advance n).rest.length ≤ p.rest.length := by
  rw [rest_advance, List.length_drop]
  exact Nat.sub_le ..

end Place

namespace At

variable {p : Place} {k : Nat} {cs : List Char} {c : Cursor}

theorem ahead (h : At p k cs c) : c.ahead = cs := by rw [Cursor.ahead, h.pos, Place.ahead_advance, h.rest]

/-- The cursor `n` characters further on. -/
theorem further (h : At p k cs c) {n : Nat} {d : Cursor} (hmark : d.mark = c.mark) (hpos : d.pos = c.pos.advance n) :
    At p (k + n) (cs.drop n) d where
  mark := hmark.trans h.mark
  pos := by rw [hpos, h.pos, Place.advance_add]
  rest := by rw [← List.drop_drop, h.rest]

theorem next_nil (h : At p k [] c) : ∃ d, c.next = (none, d) ∧ At p k [] d ∧ At p k [] d.backup := by
  have hnext := Place.next?_of_ahead_nil h.ahead
  refine ⟨{ c with prev := c.pos }, ?_, ⟨h.mark, h.pos, h.rest⟩, ⟨h.mark, h.pos, h.rest⟩⟩
  rw [Cursor.next, hnext]

/-- **Reading a character**, and taking that back. -/
theorem next_cons {x : Char} (h : At p k (x :: cs) c) :
    ∃ d, c.next = (some x, d) ∧ At p (k + 1) cs d ∧ At p k (x :: cs) d.backup := by
  obtain ⟨g, hnext, rfl⟩ := Place.next?_of_ahead_cons h.ahead
  refine ⟨{ c with prev := c.pos, pos := c.pos.advance 1 }, ?_, ?_, ⟨h.mark, h.pos, h.rest⟩⟩
  · rw [Cursor.next, hnext]
  · exact h.further rfl rfl

/-- Reading a character unseen. -/
theorem next (h : At p k cs c) : ∃ d, c.next = (cs.head?, d) ∧ At p (k + oneMore cs) (cs.drop (oneMore cs)) d ∧
    At p k cs d.backup := by
  cases cs with
  | nil => exact h.next_nil
  | cons x cs => simpa using h.next_cons

theorem peek (h : At p k cs c) : ∃ d, c.peek = (cs.head?, d) ∧ At p k cs d := by
  obtain ⟨d, hd, -, hback⟩ := h.next
  exact ⟨d.backup, by rw [Cursor.peek, hd], hback⟩

theorem accept_nil (h : At p k [] c) (set : List Char) : ∃ d, c.accept set = (false, d) ∧ At p k [] d := by
  obtain ⟨d, hd, -, hback⟩ := h.next_nil
  exact ⟨d.backup, by rw [Cursor.accept, hd], hback⟩

theorem accept_pos {x : Char} (h : At p k (x :: cs) c) (set : List Char) (hx : set.contains x = true) :
    ∃ d, c.accept set = (true, d) ∧ At p (k + 1) cs d := by
  obtain ⟨d, hd, hnext, -⟩ := h.next_cons
  exact ⟨d, by simp only [Cursor.accept, hd, hx, if_true], hnext⟩

theorem accept_neg {x : Char} (h : At p k (x :: cs) c) (set : List Char) (hx : set.contains x = false) :
    ∃ d, c.accept set = (false, d) ∧ At p k (x :: cs) d := by
  obtain ⟨d, hd, -, hback⟩ := h.next_cons
  exact ⟨d.backup, by simp only [Cursor.accept, hd, hx, Bool.false_eq_true, if_false], hback⟩

/-- A character of a class is read where there is one. -/
theorem accept_if (h : At p k cs c) (set : List Char) {q : Char → Bool} (hq : ∀ x, set.contains x = q x) :
    ∃ d, c.accept set = (cs.head?.any q, d) ∧
      At p (k + if cs.head?.any q then 1 else 0) (cs.drop (if cs.head?.any q then 1 else 0)) d := by
  cases cs with
  | nil => exact h.accept_nil set
  | cons x cs =>
    cases hx : q x with
    | true => simpa [hx] using h.accept_pos set ((hq x).trans hx)
    | false => simpa [hx] using h.accept_neg set ((hq x).trans hx)

theorem acceptWhile (q : Char → Bool) (h : At p k cs c) :
    ∃ d, c.acceptWhile q none = (run q cs, d) ∧ At p (k + run q cs) (cs.drop (run q cs)) d := by
  induction cs generalizing k c with
  | nil =>
    obtain ⟨d, hd, -, hback⟩ := h.next_nil
    refine ⟨d.backup, ?_, hback⟩
    rw [Cursor.acceptWhile]
    simp only [reduceCtorEq, if_false]
    split
    · simp_all
    · simp_all
  | cons x cs ih =>
    obtain ⟨d, hd, hnext, hback⟩ := h.next_cons
    rw [Cursor.acceptWhile]
    simp only [reduceCtorEq, if_false]
    split
    · rename_i x' d' hd'
      obtain ⟨hx, rfl⟩ := Prod.mk.inj (hd.symm.trans hd')
      obtain rfl := Option.some.inj hx
      cases hq : q x with
      | true =>
        obtain ⟨e, he, hrun⟩ := ih hnext
        refine ⟨e, by simp [Text.run_cons, hq, he], ?_⟩
        simpa [Text.run_cons, hq, Nat.add_assoc, Nat.add_comm 1] using hrun
      | false => exact ⟨d.backup, by simp [Text.run_cons, hq], by simpa [Text.run_cons, hq] using hback⟩
    · simp_all

theorem acceptWord (word : List Char) (h : At p k cs c) :
    ∃ d, c.acceptWord word = (Caseless.matched word cs, d) ∧
      At p (k + Caseless.matched word cs) (cs.drop (Caseless.matched word cs)) d := by
  induction word generalizing k cs c with
  | nil => exact ⟨c, rfl, h⟩
  | cons w word ih =>
    cases cs with
    | nil =>
      obtain ⟨d, hd, -, hback⟩ := h.next_nil
      exact ⟨d.backup, by simp only [Cursor.acceptWord, hd, Caseless.matched], hback⟩
    | cons x cs =>
      obtain ⟨d, hd, hnext, hback⟩ := h.next_cons
      by_cases hx : Caseless.fold x = Caseless.fold w
      · obtain ⟨e, he, hword⟩ := ih hnext
        refine ⟨e, by simp [Cursor.acceptWord, hd, Caseless.matched, hx, he], ?_⟩
        simpa [Caseless.matched, hx, Nat.add_assoc, Nat.add_comm 1] using hword
      · refine ⟨d.backup, by simp [Cursor.acceptWord, hd, Caseless.matched, hx, Ne.symm hx], ?_⟩
        simpa [Caseless.matched, Ne.symm hx] using hback

theorem rewind (h : At p k cs c) : At p 0 p.ahead c.rewind := ⟨h.mark, h.mark, rfl⟩

/-- A cursor that has read something has less ahead of it. -/
theorem lt {x : Char} (h : At p k (x :: cs) c) {n : Nat} {d : Cursor} (hd : d.pos = p.advance (k + 1 + n)) :
    d.pos.rest.length < c.pos.rest.length := by
  obtain ⟨g, hnext, -⟩ := Place.next?_of_ahead_cons h.ahead
  have hlt := Place.next?_rest_lt hnext
  have hle := Place.length_rest_advance_le n (c.pos.advance 1)
  rw [hd, Nat.add_assoc, Place.advance_add, ← h.pos, Place.advance_add]
  exact Nat.lt_of_le_of_lt hle hlt

/-! ## The checks hold -/

theorem lit {source : List UInt8} (hp : p.Within source) (h : At p k cs c) :
    Checked.lit source c = .ok (p.slice (p.advance k)) := by
  have hle := Place.offset_le_advance k p
  have hend := (hp.advance k).1
  rw [Checked.lit, h.mark, h.pos, if_pos ⟨hle, by omega⟩, hp.slice]

/-- A reading taken back after the mark has moved on: the cursor stands before its mark. -/
example : Checked.lit [0x61] (Cursor.ofBytes [0x61]).next.2.ignore.backup = .error .slice := rfl

theorem emit {source : List UInt8} (hp : p.Within source) (h : At p k cs c) (kind : Kind) :
    Checked.emit source kind c = .ok (p.token kind k, c.ignore) := by
  rw [Checked.emit, h.lit hp, h.mark]
  rfl

/-- A place passed since the mark may be gone back to. -/
theorem reset (h : At p k cs c) {n : Nat} {ds : List Char} {d : Cursor} (hd : At p (k + n) ds d) :
    ∃ e, Checked.reset c.pos d = .ok e ∧ At p k cs e := by
  have hmark := Place.offset_le_advance k p
  have hpos : c.pos.position.offset ≤ d.pos.position.offset := by
    rw [hd.pos, Place.advance_add, ← h.pos]
    exact Place.offset_le_advance n c.pos
  refine ⟨d.reset c.pos, ?_, ⟨hd.mark, h.pos, h.rest⟩⟩
  rw [Checked.reset, hd.mark, if_pos ⟨h.pos ▸ hmark, hpos⟩]

theorem again {α : Type} {x : Char} (h : At p k (x :: cs) c) {n : Nat} {ds : List Char} {d : Cursor}
    (hd : At p (k + 1 + n) ds d) (loop : d.pos.rest.length < c.pos.rest.length → Except Fault (α × Cursor)) :
    Checked.again c d loop = loop (h.lt hd.pos) := dif_pos _

end At

namespace Reads

variable {α : Type} {p : Place} {k m n : Nat} {cs : List Char} {a : α} {x : Except Fault (α × Cursor)}

theorem of_at {j : Nat} {ds : List Char} {d : Cursor} (hcs : p.ahead.drop k = cs) (h : At p j ds d) (hj : j = k + n) :
    Reads (.ok (a, d)) p k cs n a := by
  subst hj hcs
  exact ⟨d, rfl, h.mark, h.pos, List.drop_drop.symm⟩

/-- What a rule reads behind `m` characters read before. -/
theorem behind (h : Reads x p (k + m) (cs.drop m) n a) : Reads x p k cs (m + n) a := by
  obtain ⟨d, hx, hd⟩ := h
  rw [List.drop_drop, Nat.add_assoc] at hd
  exact ⟨d, hx, hd⟩

end Reads
end SchemeLexer
