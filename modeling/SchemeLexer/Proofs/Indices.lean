import Mathlib.Data.Nat.Find
import SchemeLexer.Proofs.Checked.Cursor
import SchemeLexer.Proofs.Positions
/-!
# Indices — a cursor as indices into its characters

What a cursor does can be told without bytes: its source is a list of characters, and the cursor, the place of its last
reading and its mark are three numbers.  `Indices.perform` tells each operation so, the operations that read as far as
they may by the longest text that they may read.

`trace_eq_indices` says that operations in any order answer the same on both, and leave the cursor where the
indices say, as long as the cursor stays behind its mark and is sent back to places behind the mark only.  `Refines` is
the invariant.  What an operation leaves as the last reading hangs on whether it looked at a character that it did not
take: then that is the last reading, and it has been taken back (`Cursor.further`).
-/
namespace SchemeLexer

open Caseless (fold matched sameWord)
open Text (run)
open Utf8 (chars width)

/-! ## Indices -/

/-- Where a cursor is, where it read last and where its mark is, each as a number of characters, and the places
remembered. -/
structure Indices where
  pos   : Nat
  prev  : Nat
  mark  : Nat
  saved : List Nat
  deriving Repr, DecidableEq

/-- The most characters, up to a bound, of which something holds. -/
def longest (bound : Nat) (P : Nat → Prop) [DecidablePred P] : Nat := Nat.findGreatest P bound

namespace Indices

def start : Indices := ⟨0, 0, 0, []⟩

def stand (source : List UInt8) (x : Indices) : Stand :=
  ⟨.ofIndex source x.pos, .ofIndex source x.prev, .ofIndex source x.mark⟩

/-- The index remembered under number `i`, that of the cursor if there is none. -/
def place (x : Indices) (i : Nat) : Nat := x.saved.getD i x.pos

def ahead (source : List UInt8) (x : Indices) : List Char := (chars source).drop x.pos

/-- The bytes of the characters since the mark. -/
def text (source : List UInt8) (x : Indices) : List UInt8 := source.extract (width x.mark source) (width x.pos source)

/-- Goes on by `n` characters.  If the one behind them was looked at, it was read last and is put back; otherwise the
last of the `n` was. -/
def further (n : Nat) (looked : Prop) [Decidable looked] (x : Indices) : Indices :=
  { x with pos := x.pos + n, prev := if looked then x.pos + n else if n = 0 then x.prev else x.pos + n - 1 }

/-- The longest text ahead of characters of a class, no longer than a bound if there is one. -/
def longestRun (source : List UInt8) (x : Indices) (p : Char → Bool) (max? : Option Nat) : Nat :=
  longest (min (max?.getD (x.ahead source).length) (x.ahead source).length)
    fun n => ((x.ahead source).take n).all p = true

/-- The longest text ahead that a word begins with, whatever the case of the letters. -/
def longestMatch (source : List UInt8) (x : Indices) (word : List Char) : Nat :=
  longest (min word.length (x.ahead source).length)
    fun n => sameWord (word.take n) ((x.ahead source).take n) = true

def perform (source : List UInt8) (x : Indices) : Operation → Answer × Indices
  | .next =>
    (.char (chars source)[x.pos]?, { x with pos := min (x.pos + 1) (chars source).length, prev := x.pos })
  | .peek => (.char (chars source)[x.pos]?, { x with prev := x.pos })
  | .backup => (.done, { x with pos := x.prev })
  | .rewind => (.done, { x with pos := x.mark, prev := x.mark })
  | .ignore => (.done, { x with mark := x.pos })
  | .save => (.position (.ofIndex source x.pos), { x with saved := x.saved ++ [x.pos] })
  | .reset i => (.done, { x with pos := x.place i, prev := x.place i })
  | .emit kind => (.token ⟨kind, x.text source, .ofIndex source x.mark⟩, { x with mark := x.pos })
  | .lit => (.text (x.text source), x)
  | .accept set =>
    if (chars source)[x.pos]?.any set.contains then (.flag true, { x with pos := x.pos + 1, prev := x.pos })
    else (.flag false, { x with prev := x.pos })
  | .acceptWhile p max? =>
    let n := x.longestRun source p max?
    (.count n, x.further n (max? ≠ some n))
  | .acceptWord word =>
    let n := x.longestMatch source word
    (.count n, x.further n (n ≠ word.length))

def trace (source : List UInt8) : Indices → List Operation → List (Answer × Stand)
  | _, [] => []
  | x, o :: os =>
    ((x.perform source o).1, (x.perform source o).2.stand source) :: trace source (x.perform source o).2 os

/-- A place remembered under number `i` lies between the mark and where the cursor is. -/
def Remembers (x : Indices) (i : Nat) : Prop := ∃ k ∈ x.saved[i]?, x.mark ≤ k ∧ k ≤ x.pos

instance (x : Indices) (i : Nat) : Decidable (x.Remembers i) :=
  inferInstanceAs (Decidable (∃ k ∈ x.saved[i]?, x.mark ≤ k ∧ k ≤ x.pos))

/-- The operation may send the cursor back: to a place remembered behind the mark. -/
def MayReset (x : Indices) : Operation → Prop
  | .reset i => x.Remembers i
  | _ => True

instance (x : Indices) : ∀ o, Decidable (x.MayReset o)
  | .reset i => inferInstanceAs (Decidable (x.Remembers i))
  | .next | .peek | .backup | .rewind | .ignore | .save | .emit _ | .lit | .accept _ | .acceptWhile ..
  | .acceptWord _ => inferInstanceAs (Decidable True)

/-- No operation leaves the cursor before its mark, or sends it back to a place not remembered behind the mark. -/
def PermitsAll (source : List UInt8) : Indices → List Operation → Prop
  | _, [] => True
  | x, o :: os =>
    x.MayReset o ∧ (x.perform source o).2.mark ≤ (x.perform source o).2.pos ∧
      PermitsAll source (x.perform source o).2 os

instance decidablePermitsAll (source : List UInt8) : ∀ (x : Indices) (os : List Operation),
    Decidable (x.PermitsAll source os)
  | _, [] => inferInstanceAs (Decidable True)
  | x, o :: os =>
    have := decidablePermitsAll source (x.perform source o).2 os
    inferInstanceAs (Decidable (x.MayReset o ∧ _ ∧ _))

end Indices

/-! ## The longest text -/

theorem longest_eq_min {P : Nat → Prop} [DecidablePred P] {bound m : Nat} (h : ∀ n ≤ bound, P n ↔ n ≤ m) :
    longest bound P = min m bound := by
  refine Nat.findGreatest_eq_iff.2 ⟨Nat.min_le_right .., fun _ => ?_, fun n hn hbound hP => ?_⟩
  · exact (h _ (Nat.min_le_right ..)).2 (Nat.min_le_left ..)
  · have := (h n hbound).1 hP
    omega

theorem Text.all_take_iff (p : Char → Bool) : ∀ {n : Nat} {cs : List Char}, n ≤ cs.length →
    ((cs.take n).all p = true ↔ n ≤ run p cs)
  | 0, _, _ => by simp
  | n + 1, c :: cs, h => by
    have ih := all_take_iff p (Nat.le_of_succ_le_succ h)
    rw [List.take_succ_cons, List.all_cons, Bool.and_eq_true, ih, Text.run_cons]
    split <;> simp_all

theorem Caseless.sameWord_take_iff : ∀ {n : Nat} {word cs : List Char}, n ≤ min word.length cs.length →
    (sameWord (word.take n) (cs.take n) = true ↔ n ≤ matched word cs)
  | 0, _, _, _ => by simp [sameWord]
  | n + 1, [], _, h => by simp at h
  | n + 1, _ :: _, [], h => by simp at h
  | n + 1, w :: word, c :: cs, h => by
    have ih := @sameWord_take_iff n word cs (by simp only [List.length_cons] at h; omega)
    simp only [sameWord, decide_eq_true_eq] at ih
    simp only [sameWord, List.take_succ_cons, List.map_cons, List.cons.injEq, decide_eq_true_eq, matched, ih]
    split <;> simp_all

/-! ## What a cursor has read -/

namespace Cursor

variable {c : Cursor}

/-- The cursor `n` characters further on, the one behind them looked at and put back or not. -/
def further (n : Nat) (looked : Prop) [Decidable looked] (c : Cursor) : Cursor :=
  { c with
    pos := c.pos.advance n
    prev := if looked then c.pos.advance n else if n = 0 then c.prev else c.pos.advance (n - 1) }

theorem peek_eq (c : Cursor) : c.peek = (c.ahead.head?, c.advance 0) := by
  rw [peek, next_eq]
  rfl

theorem accept_eq (set : List Char) (c : Cursor) :
    c.accept set = if c.ahead.head?.any set.contains then (true, c.advance 1) else (false, c.advance 0) := by
  rw [accept, next_eq]
  cases c.ahead.head? <;> rfl

theorem further_zero_of_not {looked : Prop} [Decidable looked] (h : ¬ looked) : c.further 0 looked = c := by
  simp [further, h]

theorem further_zero_of {looked : Prop} [Decidable looked] (h : looked) : c.further 0 looked = c.advance 0 := by
  simp [further, h, advance]

theorem further_succ {n : Nat} {looked looked' : Prop} [Decidable looked] [Decidable looked'] (h : looked ↔ looked') :
    (c.advance 1).further n looked = c.further (n + 1) looked' := by
  have hadd : ∀ m, (c.pos.advance 1).advance m = c.pos.advance (m + 1) := fun m => by
    rw [← Place.advance_add, Nat.add_comm]
  simp only [further, advance, hadd, h]
  cases n <;> simp

/-- One round of the loop. -/
theorem acceptWhile_eq_next (p : Char → Bool) {max? : Option Nat} (h : max? ≠ some 0) :
    c.acceptWhile p max? =
      match c.ahead.head? with
      | some x =>
        if p x then
          (((c.advance 1).acceptWhile p (max?.map (· - 1))).1 + 1, ((c.advance 1).acceptWhile p (max?.map (· - 1))).2)
        else (0, c.advance 0)
      | none => (0, c.advance 0) := by
  have hnext := c.next_eq
  rw [acceptWhile, if_neg h]
  split <;> (rename_i heq; obtain ⟨hhead, rfl⟩ := Prod.mk.inj (hnext.symm.trans heq); rw [hhead]; rfl)

/-- **A run is read to its end**, or to the bound. -/
theorem acceptWhile_eq (p : Char → Bool) {cs : List Char} (h : c.ahead = cs) (max? : Option Nat) {n : Nat}
    (hn : n = min (max?.getD cs.length) (run p cs)) :
    c.acceptWhile p max? = (n, c.further n (max? ≠ some n)) := by
  -- The bound goes down with the text, so that it is met where `n` is, and not looked past there.
  induction cs generalizing c max? n with
  | nil =>
    obtain rfl : n = 0 := by simpa using hn
    by_cases hmax : max? = some 0
    · rw [acceptWhile, if_pos hmax, further_zero_of_not (by simp [hmax])]
    · rw [acceptWhile_eq_next p hmax, h, further_zero_of hmax]
      rfl
  | cons x cs ih =>
    by_cases hmax : max? = some 0
    · obtain rfl : n = 0 := by simpa [hmax] using hn
      rw [acceptWhile, if_pos hmax, further_zero_of_not (by simp [hmax])]
    have hahead : (c.advance 1).ahead = cs := by rw [ahead_advance, h, List.drop_one, List.tail_cons]
    rw [acceptWhile_eq_next p hmax, h, List.head?_cons]
    cases hp : p x with
    | true =>
      rw [Text.run_cons, if_pos hp, List.length_cons] at hn
      obtain ⟨m, rfl, hm⟩ : ∃ m, n = m + 1 ∧ m = min ((max?.map (· - 1)).getD cs.length) (run p cs) := by
        cases max? with
        | none => exact ⟨_, hn.trans (Nat.add_min_add_right ..), rfl⟩
        | some bound =>
          simp only [Option.some.injEq] at hmax
          simp only [Option.getD_some] at hn
          exact ⟨n - 1, by omega, by simp only [Option.map_some, Option.getD_some]; omega⟩
      have hlooked : max?.map (· - 1) ≠ some m ↔ max? ≠ some (m + 1) := by
        cases max? with
        | none => simp
        | some bound =>
          simp only [Option.some.injEq] at hmax
          simp only [Option.map_some, ne_eq, Option.some.injEq]
          omega
      simp only [hp, if_true, ih hahead _ hm, further_succ hlooked]
    | false =>
      obtain rfl : n = 0 := by simpa [Text.run_cons, hp] using hn
      simp only [hp, Bool.false_eq_true, if_false]
      rw [further_zero_of hmax]

theorem acceptWord_eq (word : List Char) {cs : List Char} (h : c.ahead = cs) :
    c.acceptWord word = (matched word cs, c.further (matched word cs) (matched word cs ≠ word.length)) := by
  induction word generalizing c cs with
  | nil => rw [acceptWord, matched, further_zero_of_not (by simp)]
  | cons w word ih =>
    cases cs with
    | nil =>
      rw [acceptWord, next_eq, h, matched, further_zero_of (by simp)]
      rfl
    | cons x cs =>
      have hahead : (c.advance 1).ahead = cs := by rw [ahead_advance, h, List.drop_one, List.tail_cons]
      rw [acceptWord, next_eq, h, List.head?_cons, matched]
      by_cases hx : fold x = fold w
      · have hlooked : matched word cs ≠ word.length ↔ matched word cs + 1 ≠ (w :: word).length := by simp
        simp only [hx, if_true, ih hahead, further_succ hlooked]
      · simp only [hx, Ne.symm hx, if_false]
        rw [further_zero_of (by simp)]
        rfl

end Cursor

/-! ## The refinement -/

/-- Place number `k` of a source, and the places the numbers stand for. -/
abbrev placeAt (source : List UInt8) (k : Nat) : Place := Place.advance k ⟨.start, source⟩

/-- The cursor is where the indices say. -/
structure Refines (source : List UInt8) (x : Indices) (s : Bookmarked) : Prop where
  pos   : s.cursor.pos = placeAt source x.pos
  prev  : s.cursor.prev = placeAt source x.prev
  mark  : s.cursor.mark = placeAt source x.mark
  saved : s.saved = x.saved.map (placeAt source)

namespace Refines

variable {source : List UInt8} {x : Indices} {s : Bookmarked}

theorem start (source : List UInt8) : Refines source .start (.ofBytes source) := ⟨rfl, rfl, rfl, rfl⟩

theorem stand (h : Refines source x s) : s.stand = x.stand source := by
  simp only [Bookmarked.stand, h.pos, h.prev, h.mark, Place.position_advance_start, Indices.stand]

theorem ahead (h : Refines source x s) : s.cursor.ahead = x.ahead source := by
  rw [Cursor.ahead, h.pos, Place.ahead_advance]
  rfl

theorem place (h : Refines source x s) (i : Nat) : s.place i = placeAt source (x.place i) := by
  rw [Bookmarked.place, Indices.place, h.saved, h.pos, List.getD_eq_getElem?_getD, List.getD_eq_getElem?_getD,
    List.getElem?_map, Option.getD_map]

theorem lit (h : Refines source x s) : s.cursor.lit = x.text source := by
  rw [Cursor.lit, Place.slice, h.pos, h.mark, Place.rest_advance, Place.offset_advance, Place.offset_advance,
    Nat.add_sub_add_left]
  rfl

/-- **Reading on** keeps the cursor where the indices say. -/
theorem further (h : Refines source x s) (n : Nat) (looked : Prop) [Decidable looked] :
    Refines source (x.further n looked) ⟨s.cursor.further n looked, s.saved⟩ where
  pos := by
    simp only [Cursor.further, h.pos, ← Place.advance_add]
    rfl
  prev := by
    simp only [Cursor.further, h.pos, h.prev, ← Place.advance_add, Indices.further]
    split
    · rfl
    · split
      · rfl
      · congr 1
        omega
  mark := h.mark
  saved := h.saved

theorem advance (h : Refines source x s) (n : Nat) {k : Nat} (hk : placeAt source k = placeAt source (x.pos + n)) :
    Refines source { x with pos := k, prev := x.pos } ⟨s.cursor.advance n, s.saved⟩ where
  pos := by
    rw [hk, placeAt, Place.advance_add, ← placeAt, ← h.pos]
    rfl
  prev := h.pos
  mark := h.mark
  saved := h.saved

theorem head?_ahead (h : Refines source x s) : s.cursor.ahead.head? = (chars source)[x.pos]? := by
  rw [h.ahead, Indices.ahead, List.head?_drop]

theorem acceptWhile (h : Refines source x s) (p : Char → Bool) (max? : Option Nat) {n : Nat}
    (hn : n = x.longestRun source p max?) :
    s.cursor.acceptWhile p max? = (n, s.cursor.further n (max? ≠ some n)) := by
  refine Cursor.acceptWhile_eq p h.ahead max? ?_
  rw [hn, Indices.longestRun, longest_eq_min fun n hn => Text.all_take_iff p (Nat.le_trans hn (Nat.min_le_right ..))]
  have hle := Text.run_le p (x.ahead source)
  omega

theorem acceptWord (h : Refines source x s) (word : List Char) {n : Nat} (hn : n = x.longestMatch source word) :
    s.cursor.acceptWord word = (n, s.cursor.further n (n ≠ word.length)) := by
  have hleft := Caseless.matched_le_left word (x.ahead source)
  have hright := Caseless.matched_le_right word (x.ahead source)
  have hmatched : n = matched word (x.ahead source) := by
    rw [hn, Indices.longestMatch, longest_eq_min fun n hn => Caseless.sameWord_take_iff hn]
    omega
  rw [hmatched, Cursor.acceptWord_eq word h.ahead]

/-- **One operation** answers the same, and leaves the cursor where the indices say. -/
theorem perform (h : Refines source x s) (o : Operation) :
    (s.perform o).1 = (x.perform source o).1 ∧ Refines source (x.perform source o).2 (s.perform o).2 := by
  cases o with
  | next =>
    -- At the end the index is held back, and the cursor stays where it is.
    have hmin : placeAt source (min (x.pos + 1) (chars source).length) = placeAt source (x.pos + 1) :=
      Place.advance_min (x.pos + 1) ⟨.start, source⟩
    simp only [Bookmarked.perform, Cursor.next_eq, h.head?_ahead]
    exact ⟨rfl, h.advance 1 hmin⟩
  | peek =>
    simp only [Bookmarked.perform, Cursor.peek_eq, h.head?_ahead]
    exact ⟨rfl, h.advance 0 rfl⟩
  | backup => exact ⟨rfl, h.prev, h.prev, h.mark, h.saved⟩
  | rewind => exact ⟨rfl, h.mark, h.mark, h.mark, h.saved⟩
  | ignore => exact ⟨rfl, h.pos, h.prev, h.pos, h.saved⟩
  | save =>
    have hposition : s.cursor.position = .ofIndex source x.pos := congrArg Stand.pos h.stand
    refine ⟨congrArg Answer.position hposition, h.pos, h.prev, h.mark, ?_⟩
    simp only [Bookmarked.perform, Indices.perform, h.saved, h.pos, List.map_append, List.map_cons, List.map_nil]
  | reset i => exact ⟨rfl, h.place i, h.place i, h.mark, h.saved⟩
  | emit kind =>
    have hmark : s.cursor.mark.position = .ofIndex source x.mark := congrArg Stand.mark h.stand
    refine ⟨?_, h.pos, h.prev, h.pos, h.saved⟩
    simp only [Bookmarked.perform, Cursor.emit, h.lit, hmark, Indices.perform]
  | lit => exact ⟨congrArg Answer.text h.lit, h⟩
  | accept set =>
    simp only [Bookmarked.perform, Cursor.accept_eq, h.head?_ahead, Indices.perform]
    split
    · exact ⟨rfl, h.advance 1 rfl⟩
    · exact ⟨rfl, h.advance 0 rfl⟩
  | acceptWhile p max? =>
    simp only [Bookmarked.perform, h.acceptWhile p max? rfl]
    exact ⟨rfl, h.further _ _⟩
  | acceptWord word =>
    simp only [Bookmarked.perform, h.acceptWord word rfl]
    exact ⟨rfl, h.further _ _⟩

theorem trace (h : Refines source x s) (os : List Operation) : s.trace os = x.trace source os := by
  induction os generalizing x s with
  | nil => rfl
  | cons o os ih =>
    obtain ⟨hanswer, hafter⟩ := h.perform o
    rw [Bookmarked.trace, Indices.trace, hanswer, hafter.stand, ih hafter]

/-! ## The checks hold -/

theorem checked_lit (h : Refines source x s) (hle : x.mark ≤ x.pos) :
    Checked.lit source s.cursor = .ok s.cursor.lit := by
  have hwithin := Utf8.width_le x.pos source
  have hmono := Utf8.width_mono hle source
  have hpos : s.cursor.pos.position.offset = width x.pos source := congrArg (·.pos.offset) h.stand
  have hmark : s.cursor.mark.position.offset = width x.mark source := congrArg (·.mark.offset) h.stand
  rw [Checked.lit, hpos, hmark, if_pos ⟨hmono, hwithin⟩, h.lit]
  rfl

theorem checked_perform (h : Refines source x s) (hle : x.mark ≤ x.pos) {o : Operation} (hreset : x.MayReset o) :
    Checked.perform source s o = .ok (s.perform o) := by
  cases o with
  | lit => rw [Checked.perform, h.checked_lit hle]; rfl
  | emit kind => rw [Checked.perform, Checked.emit, h.checked_lit hle]; rfl
  | reset i =>
    obtain ⟨k, hk, hmark, hpos⟩ := hreset
    have hplace : s.place i = placeAt source k := by
      rw [h.place, Indices.place, List.getD_eq_getElem?_getD, hk, Option.getD_some]
    have hat : ∀ {j : Nat} {p : Place}, p = placeAt source j → p.position.offset = width j source := by
      rintro j p rfl
      rw [Place.position_advance_start, Position.ofIndex]
    have hguard : s.cursor.mark.position.offset ≤ (s.place i).position.offset ∧
        (s.place i).position.offset ≤ s.cursor.pos.position.offset := by
      rw [hat h.mark, hat h.pos, hat hplace]
      exact ⟨Utf8.width_mono hmark source, Utf8.width_mono hpos source⟩
    rw [Checked.perform, Checked.reset, if_pos hguard]
    rfl
  | _ => rfl

theorem checked_trace (h : Refines source x s) (hle : x.mark ≤ x.pos) {os : List Operation}
    (hos : x.PermitsAll source os) : Checked.trace source s os = .ok (s.trace os) := by
  induction os generalizing x s with
  | nil => rfl
  | cons o os ih =>
    obtain ⟨hreset, hstays, hrest⟩ := hos
    obtain ⟨-, hafter⟩ := h.perform o
    rw [Checked.trace, h.checked_perform hle hreset]
    simp only [Checked.ok_bind, ih hafter hstays hrest]
    rfl

end Refines

/-- **A cursor does what its indices do**: any operations answer the same and leave the cursor, its last reading and its
mark at the positions of the three indices, after each of them.  None of them faults. -/
theorem trace_eq_indices (source : List UInt8) (os : List Operation) (h : Indices.start.PermitsAll source os) :
    (Bookmarked.ofBytes source).trace os = Indices.start.trace source os ∧
      Checked.trace source (.ofBytes source) os = .ok (Indices.start.trace source os) := by
  have hstart := Refines.start source
  have htrace := hstart.trace os
  exact ⟨htrace, htrace ▸ hstart.checked_trace (Nat.le_refl 0) h⟩

/-- A run ended by its bound, its last character taken back; a word that the text leaves half-way; and the cursor sent
back behind it. -/
theorem trace_eq_indices_bounded_run :
    ((Bookmarked.ofBytes [0x61, 0x62, 0x0A, 0xCE, 0xBB]).trace
        [.acceptWhile Char.isAlpha (some 2), .backup, .ignore, .save, .acceptWord ['B', '\n', '.'], .reset 0, .next,
          .emit .identifier]).map Prod.fst =
      [.count 2, .done, .done, .position ⟨1, 1, 2⟩, .count 2, .done, .char (some 'b'),
        .token ⟨.identifier, [0x62], ⟨1, 1, 2⟩⟩] := by
  have htrace := trace_eq_indices [0x61, 0x62, 0x0A, 0xCE, 0xBB]
    [.acceptWhile Char.isAlpha (some 2), .backup, .ignore, .save, .acceptWord ['B', '\n', '.'], .reset 0, .next,
      .emit .identifier] (by decide +kernel)
  rw [htrace.1]
  decide +kernel

end SchemeLexer
