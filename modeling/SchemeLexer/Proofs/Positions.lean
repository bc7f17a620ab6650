import Mathlib.Data.List.Induction
import SchemeLexer.Proofs.Sessions
/-!
# Positions — where a token stands, counted from its source

A position is kept up one character at a time.  `Position.ofIndex` counts it anew: the bytes, the newlines, and the
characters since the last newline among those that stand before it.  `position_answers` says that every token that a
scanner hands out stands at such a position, the tokens behind the end of its stream and the invalid one included.

`Reached` is the invariant of a scanner between two calls.
-/
namespace SchemeLexer

open Utf8 (Glyph width)

/-- The position before character number `k` of a source. -/
def Position.ofIndex (source : List UInt8) (k : Nat) : Position where
  offset := width k source
  line   := 1 + ((Utf8.chars source).take k).count '\n'
  column := 1 + (((Utf8.chars source).take k).reverse.takeWhile (· ≠ '\n')).length

/-- The position behind glyphs that stand at the start of a source. -/
theorem Position.foldl_after_start (gs : List Glyph) : gs.foldl after start =
    ⟨(gs.map Glyph.width).sum, 1 + (gs.map Glyph.char).count '\n',
      1 + ((gs.map Glyph.char).reverse.takeWhile (· ≠ '\n')).length⟩ := by
  induction gs using List.reverseRecOn with
  | nil => rfl
  | append_singleton gs g ih =>
    rw [List.foldl_append, ih, List.foldl_cons, List.foldl_nil, after]
    by_cases hg : g.char = '\n'
    · simp [hg, Nat.add_assoc]
    · simp [hg, Nat.add_assoc]

theorem Place.position_advance_start (k : Nat) (source : List UInt8) :
    (advance k ⟨.start, source⟩).position = Position.ofIndex source k := by
  rw [position_advance, Position.foldl_after_start, List.map_take (f := Glyph.char)]
  rfl

/-- Reading on at the end of a source leads nowhere. -/
theorem Place.advance_min (k : Nat) (p : Place) : advance (min k p.ahead.length) p = advance k p := by
  have hnil : (advance p.ahead.length p).rest = [] := by
    apply Utf8.chars_eq_nil
    rw [← ahead, ahead_advance, List.drop_length]
  have hend : ∀ n (q : Place), q.rest = [] → advance n q = q := by
    rintro n ⟨q, rest⟩ rfl
    exact advance_nil n q
  rcases Nat.le_total k p.ahead.length with h | h
  · rw [Nat.min_eq_left h]
  · rw [Nat.min_eq_right h, ← Nat.add_sub_cancel' h, advance_add, hend _ _ hnil]

namespace Scanner

variable {source : List UInt8} {s : Scanner}

/-- The scanner has read as far as some place of a source, and made tokens of all of it. -/
structure Reached (source : List UInt8) (s : Scanner) : Prop where
  mark : s.cursor.mark = s.cursor.pos
  pos  : ∃ k, s.cursor.pos = Place.advance k ⟨.start, source⟩

/-- A token of the source: the text between two of its places. -/
def IsCut (source : List UInt8) (t : Token) : Prop := ∃ k n kind, t = (Place.advance k ⟨.start, source⟩).token kind n

theorem Reached.pull (h : s.Reached source) : s.pull.scanner.Reached source ∧ IsCut source s.pull.token := by
  obtain ⟨k, hk⟩ := h.pos
  have hpull := brings_pull h.mark
  obtain ⟨m, n, kind, htoken, hpos⟩ := hpull.token
  rw [hk, ← Place.advance_add] at htoken hpos
  rw [← Place.advance_add] at hpos
  exact ⟨⟨hpull.mark, _, hpos⟩, k + m, n, kind, htoken⟩

theorem Reached.call (h : s.Reached source) (c : Call) :
    (s.call c).2.Reached source ∧ ∀ t, (s.call c).1 = some t → IsCut source t := by
  have hpull : s.pull.scanner.Reached source ∧ ∀ t, some s.pull.token = some t → IsCut source t :=
    ⟨h.pull.1, fun t ht => Option.some.inj ht ▸ h.pull.2⟩
  cases c with
  | pull => exact hpull
  | next =>
    cases hstop : s.isStopped with
    | true =>
      rw [call_of_stopped h.mark hstop]
      exact ⟨h, fun t ht => by cases ht⟩
    | false =>
      rw [call_of_running hstop]
      exact hpull

/-- **Every token is a text of the source**, whatever was called to bring it. -/
theorem Reached.isCut (h : s.Reached source) {calls : List Call} {t : Token} (ht : some t ∈ s.answers calls) :
    IsCut source t := by
  induction calls generalizing s with
  | nil => cases ht
  | cons c calls ih =>
    rw [Scanner.answers, List.mem_cons] at ht
    rcases ht with ht | ht
    · exact (h.call c).2 t ht.symm
    · exact ih (h.call c).1 ht

theorem Reached.answers (h : s.Reached source) {calls : List Call} {t : Token} (ht : some t ∈ s.answers calls) :
    ∃ k, t.position = (Place.advance k ⟨.start, source⟩).position := by
  obtain ⟨k, n, kind, rfl⟩ := h.isCut ht
  exact ⟨k, rfl⟩

/-- **Every token stands where the characters before it put it**, whatever was called to bring it. -/
theorem position_answers (name : String) (source : List UInt8) (calls : List Call) :
    ∀ t, some t ∈ (ofBytes name source).answers calls →
      ∃ k ≤ (Utf8.decode source).length, t.position = Position.ofIndex source k := by
  intro t ht
  have hreached : (ofBytes name source).Reached source := ⟨rfl, 0, rfl⟩
  obtain ⟨k, hk⟩ := hreached.answers ht
  have hlength : (Place.ahead ⟨.start, source⟩).length = (Utf8.decode source).length := List.length_map ..
  refine ⟨min k (Place.ahead ⟨.start, source⟩).length, ?_, ?_⟩
  · rw [hlength]
    exact Nat.min_le_right ..
  · rw [hk, ← Place.position_advance_start, Place.advance_min]

/-- A pull behind an error, the characters before it of one byte, of two, and of one that is ill-formed. -/
theorem position_answers_behind_error :
    some ⟨.endOfInput, [], ⟨8, 2, 5⟩⟩ ∈
        (ofBytes "text" [0x22, 0xCE, 0xBB, 0x0A, 0xFF, 0x22, 0x20, 0x23]).answers [.next, .next, .pull] ∧
      ∃ k ≤ 7, (⟨8, 2, 5⟩ : Position) = Position.ofIndex [0x22, 0xCE, 0xBB, 0x0A, 0xFF, 0x22, 0x20, 0x23] k := by
  have h : some ⟨.endOfInput, [], ⟨8, 2, 5⟩⟩ ∈
      (ofBytes "text" [0x22, 0xCE, 0xBB, 0x0A, 0xFF, 0x22, 0x20, 0x23]).answers [.next, .next, .pull] := by
    decide +kernel
  exact ⟨h, position_answers "text" _ _ _ h⟩

end Scanner
end SchemeLexer
