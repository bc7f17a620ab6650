import SchemeLexer.Proofs.Encodings
import SchemeLexer.Proofs.Positions
import SchemeLexer.Proofs.Tiling
/-!
# Readings — what a cursor finds, from one end of a source to the other

A cursor that reads to the end of a source finds its lossy decoding, one glyph at a reading (`readings_eq`).  The places
where it stops are the only places where a source may be cut: what stands between two of them is read as it was in the
source (`readings_extract`).  A token is cut out between two of them, so that what it shows is what was read
(`ReadAs.of_isCut`).
-/
namespace SchemeLexer

open Utf8 (Glyph Decodes WellFormed decode chars isValid width)

namespace Utf8

/-- **What stands between two glyphs** is read as it was in the source. -/
theorem decode_extract (j k : Nat) (bs : List UInt8) :
    decode (bs.extract (width j bs) (width k bs)) = (decode bs).extract j k := by
  rcases Nat.le_total k j with h | h
  · have hwidth := width_mono h bs
    simp only [List.extract_eq_take_drop, Nat.sub_eq_zero_of_le hwidth, Nat.sub_eq_zero_of_le h, List.take_zero,
      decode_nil]
  · have hadd := width_add j (k - j) bs
    rw [Nat.add_sub_cancel' h] at hadd
    rw [List.extract_eq_take_drop, List.extract_eq_take_drop, hadd, Nat.add_sub_cancel_left, decode_take, decode_drop]

theorem Initial.length_le {u : List UInt8} (h : Initial u) : u.length ≤ 4 := by
  obtain ⟨c, hc⟩ := h
  calc u.length ≤ (String.utf8EncodeChar c).length := hc.length_le
    _ = c.utf8Size := String.length_utf8EncodeChar c
    _ ≤ 4 := c.utf8Size_le_four

theorem Glyph.trail_le_three (b : UInt8) (bs : List UInt8) : (Glyph.read b bs).trail ≤ 3 := by
  have hinitial : (b :: bs.take (Glyph.read b bs).trail).length ≤ 4 := by
    cases h : (Glyph.read b bs).wellFormed with
    | true =>
      refine Initial.length_le ⟨(Glyph.read b bs).char, [], ?_⟩
      rw [List.append_nil, Glyph.encodeChar_of_wellFormed h]
    | false =>
      rcases (Glyph.maximalSubpart_of_illFormed h).initial with hone | ⟨-, hinitial⟩
      · omega
      · exact hinitial.length_le
  rw [List.length_cons, List.length_take, Nat.min_eq_left (Glyph.read_trail_le b bs)] at hinitial
  omega

/-- **Four bytes are enough** to read a glyph. -/
theorem head?_decode_take (bs : List UInt8) : (decode (bs.take 4)).head? = (decode bs).head? := by
  cases bs with
  | nil => rfl
  | cons b bs =>
    rw [List.take_succ_cons, decode_cons, decode_cons, List.head?_cons, List.head?_cons,
      Glyph.read_take b bs 3 (Glyph.trail_le_three b bs)]

end Utf8

namespace Cursor

/-- The readings of a cursor up to the end of its source: each character, and how far the cursor went. -/
def readings (c : Cursor) : List (Char × Nat) :=
  match _h : c.next with
  | (none, _) => []
  | (some x, d) => (x, d.position.offset - c.position.offset) :: readings d
termination_by c.pos.rest.length
decreasing_by exact next_rest_lt ‹_›

/-- The cursor after `n` readings. -/
def afterReadings : Nat → Cursor → Cursor
  | 0, c => c
  | n + 1, c => afterReadings n c.next.2

/-- Where a cursor stops that has read `n` characters of a source. -/
def stop (source : List UInt8) (n : Nat) : Nat := (afterReadings n (.ofBytes source)).position.offset

/-- **Reading to the end** finds every glyph of what is ahead. -/
theorem readings_eq (c : Cursor) : c.readings = (decode c.pos.rest).map fun g => (g.char, g.width) := by
  rw [readings]
  split
  · rename_i d hd
    have hahead : c.ahead = [] := by
      rw [next_eq] at hd
      exact List.head?_eq_none_iff.1 (Prod.mk.inj hd).1
    rw [Utf8.chars_eq_nil hahead, Utf8.decode_nil, List.map_nil]
  · rename_i x d hd
    have ih := readings_eq d
    obtain ⟨⟨q, rest⟩, prev, mark⟩ := c
    cases rest with
    | nil => cases hd
    | cons b bs =>
      obtain ⟨hx, rfl⟩ := Prod.mk.inj hd
      obtain rfl := Option.some.inj hx
      have hwidth : (q.after (Glyph.read b bs)).offset - q.offset = (Glyph.read b bs).width := by
        rw [Position.after_offset, Nat.add_sub_cancel_left]
      rw [ih, Utf8.decode_cons, List.map_cons]
      simp only [position, hwidth]
termination_by c.pos.rest.length
decreasing_by exact next_rest_lt ‹_›

theorem pos_afterReadings (n : Nat) (c : Cursor) : (afterReadings n c).pos = Place.advance n c.pos := by
  induction n generalizing c with
  | zero => rfl
  | succ n ih => rw [afterReadings, ih, next_eq, Nat.add_comm, Place.advance_add]; rfl

theorem stop_eq_width (source : List UInt8) (n : Nat) : stop source n = width n source := by
  rw [stop, position, pos_afterReadings, Place.offset_advance]
  exact Nat.zero_add _

/-- **What stands between two stops** is read as it was in the source. -/
theorem readings_extract (source : List UInt8) (j k : Nat) :
    (ofBytes (source.extract (stop source j) (stop source k))).readings = (ofBytes source).readings.extract j k := by
  rw [readings_eq, readings_eq, stop_eq_width, stop_eq_width]
  simp only [ofBytes]
  rw [Utf8.decode_extract, List.extract_eq_take_drop, List.extract_eq_take_drop, List.map_take, List.map_drop]

end Cursor

/-- Glyphs that are what a cursor finds in a source. -/
structure Cursor.Finds (source : List UInt8) (gs : List Glyph) : Prop where
  readings : (ofBytes source).readings = gs.map fun g => (g.char, g.width)
  positive : ∀ g ∈ gs, 0 < g.width
  total    : (gs.map Glyph.width).sum = source.length
  /-- Four bytes from where a glyph stands are enough to find it. -/
  window   : ∀ n, (decode ((source.drop (stop source n)).take 4)).head? = gs[n]?
  encoded  : WellFormed source → (gs.map Glyph.char).flatMap String.utf8EncodeChar = source
  /-- What stands between two stops is read by itself as it was in the source. -/
  between  : ∀ j k, (ofBytes (source.extract (stop source j) (stop source k))).readings =
    (ofBytes source).readings.extract j k

theorem Cursor.finds_decode (source : List UInt8) : Finds source (decode source) where
  readings := readings_eq (ofBytes source)
  positive g _ := Nat.succ_pos g.trail
  total := Utf8.sum_width_decode source
  window n := by
    rw [Utf8.head?_decode_take, stop_eq_width, Utf8.decode_drop, List.head?_drop]
  encoded h := Utf8.flatMap_encodeChar_of_isValid (Utf8.isValid_iff.2 h)
  between := readings_extract source

/-! ## Tokens -/

/-- A token that stands for glyphs of a source, from number `j` up to number `k`: it shows their characters, and has a
text if they are all well-formed. -/
structure Token.Shows (source : List UInt8) (gs : List Glyph) (j k : Nat) (t : Token) : Prop where
  start   : t.position.offset = Cursor.stop source j
  stop    : t.stop = Cursor.stop source k
  text    : t.text = source.extract (Cursor.stop source j) (Cursor.stop source k)
  display : t.display =
    s!"[{t.position.offset}..{t.stop}] {t.position.text} {t.kind.name} {Quoted.string ((gs.extract j k).map (·.char))}"
  text?   : t.text?.isSome = true ↔ ∀ g ∈ gs.extract j k, g.wellFormed = true

/-- **A text cut out of a source** shows what was read there. -/
theorem Token.shows_of_isCut {source : List UInt8} {t : Token} (h : Scanner.IsCut source t) :
    ∃ j k, j ≤ k ∧ t.Shows source (decode source) j k := by
  obtain ⟨j, n, kind, rfl⟩ := h
  have hwithin := (Place.within_start source).advance j
  have hstart : (Place.advance j ⟨.start, source⟩).position.offset = Cursor.stop source j := by
    rw [Cursor.stop_eq_width, Place.offset_advance]
    exact Nat.zero_add _
  have hstop : (Place.advance n (Place.advance j ⟨.start, source⟩)).position.offset = Cursor.stop source (j + n) := by
    rw [← Place.advance_add, Cursor.stop_eq_width, Place.offset_advance]
    exact Nat.zero_add _
  have htext : ((Place.advance j ⟨.start, source⟩).token kind n).text =
      source.extract (Cursor.stop source j) (Cursor.stop source (j + n)) := by
    rw [Place.token, hwithin.slice, hstart, hstop]
  have hdecode : decode ((Place.advance j ⟨.start, source⟩).token kind n).text =
      (decode source).extract j (j + n) := by
    rw [htext, Cursor.stop_eq_width, Cursor.stop_eq_width, Utf8.decode_extract]
  refine ⟨j, j + n, Nat.le_add_right .., hstart, (Place.stop_token ..).trans hstop, htext, ?_, ?_⟩
  · rw [display, chars, hdecode]
  · rw [text?, isValid, hdecode, ← List.all_eq_true]
    split <;> simp_all

theorem Token.Shows.text?_of_wellFormed {source : List UInt8} {j k : Nat} {t : Token}
    (h : t.Shows source (decode source) j k) (hsource : WellFormed source) : t.text?.isSome = true := by
  have hall := List.all_eq_true.1 (Utf8.isValid_iff.2 hsource)
  refine h.text?.2 fun g hg => hall g ?_
  rw [List.extract_eq_take_drop] at hg
  exact List.mem_of_mem_drop (List.mem_of_mem_take hg)

/-- **A source is read as its lossy decoding**, of which its tokens are texts: the cursor finds it glyph by glyph, and
any token that a scanner hands out shows the glyphs that it stands for. -/
theorem decoding (name : String) (source : List UInt8) :
    ∃ gs, (∀ hs, Decodes source hs ↔ hs = gs) ∧ Cursor.Finds source gs ∧
      ∀ calls t, some t ∈ (Scanner.ofBytes name source).answers calls →
        (∃ j k, j ≤ k ∧ t.Shows source gs j k) ∧ (WellFormed source → t.text?.isSome = true) := by
  refine ⟨decode source, fun hs => Utf8.decodes_iff, Cursor.finds_decode source, fun calls t ht => ?_⟩
  have hreached : (Scanner.ofBytes name source).Reached source := ⟨rfl, 0, rfl⟩
  obtain ⟨j, k, hle, hshows⟩ := Token.shows_of_isCut (hreached.isCut ht)
  exact ⟨⟨j, k, hle, hshows⟩, hshows.text?_of_wellFormed⟩

end SchemeLexer
