import SchemeLexer.Proofs.Number.Recognition
import SchemeLexer.Proofs.Places
/-!
# Numerals — numbers read from a source

What a cursor reads of a source when it looks for a number, in bytes.  `consume_complex_iff` says which sources begin
with a numeral that a delimiter follows, and that the numeral is what is read; and that nothing else is ever read, nor
less than there is.
-/
namespace SchemeLexer
namespace Number

open Utf8 (ascii chars width)
open Grammar

theorem numeral_iff {r : Radix} {w : List UInt8} : Numeral r w ↔ ∃ cs, Complex r cs ∧ w = ascii cs := by
  constructor
  · rintro ⟨cs, hcs, rfl⟩; exact ⟨cs, hcs, Utf8.encode_ascii hcs.isAscii⟩
  · rintro ⟨cs, hcs, rfl⟩; exact ⟨cs, hcs, (Utf8.encode_ascii hcs.isAscii).symm⟩

/-- A text of bytes is a numeral if it reads as a number. -/
theorem numeral_iff_chars {r : Radix} {w : List UInt8} : Numeral r w ↔ Complex r (chars w) := by
  rw [numeral_iff]
  constructor
  · rintro ⟨cs, hcs, rfl⟩
    rwa [Utf8.chars_ascii hcs.isAscii]
  · intro h
    exact ⟨chars w, h, Utf8.eq_ascii_of_chars h.isAscii rfl⟩

theorem lit_ascii {cs : List Char} (h : Utf8.IsAscii cs) (rest : List UInt8) :
    ((Cursor.ofBytes (ascii cs ++ rest)).advance cs.length).lit = ascii cs := by
  rw [Cursor.lit_advance_ofBytes, Utf8.width_ascii_append h, List.take_left' (Utf8.length_ascii cs)]

theorem ahead_ascii {cs : List Char} (h : Utf8.IsAscii cs) (rest : List UInt8) :
    ((Cursor.ofBytes (ascii cs ++ rest)).advance cs.length).ahead = chars rest := by
  rw [Cursor.ahead_advance, Cursor.ahead_ofBytes, Utf8.chars_ascii_append h, List.drop_left]

/-- What a cursor has read where the rule for numbers finds one. -/
theorem consume_complex_ok {r : Radix} {s : List UInt8} (h : (complex r (chars s)).error? = none) :
    ∃ cs rest, s = ascii cs ++ rest ∧ Complex r cs ∧ (complex r (chars s)).taken = cs.length := by
  obtain ⟨cs, t, hs, hcs, ht⟩ := complex_sound h
  obtain ⟨rest, hrest, -⟩ := Utf8.eq_ascii_append hcs.isAscii hs
  exact ⟨cs, rest, hrest, hcs, ht⟩

/-- **Numbers are recognised exactly.**  Of a source a numeral is read, with a delimiter or the end behind it, exactly
when the source begins with that numeral and such a rest follows; and what is read without an error is a numeral in
any case, the longest that the source begins with. -/
theorem consume_complex_iff (r : Radix) (s : List UInt8) :
    let read := (Cursor.ofBytes s).consume (complex r)
    (∀ w, (read.1 = none ∧ endsToken read.2.peek.1 = true ∧ read.2.lit = w) ↔
      ∃ rest, s = w ++ rest ∧ Numeral r w ∧ endsToken (chars rest).head? = true) ∧
    (read.1 = none → Numeral r read.2.lit ∧ read.2.lit <+: s ∧
      ∀ w, w <+: s → Numeral r w → w.length ≤ read.2.lit.length) := by
  simp only [Cursor.consume_fst, Cursor.consume_snd, Cursor.peek_fst, Cursor.ahead_ofBytes]
  refine ⟨fun w => ⟨?_, ?_⟩, fun hok => ?_⟩
  · rintro ⟨hok, hend, rfl⟩
    obtain ⟨cs, rest, rfl, hcs, ht⟩ := consume_complex_ok hok
    rw [ht, ahead_ascii hcs.isAscii] at hend
    rw [ht, lit_ascii hcs.isAscii]
    exact ⟨rest, rfl, numeral_iff.2 ⟨cs, hcs, rfl⟩, hend⟩
  · rintro ⟨rest, rfl, hw, hend⟩
    obtain ⟨cs, hcs, rfl⟩ := numeral_iff.1 hw
    rw [Utf8.chars_ascii_append hcs.isAscii, complex_complete hcs hend]
    refine ⟨rfl, ?_, lit_ascii hcs.isAscii rest⟩
    rw [Reading.accept, ahead_ascii hcs.isAscii]
    exact hend
  · obtain ⟨cs, rest, hs, hcs, ht⟩ := consume_complex_ok hok
    have hlit : ((Cursor.ofBytes s).advance (complex r (chars s)).taken).lit = ascii cs := by
      rw [ht, hs, lit_ascii hcs.isAscii]
    rw [hlit]
    refine ⟨numeral_iff.2 ⟨cs, hcs, rfl⟩, ⟨rest, hs.symm⟩, ?_⟩
    rintro w ⟨t, rfl⟩ hw
    obtain ⟨ds, hds, rfl⟩ := numeral_iff.1 hw
    rw [Utf8.chars_ascii_append hds.isAscii] at hok ht
    have := complex_longest hds hok
    rw [Utf8.length_ascii, Utf8.length_ascii]
    omega

end Number
end SchemeLexer
