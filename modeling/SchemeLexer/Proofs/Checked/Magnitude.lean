import SchemeLexer.Proofs.Checked.Number
import SchemeLexer.Proofs.Indices
import SchemeLexer.Proofs.Number.Magnitude
/-!
# Checked/Magnitude — what a magnitude leaves behind

A rule that has asked for a magnitude and got none goes on where the cursor has been left: to the words `inf.0` and
`nan.0`, to a bare unit, or to the end of the number.  `ureal_leaves` says where that is, for a cursor in any state.  A
magnitude that is found is the longest one ahead.  Where there is none the cursor has not moved, or it stands behind
digits outside radix ten, before a point or an exponent mark; there no rule reads another character, and the number
fails (`fails_of_wordless`).

Nothing is supposed about the mark of the cursor.  It is looked at in one place, where the cursor goes back to a lone
decimal point, so that a magnitude is read alike from any two marks which the cursor has passed (`ureal_withMark`): what
`reads_ureal` says of a cursor that stands at its mark holds of all.
-/
namespace SchemeLexer

open Text (run)

/-! ## The mark -/

namespace Cursor

/-- The cursor with its mark at `p`. -/
def withMark (p : Place) (c : Cursor) : Cursor := { c with mark := p }

theorem accept_withMark (set : List Char) (p : Place) (c : Cursor) :
    (c.withMark p).accept set = ((c.accept set).1, (c.accept set).2.withMark p) := by
  have hahead : (c.withMark p).ahead = c.ahead := rfl
  rw [accept_eq, accept_eq, hahead]
  split
  · rfl
  · rfl

theorem acceptWhile_withMark (q : Char → Bool) (p : Place) (c : Cursor) :
    (c.withMark p).acceptWhile q none = ((c.acceptWhile q none).1, (c.acceptWhile q none).2.withMark p) := by
  have hahead : (c.withMark p).ahead = c.ahead := rfl
  rw [acceptWhile_eq q hahead none rfl, acceptWhile_eq q rfl none rfl]
  rfl

theorem at_withMark (c : Cursor) : At c.pos 0 c.ahead (c.withMark c.pos) := ⟨rfl, rfl, rfl⟩

/-- A word that does not begin here. -/
theorem acceptWord_of_not {word : List Char} {c : Cursor} (hword : word.length ≠ 0)
    (h : Caseless.matched word c.ahead = 0) : c.acceptWord word = (0, c.advance 0) := by
  rw [acceptWord_eq word rfl, h, further_zero_of hword.symm]

end Cursor

namespace Checked

open Number (isExponentMark magnitude)
open Number.Grammar (UInteger UReal)

variable {p : Place} {r : Radix} {c d : Cursor} {found : Found}

theorem uinteger_withMark (r : Radix) (p : Place) (c : Cursor) :
    uinteger r (c.withMark p) = ((uinteger r c).1, (uinteger r c).2.withMark p) := by
  simp only [uinteger, Cursor.acceptWhile_withMark]

theorem fraction_withMark (r : Radix) (p : Place) (c : Cursor) :
    fraction r (c.withMark p) = ((fraction r c).1, (fraction r c).2.withMark p) := by
  simp only [fraction, Cursor.accept_withMark, uinteger_withMark]
  split <;> rfl

theorem exponent_withMark (failure? : Option ScanError) (p : Place) (c : Cursor) :
    exponent failure? (c.withMark p) = ((exponent failure? c).1, (exponent failure? c).2.withMark p) := by
  simp only [exponent, Cursor.accept_withMark, Cursor.acceptWhile_withMark]
  split
  · split <;> rfl
  · rfl

/-- Reading digits leads on. -/
theorem offset_le_uinteger (r : Radix) (c : Cursor) :
    c.pos.position.offset ≤ (uinteger r c).2.pos.position.offset := by
  simp only [uinteger, Cursor.acceptWhile_eq r.isDigit rfl none rfl]
  exact Place.offset_le_advance _ c.pos

theorem decimal_withMark {digits : Bool} (h : decimal r digits none c = .ok (found, d))
    (hp : p.position.offset ≤ c.pos.position.offset) :
    decimal r digits none (c.withMark p) = .ok (found, d.withMark p) := by
  simp only [decimal, fraction_withMark] at h ⊢
  split at h
  · rename_i hr
    cases h
    rw [if_pos hr]
  · rename_i hr
    rw [if_neg hr]
    split at h
    · rename_i hdigits
      rw [if_pos hdigits, exponent_withMark, Except.ok.inj h]
    · rename_i hdigits
      rw [if_neg hdigits]
      unfold reset at h ⊢
      split at h
      · rename_i hbetween
        cases h
        rw [if_pos ⟨hp, hbetween.2⟩]
        rfl
      · cases h

/-- **A magnitude is read alike from another mark**, if the cursor has passed that. -/
theorem ureal_withMark (h : ureal r none c = .ok (found, d)) (hp : p.position.offset ≤ c.pos.position.offset) :
    ureal r none (c.withMark p) = .ok (found, d.withMark p) := by
  have hpassed := Nat.le_trans hp (offset_le_uinteger r c)
  have hahead : ((uinteger r c).2.withMark p).ahead = (uinteger r c).2.ahead := rfl
  simp only [ureal, uinteger_withMark, Cursor.next_eq, hahead, Option.isSome_none, Bool.false_eq_true, if_false] at h ⊢
  cases hhead : (uinteger r c).2.ahead.head? with
  | none =>
    simp only [hhead] at h ⊢
    cases h
    rfl
  | some x =>
    have hadvance : ((uinteger r c).2.withMark p).advance 1 = ((uinteger r c).2.advance 1).withMark p := rfl
    simp only [hhead, hadvance, uinteger_withMark] at h ⊢
    split at h
    · rename_i hslash
      rw [if_pos hslash]
      split at h
      · rename_i hdenominator
        rw [if_pos hdenominator]
        cases h
        rfl
      · rename_i hdenominator
        rw [if_neg hdenominator]
        cases h
        rfl
    · rename_i hslash
      rw [if_neg hslash]
      split at h
      · rename_i hpoint
        rw [if_pos hpoint]
        exact decimal_withMark h hpassed
      · rename_i hpoint
        rw [if_neg hpoint]
        cases h
        rfl

/-! ## A cursor in any state -/

/-- **A magnitude is read as its rule says** by a cursor in any state. -/
theorem ureal_ok (h : ureal r none c = .ok (found, d)) :
    found = Checked.found (magnitude r c.ahead).shape ∧ d.pos = c.pos.advance (magnitude r c.ahead).taken := by
  obtain ⟨e, he, hpos⟩ := reads_ureal (r := r) c.at_withMark
  obtain ⟨rfl, rfl⟩ := Prod.mk.inj (Except.ok.inj ((ureal_withMark h (Nat.le_refl _)).symm.trans he))
  exact ⟨rfl, hpos.pos.trans (by rw [Nat.zero_add])⟩

theorem decimal_error {digits : Bool} {fault : Fault} (h : decimal r digits none c = .error fault) : fault = .reset := by
  simp only [decimal] at h
  split at h
  · cases h
  · split at h
    · cases h
    · unfold reset at h
      split at h
      · cases h
      · cases h
        rfl

/-- The one thing that can go wrong is that the cursor would have to go back before its mark. -/
theorem ureal_error {fault : Fault} (h : ureal r none c = .error fault) :
    fault = .reset ∧ c.pos.position.offset < c.mark.position.offset := by
  refine ⟨?_, Nat.lt_of_not_le fun hmark => ?_⟩
  · simp only [ureal, Option.isSome_none, Bool.false_eq_true, if_false] at h
    split at h
    · split at h
      · split at h
        · cases h
        · cases h
      · split at h
        · exact decimal_error h
        · cases h
    · cases h
  · obtain ⟨d, hd, -⟩ := reads_ureal (r := r) c.at_withMark
    cases (ureal_withMark hd hmark).symm.trans h

/-! ## The longest prefix -/

/-- `w` is the longest prefix of a text that has a property. -/
structure Longest (q : List Char → Prop) (cs w : List Char) : Prop where
  head    : w <+: cs
  member  : q w
  longest : ∀ v, v <+: cs → q v → v.length ≤ w.length

theorem longest_magnitude {cs : List Char} (h : (magnitude r cs).shape = .real) :
    Longest (UReal r) cs (cs.take (magnitude r cs).taken) := by
  obtain ⟨w, rest, rfl, hw, htaken⟩ := Number.magnitude_sound h
  rw [htaken, List.take_left]
  refine ⟨List.prefix_append w rest, hw, ?_⟩
  rintro v ⟨behind, hv⟩ hmember
  rw [← hv] at h htaken
  exact htaken ▸ Number.magnitude_longest hmember h

theorem longest_digits {cs : List Char} (h : run r.isDigit cs ≠ 0) :
    Longest (UInteger r) cs (cs.take (run r.isDigit cs)) := by
  obtain ⟨ds, rest, rfl, hdigits, -, hrun⟩ := Text.exists_run r.isDigit cs
  rw [hrun] at h ⊢
  rw [List.take_left]
  refine ⟨List.prefix_append ds rest, ⟨fun hnil => h (List.length_eq_zero_iff.2 hnil), hdigits⟩, ?_⟩
  rintro v ⟨behind, hv⟩ hmember
  rw [← hv, Text.run_append_add hmember.digits] at hrun
  omega

/-- Where there is no magnitude outside radix ten, the digits have been taken. -/
theorem taken_of_absent {cs : List Char} (h : (magnitude r cs).shape = .absent) (hr : r ≠ .decimal) :
    (magnitude r cs).taken = run r.isDigit cs := by
  unfold magnitude at h ⊢
  simp only [if_neg hr] at h ⊢
  split at h
  · split at h
    · rename_i hzero
      rw [if_pos hzero, hzero]
    · cases h
  · split at h
    · split at h
      · cases h
      · cases h
    · rename_i hslash
      rw [if_neg hslash]
      split at h
      · rename_i hpoint
        rw [if_pos hpoint]
      · rename_i hpoint
        rw [if_neg hpoint]
        split at h
        · rename_i hzero
          rw [if_pos hzero, hzero]
        · cases h

/-! ## The number around -/

/-- The places at which a number that begins at `b` asks for a magnitude, no failure having been noted: where it begins
or behind its sign, behind the sign of its imaginary part, and behind `@` or the sign of its angle. -/
inductive Asks (r : Radix) (b : Cursor) : Cursor → Prop
  | first : Asks r b (b.accept ['+', '-']).2
  | imaginary {unit : Bool} {s : Char} {d e : Cursor} :
      realOrUnit r none b = .ok (⟨true, unit, none⟩, d) → d.next = (some s, e) → isSign s = true → Asks r b e
  | angle {unit : Bool} {d e : Cursor} :
      realOrUnit r none b = .ok (⟨true, unit, none⟩, d) → d.next = (some '@', e) → Asks r b (e.accept ['+', '-']).2

/-- Every number that has asked for a magnitude at `c` fails with the error, and has read as far as `d`. -/
def Fails (r : Radix) (c : Cursor) (error : ScanError) (d : Cursor) : Prop :=
  ∀ b, Asks r b c → ∃ e, scanComplex r b = .ok (some error, e) ∧ e.pos = d.pos

/-- No word is found here, nor a unit, and nothing is read in search of them. -/
def Wordless (failure? : Option ScanError) (d : Cursor) : Prop :=
  ∃ e, uinfnanOrUnit failure? d = (⟨false, false, failure?⟩, e) ∧ e.pos = d.pos

theorem wordless_of_failure (error : ScanError) (d : Cursor) : Wordless (some error) d := ⟨d, rfl, rfl⟩

theorem matched_of_mark {x : Char} {cs : List Char} (h : cs.head? = some x) (hx : x = '.' ∨ isExponentMark x = true) :
    Caseless.matched Number.infinity cs = 0 ∧ Caseless.matched Number.notANumber cs = 0 := by
  obtain ⟨rest, rfl⟩ := List.head?_eq_some_iff.1 h
  rw [Number.isExponentMark_iff] at hx
  rcases hx with rfl | rfl | rfl
  · exact ⟨rfl, rfl⟩
  · exact ⟨rfl, rfl⟩
  · exact ⟨rfl, rfl⟩

/-- A point or an exponent mark begins no word, and is no unit. -/
theorem wordless_of_mark {x : Char} (h : d.ahead.head? = some x) (hx : x = '.' ∨ isExponentMark x = true) :
    Wordless none d := by
  obtain ⟨hinf, hnan⟩ := matched_of_mark h hx
  have hfirst := Cursor.acceptWord_of_not (by decide) hinf
  have hsecond := Cursor.acceptWord_of_not (c := d.advance 0) (by decide) hnan
  refine ⟨(d.advance 0).advance 0, ?_, rfl⟩
  simp only [uinfnanOrUnit, hfirst, hsecond]
  rfl

section
variable {b : Cursor} {failure? : Option ScanError} (hwordless : Wordless failure? d)
include hwordless

theorem signed_of_wordless (h : ureal r none c = .ok (⟨false, false, failure?⟩, d)) :
    ∃ e, signed r none c = .ok (⟨false, false, failure?⟩, e) ∧ e.pos = d.pos := by
  obtain ⟨e, he, hpos⟩ := hwordless
  refine ⟨e, ?_, hpos⟩
  rw [signed, h]
  simp only [ok_bind, Bool.false_eq_true, if_false, he]

theorem realOrUnit_of_wordless (h : ureal r none (b.accept ['+', '-']).2 = .ok (⟨false, false, failure?⟩, d)) :
    ∃ e, realOrUnit r none b = .ok (⟨false, false, failure?⟩, e) ∧ e.pos = d.pos := by
  simp only [realOrUnit]
  split
  · exact signed_of_wordless hwordless h
  · exact ⟨d, h, rfl⟩

/-- **A number fails where it has asked for a magnitude**, got none and cannot get a word instead. -/
theorem fails_of_wordless {error : ScanError} (hconclude : conclude failure? false = some error)
    (h : ureal r none c = .ok (⟨false, false, failure?⟩, d)) : Fails r c error d := by
  intro b hasks
  rw [scanComplex, ← hconclude]
  cases hasks with
  | first =>
    obtain ⟨e, he, hpos⟩ := realOrUnit_of_wordless hwordless h
    rw [he]
    exact ⟨e, rfl, hpos⟩
  | imaginary hreal hnext hsign =>
    obtain ⟨e, he, hpos⟩ := signed_of_wordless hwordless h
    rw [hreal]
    simp only [ok_bind, if_true, afterReal, hnext, hsign, he]
    exact ⟨e, rfl, hpos⟩
  | angle hreal hnext =>
    obtain ⟨e, he, hpos⟩ := realOrUnit_of_wordless hwordless h
    have hsign : isSign '@' = false := by decide
    rw [hreal]
    simp only [ok_bind, if_true, afterReal, hnext, hsign, he]
    exact ⟨e, rfl, hpos⟩

end

/-! ## What is left behind -/

/-- Digits have been read outside radix ten that are no magnitude.  They are all that stand there, a point or an exponent
mark is behind them, and the number reads no further. -/
structure Stranded (r : Radix) (c d : Cursor) : Prop where
  radix  : r ≠ .decimal
  digits : Longest (UInteger r) c.ahead (Utf8.chars (c.pos.slice d.pos))
  mark   : ∃ x, d.ahead.head? = some x ∧ (x = '.' ∨ isExponentMark x = true)
  fails  : Fails r c .invalidNumber d

/-- What is left behind where a magnitude was asked for at `c`, and the cursor is now at `d`.  What has been found and
how far the cursor is are what the rule makes of the text ahead. -/
structure Leaves (r : Radix) (c : Cursor) (found : Found) (d : Cursor) : Prop where
  shape   : found = Checked.found (magnitude r c.ahead).shape
  taken   : d.pos = c.pos.advance (magnitude r c.ahead).taken
  present : found.real = true → Longest (UReal r) c.ahead (Utf8.chars (c.pos.slice d.pos))
  missing : found.real = false → found.failure? = none → d.pos = c.pos ∨ Stranded r c d
  failed  : ∀ error, found.failure? = some error → Fails r c error d

theorem leaves_real (hpos : d.pos = c.pos.advance (magnitude r c.ahead).taken)
    (hshape : (magnitude r c.ahead).shape = .real) : Leaves r c ⟨true, false, none⟩ d where
  shape := by rw [hshape, Checked.found]
  taken := hpos
  present _ := by
    rw [hpos, Place.chars_slice]
    exact longest_magnitude hshape
  missing hreal := nomatch hreal
  failed _ hfailure := nomatch hfailure

theorem leaves_absent (h : ureal r none c = .ok (⟨false, false, none⟩, d))
    (hpos : d.pos = c.pos.advance (magnitude r c.ahead).taken) (hshape : (magnitude r c.ahead).shape = .absent) :
    Leaves r c ⟨false, false, none⟩ d where
  shape := by rw [hshape, Checked.found]
  taken := hpos
  present hreal := nomatch hreal
  missing _ _ := by
    by_cases hzero : (magnitude r c.ahead).taken = 0
    · rw [hzero] at hpos
      exact Or.inl hpos
    obtain ⟨hr, -, x, rest, hdrop, hx⟩ := (Number.magnitude_absent hshape).resolve_left hzero
    have hhead : d.ahead.head? = some x := by
      rw [Cursor.ahead, hpos, Place.ahead_advance, ← Cursor.ahead, hdrop, List.head?_cons]
    rw [taken_of_absent hshape hr] at hpos hzero
    have hchars : Utf8.chars (c.pos.slice d.pos) = c.ahead.take (run r.isDigit c.ahead) := by
      rw [hpos, Place.chars_slice, Cursor.ahead]
    exact Or.inr ⟨hr, hchars ▸ longest_digits hzero, ⟨x, hhead, hx⟩,
      fails_of_wordless (wordless_of_mark hhead hx) rfl h⟩
  failed _ hfailure := nomatch hfailure

theorem leaves_fault {error : ScanError} (h : ureal r none c = .ok (⟨false, false, some error⟩, d))
    (hpos : d.pos = c.pos.advance (magnitude r c.ahead).taken) (hshape : (magnitude r c.ahead).shape = .fault error) :
    Leaves r c ⟨false, false, some error⟩ d where
  shape := by rw [hshape, Checked.found]
  taken := hpos
  present hreal := nomatch hreal
  missing _ hfailure := nomatch hfailure
  failed _ hfailure := by
    cases hfailure
    exact fails_of_wordless (wordless_of_failure error d) rfl h

theorem leaves_of_ok (h : ureal r none c = .ok (found, d)) : Leaves r c found d := by
  obtain ⟨rfl, hpos⟩ := ureal_ok h
  cases hshape : (magnitude r c.ahead).shape with
  | real => exact leaves_real hpos hshape
  | unit => exact absurd hshape (Number.magnitude_ne_unit r c.ahead)
  | absent =>
    rw [hshape] at h
    exact leaves_absent h hpos hshape
  | fault error =>
    rw [hshape] at h
    exact leaves_fault h hpos hshape

/-- **A magnitude leaves nothing behind that another rule could make a number of**, whatever the state of the cursor.
It faults only where it would have to go back before its mark. -/
theorem ureal_leaves (r : Radix) (c : Cursor) :
    match ureal r none c with
    | .ok (found, d) => Leaves r c found d
    | .error fault => fault = .reset ∧ c.pos.position.offset < c.mark.position.offset := by
  split
  · exact leaves_of_ok ‹_›
  · exact ureal_error ‹_›

/-- The digits of an imaginary part, before a point that its radix does not have. -/
theorem ureal_leaves_imaginary_digits :
    let b := Cursor.ofBytes [0x31, 0x2D, 0x31, 0x46, 0x2E, 0x69]
    let c := ((b.advance 1).advance 0).next.2
    let d := (c.advance 2).advance 0
    ureal .hexadecimal none c = .ok (⟨false, false, none⟩, d) ∧ Asks .hexadecimal b c ∧ Stranded .hexadecimal c d ∧
      ∃ e, scanComplex .hexadecimal b = .ok (some .invalidNumber, e) ∧ e.pos = d.pos := by
  intro b c d
  have hureal : ureal .hexadecimal none c = .ok (⟨false, false, none⟩, d) := by decide +kernel
  have hreal : realOrUnit .hexadecimal none b = .ok (⟨true, false, none⟩, (b.advance 1).advance 0) := by decide +kernel
  have hnext : ((b.advance 1).advance 0).next = (some '-', c) := by decide +kernel
  have hmoved : d.pos ≠ c.pos := by decide +kernel
  have hasks : Asks .hexadecimal b c := .imaginary hreal hnext (by decide)
  have hleaves := ureal_leaves .hexadecimal c
  rw [hureal] at hleaves
  have hstranded := (hleaves.missing rfl rfl).resolve_left hmoved
  exact ⟨hureal, hasks, hstranded, hstranded.fails b hasks⟩

end Checked
end SchemeLexer
