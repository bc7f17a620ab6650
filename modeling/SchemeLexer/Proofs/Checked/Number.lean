import SchemeLexer.Checked.Number
import SchemeLexer.Number.Marked
import SchemeLexer.Proofs.Checked.Cursor
/-!
# Checked/Number — numbers read without a fault

Each rule for a number reads with a cursor what the rule of the same name takes of the text ahead, and never faults:
`reads_ureal`, `reads_realOrUnit`, `reads_scanComplex` and `reads_scanPrefixed`.
-/
namespace SchemeLexer
namespace Checked

open Number (Shape Part Marker Marks isExponentMark isImaginaryUnit)

/-! ## The parts of a number -/

/-- What a rule answers that finds a part of this shape. -/
def found : Shape → Found
  | .real => ⟨true, false, none⟩
  | .unit => ⟨false, true, none⟩
  | .absent => ⟨false, false, none⟩
  | .fault e => ⟨false, false, some e⟩

variable {p : Place} {k : Nat} {cs : List Char} {c : Cursor} {r : Radix}

theorem contains_signs (x : Char) : ['+', '-'].contains x = isSign x := by simp [isSign]

theorem contains_exponentMarks (x : Char) : ['e', 'E'].contains x = isExponentMark x := by simp [isExponentMark]

theorem accept_sign (h : At p k cs c) : ∃ d, c.accept ['+', '-'] = (cs.head?.any isSign, d) ∧
    At p (k + Number.signLength cs) (cs.drop (Number.signLength cs)) d := h.accept_if ['+', '-'] contains_signs

theorem at_uinteger (h : At p k cs c) : ∃ d, uinteger r c = (decide (0 < Text.run r.isDigit cs), d) ∧
    At p (k + Text.run r.isDigit cs) (cs.drop (Text.run r.isDigit cs)) d := by
  obtain ⟨d, hd, hdigits⟩ := h.acceptWhile r.isDigit
  exact ⟨d, by simp only [uinteger, hd], hdigits⟩

theorem at_fraction (h : At p k cs c) : ∃ d, fraction .decimal c = (decide (1 < Number.fractionLength cs), d) ∧
    At p (k + Number.fractionLength cs) (cs.drop (Number.fractionLength cs)) d := by
  cases cs with
  | nil =>
    obtain ⟨d, hd, hat⟩ := h.accept_nil ['.']
    exact ⟨d, by simp [fraction, hd, Number.fractionLength], hat⟩
  | cons x cs =>
    by_cases hx : x = '.'
    · obtain ⟨d, hd, hpoint⟩ := h.accept_pos ['.'] (by simp [hx])
      obtain ⟨e, he, hdigits⟩ := at_uinteger (r := .decimal) hpoint
      have hlength : Number.fractionLength (x :: cs) = Text.run isDigit cs + 1 := by
        rw [Number.fractionLength, if_pos hx, Nat.add_comm]
      rw [hlength, List.drop_succ_cons, Nat.add_comm _ 1, ← Nat.add_assoc]
      refine ⟨e, ?_, hdigits⟩
      have hsome : (0 < Text.run Radix.decimal.isDigit cs) ↔ 1 < 1 + Text.run isDigit cs := by
        rw [Nat.add_comm]
        exact Nat.succ_lt_succ_iff.symm
      simp only [fraction, hd, if_true, he, hsome]
    · obtain ⟨d, hd, hat⟩ := h.accept_neg ['.'] (by simp [hx])
      exact ⟨d, by simp [fraction, hd, Number.fractionLength, hx], by simpa [Number.fractionLength, hx] using hat⟩

theorem reads_exponent (h : At p k cs c) {j n : Nat} {bs : List Char} (hbs : p.ahead.drop j = bs) (hk : k = j + n) :
    Reads (.ok (exponent none c)) p j bs (Number.exponent n cs).taken (found (Number.exponent n cs).shape) := by
  cases cs with
  | nil =>
    obtain ⟨d, hd, hat⟩ := h.accept_nil ['e', 'E']
    simp only [exponent, hd, Bool.false_eq_true, if_false]
    exact .of_at hbs hat hk
  | cons x cs =>
    cases hx : isExponentMark x with
    | false =>
      obtain ⟨d, hd, hat⟩ := h.accept_neg ['e', 'E'] ((contains_exponentMarks x).trans hx)
      simp only [exponent, hd, Number.exponent, hx, Bool.false_eq_true, if_false]
      exact .of_at hbs hat hk
    | true =>
      obtain ⟨d, hd, hmark⟩ := h.accept_pos ['e', 'E'] ((contains_exponentMarks x).trans hx)
      obtain ⟨e, he, hsign⟩ := accept_sign hmark
      obtain ⟨f, hf, hdigits⟩ := hsign.acceptWhile isDigit
      simp only [exponent, hd, he, hf, Number.exponent, hx, if_true]
      split
      · refine .of_at hbs hdigits ?_
        simp only
        omega
      · refine .of_at hbs hdigits ?_
        simp only
        omega

/-- A decimal of which `n` digits have been read. -/
theorem reads_decimal (h : At p k cs c) {j n : Nat} {bs : List Char} (hbs : p.ahead.drop j = bs) (hk : k = j + n) :
    Reads (decimal .decimal (decide (0 < n)) none c) p j bs (Number.decimal n cs).taken
      (found (Number.decimal n cs).shape) := by
  obtain ⟨d, hd, hfraction⟩ := at_fraction h
  simp only [decimal, hd, Number.decimal]
  by_cases hdigits : n = 0 ∧ Number.fractionLength cs ≤ 1
  · obtain ⟨e, he, hreset⟩ := h.reset hfraction
    have hnone : (decide (0 < n) || decide (1 < Number.fractionLength cs)) = false := by simp; omega
    simp only [hnone, if_pos hdigits, he]
    exact .of_at hbs hreset (by omega)
  · have hsome : (decide (0 < n) || decide (1 < Number.fractionLength cs)) = true := by simp; omega
    simp only [hsome, if_neg hdigits]
    exact reads_exponent hfraction hbs (by omega)

/-- Digits are a magnitude of their own. -/
theorem reads_digits {n : Nat} (hcs : p.ahead.drop k = cs) {ds : List Char} (h : At p (k + n) ds c) :
    Reads (.ok (⟨decide (0 < n), false, none⟩, c)) p k cs (if n = 0 then (⟨.absent, 0⟩ : Part) else ⟨.real, n⟩).taken
      (found (if n = 0 then (⟨.absent, 0⟩ : Part) else ⟨.real, n⟩).shape) := by
  by_cases hn : n = 0
  · subst hn
    exact .of_at hcs h rfl
  · simp only [if_neg hn, Nat.pos_of_ne_zero hn]
    exact .of_at hcs h rfl

/-- **A magnitude is read as far as its rule says.** -/
theorem reads_ureal (h : At p k cs c) :
    Reads (ureal r none c) p k cs (Number.magnitude r cs).taken (found (Number.magnitude r cs).shape) := by
  obtain ⟨d, hd, hdigits⟩ := at_uinteger (r := r) h
  simp only [ureal, hd, Number.magnitude, Option.isSome_none, Bool.false_eq_true, if_false]
  cases hrest : cs.drop (Text.run r.isDigit cs) with
  | nil =>
    rw [hrest] at hdigits
    obtain ⟨e, he, -, hback⟩ := hdigits.next_nil
    simp only [he]
    exact reads_digits h.rest hback
  | cons x rest =>
    rw [hrest] at hdigits
    obtain ⟨e, he, hnext, hback⟩ := hdigits.next_cons
    simp only [he]
    by_cases hslash : x = '/' ∧ Text.run r.isDigit cs ≠ 0
    · obtain ⟨f, hf, hdenominator⟩ := at_uinteger (r := r) hnext
      have hslash' : x = '/' ∧ decide (0 < Text.run r.isDigit cs) = true :=
        ⟨hslash.1, decide_eq_true (Nat.pos_of_ne_zero hslash.2)⟩
      rw [if_pos hslash, if_pos hslash']
      simp only [hf]
      by_cases hzero : Text.run r.isDigit rest = 0
      · rw [hzero] at hdenominator ⊢
        exact .of_at h.rest hdenominator rfl
      · simp only [if_neg hzero, Nat.pos_of_ne_zero hzero]
        exact .of_at h.rest hdenominator (by omega)
    · have hslash' : ¬ (x = '/' ∧ decide (0 < Text.run r.isDigit cs) = true) := by
        rwa [decide_eq_true_eq, Nat.pos_iff_ne_zero]
      rw [if_neg hslash, if_neg hslash']
      by_cases hpoint : x = '.' ∨ isExponentMark x = true
      · rw [if_pos hpoint, if_pos hpoint]
        by_cases hr : r = .decimal
        · subst hr
          rw [if_pos rfl]
          exact reads_decimal hback h.rest rfl
        · rw [if_neg hr, decimal, if_pos (Or.inr hr)]
          exact .of_at h.rest hback rfl
      · rw [if_neg hpoint, if_neg hpoint]
        exact reads_digits h.rest hback

/-- **A word is read as far as its rule says.** -/
theorem reads_uinfnanOrUnit (h : At p k cs c) :
    Reads (.ok (uinfnanOrUnit none c)) p k cs (Number.special cs).taken (found (Number.special cs).shape) := by
  obtain ⟨d, hd, hinf⟩ := h.acceptWord Number.infinity
  simp only [uinfnanOrUnit, hd, Number.special, Option.isSome_none, Bool.false_eq_true, if_false]
  by_cases hzero : Caseless.matched Number.infinity cs = 0
  · rw [hzero, List.drop_zero] at hinf
    obtain ⟨e, he, hnan⟩ := hinf.acceptWord Number.notANumber
    simp only [hzero, he]
    by_cases hfull : Caseless.matched Number.notANumber cs = 5
    · simp only [hfull] at hnan ⊢
      exact .of_at h.rest hnan rfl
    · simp only [hfull]
      exact .of_at h.rest hnan rfl
  · simp only [if_neg hzero]
    by_cases hfull : Caseless.matched Number.infinity cs = 5
    · simp only [hfull] at hinf ⊢
      exact .of_at h.rest hinf rfl
    · by_cases hone : Caseless.matched Number.infinity cs = 1
      · simp only [hone] at hinf ⊢
        exact .of_at h.rest hinf rfl
      · simp only [hfull, hone]
        exact .of_at h.rest hinf rfl

theorem reads_signed (h : At p k cs c) :
    Reads (signed r none c) p k cs (Number.signed r cs).taken (found (Number.signed r cs).shape) := by
  obtain ⟨d, hd, hmagnitude⟩ := reads_ureal (r := r) h
  simp only [signed, hd, ok_bind, Number.signed]
  cases hshape : (Number.magnitude r cs).shape with
  | real =>
    simp only [reduceCtorEq, if_false, hshape]
    exact .of_at h.rest hmagnitude rfl
  | unit => exact absurd hshape (Number.magnitude_ne_unit r cs)
  | fault e =>
    simp only [reduceCtorEq, if_false, hshape]
    exact .of_at h.rest hmagnitude rfl
  | absent => exact (reads_uinfnanOrUnit hmagnitude).behind

/-- **A real number, or the unit behind a sign, is read as far as its rule says.** -/
theorem reads_realOrUnit (h : At p k cs c) :
    Reads (realOrUnit r none c) p k cs (Number.real r cs).taken (found (Number.real r cs).shape) := by
  cases cs with
  | nil =>
    obtain ⟨d, hd, hat⟩ := h.accept_nil ['+', '-']
    simp only [realOrUnit, hd]
    exact reads_ureal hat
  | cons x cs =>
    cases hx : isSign x with
    | true =>
      obtain ⟨d, hd, hsign⟩ := h.accept_pos ['+', '-'] ((contains_signs x).trans hx)
      simp only [realOrUnit, hd, Number.real, hx, if_true]
      exact (reads_signed hsign).behind
    | false =>
      obtain ⟨d, hd, hat⟩ := h.accept_neg ['+', '-'] ((contains_signs x).trans hx)
      simp only [realOrUnit, hd, Number.real, hx, Bool.false_eq_true, if_false]
      exact reads_ureal hat

/-! ## Whole numbers -/

theorem reads_imaginaryUnit (h : At p k cs c) :
    Reads (.ok (imaginaryUnit c)) p k cs (Number.imaginaryUnit cs).taken (Number.imaginaryUnit cs).error? := by
  obtain ⟨d, hd, hnext, -⟩ := h.next
  simp only [imaginaryUnit, hd, Number.imaginaryUnit]
  cases cs with
  | nil => exact .of_at h.rest hnext rfl
  | cons x cs =>
    rw [List.head?_cons, Option.any_some]
    cases isImaginaryUnit x with
    | true => exact .of_at h.rest hnext (by simp [Reading.accept])
    | false => exact .of_at h.rest hnext rfl

theorem reads_imaginary (h : At p k cs c) :
    Reads (do
      let (imaginary, e) ← signed r none c
      if imaginary.real then .ok (imaginaryUnit e) else .ok (conclude imaginary.failure? imaginary.unit, e))
      p k cs (Number.imaginary r cs).taken (Number.imaginary r cs).error? := by
  obtain ⟨d, hd, hsigned⟩ := reads_signed (r := r) h
  simp only [hd, ok_bind, Number.imaginary]
  cases hshape : (Number.signed r cs).shape with
  | real => exact (reads_imaginaryUnit hsigned).behind
  | unit => exact .of_at h.rest hsigned rfl
  | absent => exact .of_at h.rest hsigned rfl
  | fault e => exact .of_at h.rest hsigned rfl

theorem reads_angle (h : At p k cs c) :
    Reads (do
      let (angle, e) ← realOrUnit r none c
      .ok (conclude angle.failure? angle.real, e))
      p k cs (Number.angle r cs).taken (Number.angle r cs).error? := by
  obtain ⟨d, hd, hreal⟩ := reads_realOrUnit (r := r) h
  simp only [hd, ok_bind, Number.angle]
  cases hshape : (Number.real r cs).shape with
  | real => exact .of_at h.rest hreal rfl
  | unit => exact .of_at h.rest hreal rfl
  | absent => exact .of_at h.rest hreal rfl
  | fault e => exact .of_at h.rest hreal rfl

theorem reads_afterReal (h : At p k cs c) :
    Reads (afterReal r none c) p k cs (Number.afterReal r cs).taken (Number.afterReal r cs).error? := by
  cases cs with
  | nil =>
    obtain ⟨d, hd, -, hback⟩ := h.next_nil
    simp only [afterReal, hd]
    exact .of_at h.rest hback rfl
  | cons x cs =>
    obtain ⟨d, hd, hnext, hback⟩ := h.next_cons
    simp only [afterReal, hd, Number.afterReal]
    split
    · exact (reads_imaginary hnext).behind
    · split
      · exact (reads_angle hnext).behind
      · split
        · exact .of_at h.rest hnext rfl
        · exact .of_at h.rest hback rfl

/-- **A number is read as far as its rule says**, and ends in the error that its rule gives. -/
theorem reads_scanComplex (h : At p k cs c) :
    Reads (scanComplex r c) p k cs (Number.complex r cs).taken (Number.complex r cs).error? := by
  obtain ⟨d, hd, hreal⟩ := reads_realOrUnit (r := r) h
  simp only [scanComplex, hd, ok_bind, Number.complex]
  cases hshape : (Number.real r cs).shape with
  | real => exact (reads_afterReal hreal).behind
  | unit => exact .of_at h.rest hreal rfl
  | absent => exact .of_at h.rest hreal rfl
  | fault e => exact .of_at h.rest hreal rfl

/-! ## Markers -/

theorem isSome_ofDesignator? (x : Char) : (Radix.ofDesignator? x).isSome = isDesignator (Caseless.fold x) := by
  unfold Radix.ofDesignator? isDesignator
  repeat' split
  all_goals simp [*]

theorem ofDesignator?_fold (x : Char) : Radix.ofDesignator? (Caseless.fold x) = Radix.ofDesignator? x := by
  simp only [Radix.ofDesignator?, Caseless.fold_fold]

/-- The markers read so far are those that the rule goes by. -/
structure Markers.Means (m : Markers) (marks : Marks) : Prop where
  letter    : ∀ l, m.designator? = some l → isDesignator l = true
  radix     : m.designator?.map Radix.ofDesignator? = marks.radix?.map some
  exactness : m.exact = marks.exactness

namespace Markers.Means

variable {m : Markers} {marks : Marks}

theorem nil : Means ⟨none, false⟩ ⟨none, false⟩ where
  letter _ h := nomatch h
  radix := rfl
  exactness := rfl

theorem isNone (h : m.Means marks) : m.designator?.isNone = marks.radix?.isNone := by
  have hradix := congrArg Option.isNone h.radix
  simpa using hradix

theorem add_radix (h : m.Means marks) {x : Char} {r : Radix} (hr : Radix.ofDesignator? x = some r) :
    match marks.add? (.radix r) with
    | some marks' => ∃ m', m.add? x = some m' ∧ m'.Means marks'
    | none => m.add? x = none := by
  have hl : isDesignator (Caseless.fold x) = true := by rw [← isSome_ofDesignator?, hr]; rfl
  have hexact : ¬ (Caseless.fold x = 'e' ∨ Caseless.fold x = 'i') := by
    rintro (he | he)
    · rw [he] at hl; cases hl
    · rw [he] at hl; cases hl
  cases hnone : marks.radix?.isNone with
  | true =>
    simp only [Marks.add?, hnone, if_true]
    refine ⟨{ m with designator? := some (Caseless.fold x) }, ?_, ?_, ?_, h.exactness⟩
    · simp only [Markers.add?, hl, h.isNone, hnone, and_self, if_true]
    · rintro l hsome
      obtain rfl := Option.some.inj hsome
      exact hl
    · simp [ofDesignator?_fold, hr]
  | false => simp [Marks.add?, Markers.add?, h.isNone, hnone, hexact]

/-- One marker more, or none where its sort was given before. -/
theorem add (h : m.Means marks) (x : Char) :
    match (Marker.ofChar? x).bind marks.add? with
    | some marks' => ∃ m', m.add? x = some m' ∧ m'.Means marks'
    | none => m.add? x = none := by
  cases hr : Radix.ofDesignator? x with
  | some r =>
    simp only [Marker.ofChar?, hr, Option.bind_some]
    exact h.add_radix hr
  | none =>
    have hl : isDesignator (Caseless.fold x) = false := by rw [← isSome_ofDesignator?, hr]; rfl
    by_cases hexact : Caseless.fold x = 'e' ∨ Caseless.fold x = 'i'
    · cases hgiven : marks.exactness with
      | true => simp [Marker.ofChar?, hr, hexact, Marks.add?, Markers.add?, hl, h.exactness, hgiven]
      | false =>
        simp only [Marker.ofChar?, hr, hexact, if_true, Option.bind_some, Marks.add?, hgiven, Bool.false_eq_true, if_false]
        refine ⟨{ m with exact := true }, ?_, h.letter, h.radix, rfl⟩
        simp only [Markers.add?, hl, Bool.false_eq_true, hexact, h.exactness, hgiven, false_and, if_false, Bool.not_false,
          and_self, if_true]
    · simp [Marker.ofChar?, hr, hexact, Markers.add?, hl]

/-- **A radix is asked for by a letter that designates one.** -/
theorem radixOf (h : m.Means marks) : Checked.radixOf (m.designator?.getD 'd') = .ok marks.radix := by
  have hletter := h.letter
  have hradix := h.radix
  obtain ⟨designator?, exact⟩ := m
  obtain ⟨radix?, exactness⟩ := marks
  cases designator? with
  | none =>
    cases radix? with
    | none => rfl
    | some r => cases hradix
  | some l =>
    cases radix? with
    | none => cases hradix
    | some r =>
      have hl : Radix.ofDesignator? l = some r := Option.some.inj hradix
      simp [Checked.radixOf, Radix.ofDesignator, hl, hletter l rfl, Marks.radix]

end Markers.Means

/-- **A marked number is read as far as its rule says**, and ends in the error that its rule gives. -/
theorem reads_scanPrefixed {k : Nat} {cs : List Char} {c : Cursor} (h : At p k cs c) {m : Markers} {marks : Marks}
    (hm : m.Means marks) :
    Reads (scanPrefixed m c) p k cs (Number.afterMarks marks cs).taken (Number.afterMarks marks cs).error? := by
  cases cs with
  | nil =>
    obtain ⟨d, hd, hat, -⟩ := h.next_nil
    rw [scanPrefixed, hd]
    exact .of_at h.rest hat rfl
  | cons x cs =>
    obtain ⟨d, hd, hnext, -⟩ := h.next_cons
    have hadd := hm.add x
    rw [scanPrefixed, hd]
    cases hmark : (Marker.ofChar? x).bind marks.add? with
    | none =>
      rw [hmark] at hadd
      simp only [hadd, Number.afterMarks, hmark]
      exact .of_at h.rest hnext rfl
    | some marks' =>
      rw [hmark] at hadd
      obtain ⟨m', hm', hmeans⟩ := hadd
      simp only [hm', Number.afterMarks, hmark]
      cases cs with
      | nil =>
        obtain ⟨e, he, hat⟩ := hnext.accept_nil ['#']
        simp only [he, hmeans.radixOf, ok_bind]
        exact (reads_scanComplex hat).behind
      | cons y cs =>
        by_cases hy : y = '#'
        · obtain ⟨e, he, hsign⟩ := hnext.accept_pos ['#'] (by simp [hy])
          simp only [hy, if_true]
          rw [he]
          simp only [if_true]
          rw [h.again hsign]
          exact (reads_scanPrefixed hsign hmeans).behind
        · obtain ⟨e, he, hat⟩ := hnext.accept_neg ['#'] (by simp [hy])
          simp only [he, hy, if_false, hmeans.radixOf, ok_bind]
          exact (reads_scanComplex hat).behind
termination_by cs.length

end Checked
end SchemeLexer
