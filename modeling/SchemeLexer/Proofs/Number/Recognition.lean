import SchemeLexer.Proofs.Number.Magnitude
/-!
# Recognition — the number at the head of a text

`complex` reads a text as the grammar says: what it takes is a number (`complex_sound`) and no longer one stands there
(`complex_longest`), and it takes every number that a delimiter or the end of the text follows (`complex_complete`).
-/
namespace SchemeLexer
namespace Number

open Text (Stops)
open Grammar
open Caseless (fold matched sameWord)

/-! ## The words -/

theorem matched_append : ∀ {w word : List Char}, sameWord w word = true → ∀ rest, matched word (w ++ rest) = word.length
  | [], [], _, rest => by cases rest <;> rfl
  | [], _ :: _, h, _ => by simp [sameWord] at h
  | _ :: _, [], h, _ => by simp [sameWord] at h
  | c :: w, d :: word, h, rest => by
    simp only [sameWord, List.map_cons, List.cons.injEq, decide_eq_true_eq] at h
    have ih := matched_append (decide_eq_true h.2) rest
    simp [matched, h.1, ih]

theorem exists_of_matched : ∀ {word cs : List Char}, matched word cs = word.length →
    ∃ w rest, cs = w ++ rest ∧ sameWord w word = true
  | [], cs, _ => ⟨[], cs, rfl, rfl⟩
  | d :: word, [], h => by simp [matched] at h
  | d :: word, c :: cs, h => by
    simp only [matched] at h
    split at h
    · rename_i hc
      obtain ⟨w, rest, rfl, hw⟩ := exists_of_matched (Nat.succ.inj h)
      refine ⟨c :: w, rest, rfl, ?_⟩
      simp only [sameWord, List.map_cons, decide_eq_true_eq] at hw ⊢
      rw [hc, hw]
    · simp at h

theorem length_of_sameWord {w word : List Char} (h : sameWord w word = true) : w.length = word.length := by
  have : w.map fold = word.map fold := by simpa [sameWord] using h
  simpa using congrArg List.length this

theorem fold_eq_i_iff (c : Char) : fold c = 'i' ↔ isImaginaryUnit c = true := by
  rw [Caseless.fold_eq_iff (by decide), isImaginaryUnit_iff, ← Char.toNat_inj, ← Char.toNat_inj]
  simp

theorem special_infNan {w : List Char} (hw : InfNan w) (rest : List Char) : special (w ++ rest) = ⟨.real, w.length⟩ := by
  rcases hw with hw | hw
  · have hk : matched infinity (w ++ rest) = 5 := matched_append hw rest
    have hl : w.length = 5 := length_of_sameWord hw
    simp [special, hk, hl]
  · have hm : matched notANumber (w ++ rest) = 5 := matched_append hw rest
    have hl : w.length = 5 := length_of_sameWord hw
    have hk : matched infinity (w ++ rest) = 0 := by
      cases w with
      | nil => simp [sameWord, notANumber] at hw
      | cons c w =>
        simp only [sameWord, notANumber, List.map_cons, decide_eq_true_eq, List.cons.injEq] at hw
        have : ¬ fold 'i' = fold 'n' := by decide
        simp [matched, infinity, hw.1, this]
    simp [special, hk, hm, hl]

theorem special_unit {i : Char} (hi : isImaginaryUnit i = true) {rest : List Char}
    (hr : Stops (fold · = 'n') rest) : special (i :: rest) = ⟨.unit, 1⟩ := by
  have hfi : fold 'i' = fold i := by rw [(fold_eq_i_iff i).2 hi]; decide
  have hk : matched infinity (i :: rest) = 1 := by
    simp only [infinity, matched, if_pos hfi]
    cases rest with
    | nil => rfl
    | cons c rest =>
      have : ¬ fold 'n' = fold c := fun h => by
        rw [Text.stops_cons, decide_eq_false_iff_not] at hr
        exact hr (h.symm.trans (by decide))
      simp [matched, this]
  simp [special, hk]

theorem special_sound {cs : List Char} (h : (special cs).shape = .real) :
    ∃ w rest, cs = w ++ rest ∧ InfNan w ∧ (special cs).taken = w.length := by
  unfold special at h ⊢
  simp only at h ⊢
  split at h
  · rename_i hk
    obtain ⟨w, rest, rfl, hw⟩ := @exists_of_matched infinity _ hk
    exact ⟨w, rest, rfl, Or.inl hw, by rw [if_pos hk, length_of_sameWord hw]; rfl⟩
  · rename_i hk
    rw [if_neg hk]
    split at h
    · cases h
    · rename_i h1
      rw [if_neg h1]
      split at h
      · rename_i h0
        split at h
        · rename_i hm
          obtain ⟨w, rest, rfl, hw⟩ := @exists_of_matched notANumber _ hm
          exact ⟨w, rest, rfl, Or.inr hw, by rw [if_pos h0, length_of_sameWord hw]; exact hm⟩
        · cases h
      · cases h

theorem special_unit_sound {cs : List Char} (h : (special cs).shape = .unit) :
    ∃ i rest, cs = i :: rest ∧ isImaginaryUnit i = true ∧ (special cs).taken = 1 := by
  unfold special at h ⊢
  simp only at h ⊢
  split at h
  · cases h
  · rename_i hk
    rw [if_neg hk]
    split at h
    · rename_i h1
      rw [if_pos h1]
      cases cs with
      | nil => simp [infinity, matched] at h1
      | cons c cs =>
        refine ⟨c, cs, rfl, (fold_eq_i_iff c).1 ?_, rfl⟩
        by_cases hc : fold 'i' = fold c
        · rw [← hc]; decide
        · simp [infinity, matched, hc] at h1
    · split at h
      · split at h <;> cases h
      · cases h

theorem special_of_stops {cs : List Char} (h : Stops (fun c => fold c = 'i' || fold c = 'n') cs) :
    special cs = ⟨.absent, 0⟩ := by
  cases cs with
  | nil => rfl
  | cons c cs =>
    rw [Text.stops_cons, Bool.or_eq_false_iff, decide_eq_false_iff_not, decide_eq_false_iff_not] at h
    have hi : ¬ fold 'i' = fold c := fun he => h.1 (he.symm.trans (by decide))
    have hn : ¬ fold 'n' = fold c := fun he => h.2 (he.symm.trans (by decide))
    simp [special, infinity, notANumber, matched, hi, hn]

/-! ## Behind a sign -/

/-- The letters that the words begin with. -/
theorem cases_of_fold {c : Char} (h : fold c = 'i' ∨ fold c = 'n') : c = 'i' ∨ c = 'I' ∨ c = 'n' ∨ c = 'N' := by
  rw [Caseless.fold_eq_iff (by decide), Caseless.fold_eq_iff (by decide)] at h
  simp only [← Char.toNat_inj]
  simp at h ⊢
  omega

theorem not_continues_of_fold (r : Radix) {c : Char} (h : fold c = 'i' ∨ fold c = 'n') : continues r c = false := by
  rcases cases_of_fold h with rfl | rfl | rfl | rfl <;> (cases r <;> decide)

theorem not_continues_of_unit (r : Radix) {i : Char} (hi : isImaginaryUnit i = true) : continues r i = false :=
  not_continues_of_fold r (Or.inl ((fold_eq_i_iff i).2 hi))

theorem not_continues_of_sign (r : Radix) {s : Char} (hs : isSign s = true) : continues r s = false := by
  rcases (isSign_iff s).1 hs with rfl | rfl <;> (cases r <;> decide)

theorem Grammar.InfNan.exists_cons {w : List Char} (hw : InfNan w) :
    ∃ c cs, w = c :: cs ∧ (fold c = 'i' ∨ fold c = 'n') := by
  cases w with
  | nil => rcases hw with hw | hw <;> cases hw
  | cons c w =>
    simp only [InfNan, sameWord, infinity, notANumber, List.map_cons, List.cons.injEq, decide_eq_true_eq] at hw
    exact ⟨c, w, rfl, hw.imp (fun h => h.1.trans (by decide)) (fun h => h.1.trans (by decide))⟩

theorem Grammar.InfNan.stops {w : List Char} (hw : InfNan w) (r : Radix) (rest : List Char) :
    Stops (continues r) (w ++ rest) := by
  obtain ⟨c, cs, rfl, hc⟩ := hw.exists_cons
  exact (Text.stops_cons ..).2 (not_continues_of_fold r hc)

theorem Grammar.UReal.exists_cons {r : Radix} {w : List Char} (hw : UReal r w) :
    ∃ c cs, w = c :: cs ∧ (r.isDigit c = true ∨ c = '.') := by
  have hd : ∀ {ds : List Char}, UInteger r ds → ∀ rest, ∃ c cs, ds ++ rest = c :: cs ∧ (r.isDigit c = true ∨ c = '.') :=
    fun {ds} h rest => by
      cases ds with
      | nil => exact absurd rfl h.ne_nil
      | cons d ds => exact ⟨d, ds ++ rest, rfl, Or.inl (h.digits d List.mem_cons_self)⟩
  cases hw with
  | integer h => simpa using hd h []
  | ratio h _ => exact hd h _
  | decimal hr h =>
    subst hr
    obtain ⟨hm, -⟩ := h
    cases hm with
    | whole h => exact hd h _
    | point h _ => rw [List.append_assoc]; exact hd h _
    | fraction _ => exact ⟨'.', _, rfl, Or.inr rfl⟩

theorem Grammar.UReal.stops_sign {r : Radix} {w : List Char} (hw : UReal r w) (rest : List Char) :
    Stops isSign (w ++ rest) := by
  obtain ⟨c, cs, rfl, hc⟩ := hw.exists_cons
  refine (Text.stops_cons ..).2 ?_
  rcases hc with hc | rfl
  · exact not_sign_of_digit hc
  · decide

theorem Grammar.UReal.special {r : Radix} {w : List Char} (hw : UReal r w) (rest : List Char) :
    Number.special (w ++ rest) = ⟨.absent, 0⟩ := by
  obtain ⟨c, cs, rfl, hc⟩ := hw.exists_cons
  refine special_of_stops ((Text.stops_cons ..).2 ?_)
  have hcont : continues r c = true := by rcases hc with hc | rfl <;> simp [continues, *]
  rw [Bool.or_eq_false_iff, decide_eq_false_iff_not, decide_eq_false_iff_not]
  constructor
  · intro h; rw [not_continues_of_fold r (Or.inl h)] at hcont; cases hcont
  · intro h; rw [not_continues_of_fold r (Or.inr h)] at hcont; cases hcont

theorem signed_of_real {r : Radix} {cs : List Char} (h : (magnitude r cs).shape = .real) :
    signed r cs = magnitude r cs := by
  simp [signed, h]

theorem signed_of_stops {r : Radix} {cs : List Char} (h : Stops (continues r) cs) : signed r cs = special cs := by
  simp [signed, magnitude_of_stops h, Part.shift]

/-- Behind a sign stands a magnitude, or what `special` finds, or, outside radix ten, digits before a point or an
exponent mark. -/
theorem signed_eq (r : Radix) (cs : List Char) :
    ((magnitude r cs).shape ≠ .absent ∧ signed r cs = magnitude r cs) ∨ signed r cs = special cs ∨
      signed r cs = ⟨.absent, (magnitude r cs).taken⟩ := by
  by_cases ha : (magnitude r cs).shape = .absent
  · rcases magnitude_absent ha with h0 | ⟨-, -, c, rest, hdrop, hc⟩
    · exact Or.inr (Or.inl (by simp [signed, ha, h0, Part.shift]))
    · have hs : special (c :: rest) = ⟨.absent, 0⟩ := special_of_stops ((Text.stops_cons ..).2 (by
        rcases hc with rfl | hc
        · decide
        · rcases (isExponentMark_iff c).1 hc with rfl | rfl <;> decide))
      exact Or.inr (Or.inr (by simp [signed, ha, hdrop, hs, Part.shift]))
  · exact Or.inl ⟨ha, by simp [signed, ha]⟩

theorem signed_cases {r : Radix} {cs : List Char} (h : (signed r cs).shape = .real ∨ (signed r cs).shape = .unit) :
    ((magnitude r cs).shape = .real ∧ signed r cs = magnitude r cs) ∨ signed r cs = special cs := by
  rcases signed_eq r cs with ⟨-, heq⟩ | heq | heq
  · rw [heq] at h
    exact Or.inl ⟨h.resolve_right (magnitude_ne_unit r cs), heq⟩
  · exact Or.inr heq
  · rw [heq] at h
    rcases h with h | h <;> cases h

theorem signed_longest {r : Radix} {w rest : List Char} (hw : UReal r w)
    (h : (signed r (w ++ rest)).shape = .real ∨ (signed r (w ++ rest)).shape = .unit) :
    w.length ≤ (signed r (w ++ rest)).taken := by
  rcases signed_cases h with ⟨hm, heq⟩ | heq
  · rw [heq]
    exact magnitude_longest hw hm
  · rw [heq, hw.special] at h
    rcases h with h | h <;> cases h

/-- What is found behind a sign is a magnitude or one of the words. -/
theorem signed_sound {r : Radix} {cs : List Char} (h : (signed r cs).shape = .real) :
    ∃ y t, cs = y ++ t ∧ (UReal r y ∨ InfNan y) ∧ (signed r cs).taken = y.length := by
  rcases signed_cases (Or.inl h) with ⟨hm, heq⟩ | heq
  · obtain ⟨y, t, hy, hg, hl⟩ := magnitude_sound hm
    exact ⟨y, t, hy, Or.inl hg, by rw [heq, hl]⟩
  · rw [heq] at h ⊢
    obtain ⟨y, t, hy, hg, hl⟩ := special_sound h
    exact ⟨y, t, hy, Or.inr hg, hl⟩

theorem signed_pos {r : Radix} {cs : List Char} (h : (signed r cs).shape = .real ∨ (signed r cs).shape = .unit) :
    0 < (signed r cs).taken := by
  rcases signed_cases h with ⟨hm, heq⟩ | heq
  · rw [heq]
    exact magnitude_real_pos hm
  · rw [heq] at h ⊢
    rcases h with h | h
    · obtain ⟨w, rest, rfl, hw, ht⟩ := special_sound h
      rw [ht]
      rcases hw with hw | hw <;> (rw [length_of_sameWord hw]; decide)
    · obtain ⟨i, rest, rfl, -, ht⟩ := special_unit_sound h
      omega

/-! ## Real numbers -/

theorem real_signed {s : Char} (hs : isSign s = true) (r : Radix) (cs : List Char) :
    real r (s :: cs) = (signed r cs).shift 1 := by
  simp [real, hs]

theorem real_unsigned {r : Radix} {cs : List Char} (h : Stops isSign cs) : real r cs = magnitude r cs := by
  cases cs with
  | nil => simp [real, magnitude]
  | cons c cs =>
    have hc := (Text.stops_cons ..).1 h
    simp [real, hc]

theorem real_complete {r : Radix} {w rest : List Char} (hw : Real r w) (hr : Stops (continues r) rest) :
    real r (w ++ rest) = ⟨.real, w.length⟩ := by
  cases hw with
  | unsigned hw => rw [real_unsigned (hw.stops_sign rest), magnitude_complete hw hr]
  | @signed s w hs hw =>
    have hm := magnitude_complete hw hr
    rw [List.cons_append, real_signed hs, signed_of_real (by rw [hm]), hm]
    simp [Part.shift, Nat.add_comm]
  | @infNan s w hs hw =>
    rw [List.cons_append, real_signed hs, signed_of_stops (hw.stops r rest), special_infNan hw]
    simp [Part.shift, Nat.add_comm]

theorem real_longest {r : Radix} {w rest : List Char} (hw : Real r w)
    (h : (real r (w ++ rest)).shape = .real ∨ (real r (w ++ rest)).shape = .unit) :
    w.length ≤ (real r (w ++ rest)).taken := by
  cases hw with
  | unsigned hw =>
    rw [real_unsigned (hw.stops_sign rest)] at h ⊢
    exact magnitude_longest hw (h.resolve_right (magnitude_ne_unit r _))
  | @signed s w hs hw =>
    rw [List.cons_append, real_signed hs] at h ⊢
    have := signed_longest hw h
    rw [Part.taken_shift, List.length_cons]
    omega
  | @infNan s w hs hw =>
    rw [List.cons_append, real_signed hs, signed_of_stops (hw.stops r rest), special_infNan hw]
    simp [Nat.add_comm]

theorem real_sound {r : Radix} {cs : List Char} (h : (real r cs).shape = .real) :
    ∃ w rest, cs = w ++ rest ∧ Real r w ∧ (real r cs).taken = w.length := by
  cases cs with
  | nil => cases h
  | cons c cs =>
    cases hs : isSign c with
    | false =>
      have heq : real r (c :: cs) = magnitude r (c :: cs) := real_unsigned ((Text.stops_cons ..).2 hs)
      rw [heq] at h ⊢
      obtain ⟨w, rest, hw, hg, ht⟩ := magnitude_sound h
      exact ⟨w, rest, hw, .unsigned hg, ht⟩
    | true =>
      rw [real_signed hs] at h ⊢
      obtain ⟨w, rest, rfl, hg, ht⟩ := signed_sound h
      exact ⟨c :: w, rest, rfl, hg.elim (.signed hs) (.infNan hs), by
        rw [Part.taken_shift, ht, List.length_cons, Nat.add_comm]⟩

theorem real_unit_sound {r : Radix} {cs : List Char} (h : (real r cs).shape = .unit) :
    ∃ s i rest, cs = s :: i :: rest ∧ isSign s = true ∧ isImaginaryUnit i = true ∧ (real r cs).taken = 2 := by
  cases cs with
  | nil => cases h
  | cons c cs =>
    cases hs : isSign c with
    | false =>
      have heq : real r (c :: cs) = magnitude r (c :: cs) := real_unsigned ((Text.stops_cons ..).2 hs)
      rw [heq] at h
      exact absurd h (magnitude_ne_unit r _)
    | true =>
      rw [real_signed hs] at h ⊢
      rcases signed_cases (Or.inr h) with ⟨hm, heq⟩ | heq
      · rw [Part.shape_shift, heq, hm] at h; cases h
      · rw [Part.shape_shift, heq] at h
        obtain ⟨i, rest, rfl, hi, ht⟩ := special_unit_sound h
        exact ⟨c, i, rest, rfl, hs, hi, by rw [Part.taken_shift, heq, ht]⟩

/-! ## Whole numbers -/

theorem complex_of_real {r : Radix} {cs : List Char} {n : Nat} (h : real r cs = ⟨.real, n⟩) :
    complex r cs = (afterReal r (cs.drop n)).shift n := by
  simp [complex, h]

theorem imaginaryUnit_cons {i : Char} (hi : isImaginaryUnit i = true) (cs : List Char) :
    imaginaryUnit (i :: cs) = .accept 1 := by
  simp [imaginaryUnit, hi]

theorem imaginaryUnit_sound {cs : List Char} (h : (imaginaryUnit cs).error? = none) :
    ∃ i rest, cs = i :: rest ∧ isImaginaryUnit i = true ∧ (imaginaryUnit cs).taken = 1 := by
  cases cs with
  | nil => cases h
  | cons i cs =>
    cases hi : isImaginaryUnit i with
    | true => exact ⟨i, cs, rfl, hi, by rw [imaginaryUnit_cons hi]; rfl⟩
    | false => simp [imaginaryUnit, hi, Reading.reject] at h

section
variable {r : Radix}

theorem imaginary_of_real {cs : List Char} {n : Nat} (h : signed r cs = ⟨.real, n⟩) :
    imaginary r cs = (imaginaryUnit (cs.drop n)).shift n := by
  simp [imaginary, h]

theorem imaginary_of_factor {y : List Char} {i : Char} (hy : Factor r y) (hne : y ≠ [])
    (hi : isImaginaryUnit i = true) (rest : List Char) : imaginary r (y ++ i :: rest) = .accept (y.length + 1) := by
  have hs : signed r (y ++ i :: rest) = ⟨.real, y.length⟩ := by
    cases hy with
    | missing => exact absurd rfl hne
    | magnitude hw =>
      have hm := magnitude_complete hw ((Text.stops_cons _ i rest).2 (not_continues_of_unit r hi))
      rw [signed_of_real (by rw [hm]), hm]
    | infNan hw => rw [signed_of_stops (hw.stops r _), special_infNan hw]
  rw [imaginary_of_real hs, List.drop_left, imaginaryUnit_cons hi]
  rfl

theorem imaginary_of_unit {i : Char} (hi : isImaginaryUnit i = true) {rest : List Char}
    (hr : Stops (fold · = 'n') rest) : imaginary r (i :: rest) = .accept 1 := by
  have hs : signed r (i :: rest) = ⟨.unit, 1⟩ := by
    rw [signed_of_stops ((Text.stops_cons ..).2 (not_continues_of_unit r hi)), special_unit hi hr]
  simp [imaginary, hs]

theorem imaginary_pos {cs : List Char} (h : (imaginary r cs).error? = none) : 0 < (imaginary r cs).taken := by
  unfold imaginary at h ⊢
  simp only at h ⊢
  split at h
  · rename_i hs
    have := signed_pos (Or.inl hs)
    simp only [Reading.taken_shift]
    omega
  · rename_i hs
    exact signed_pos (Or.inr hs)
  · cases h
  · cases h

theorem imaginary_sound {cs : List Char} (h : (imaginary r cs).error? = none) :
    ∃ y i rest, cs = y ++ i :: rest ∧ Factor r y ∧ isImaginaryUnit i = true ∧
      (imaginary r cs).taken = y.length + 1 := by
  unfold imaginary at h ⊢
  simp only at h ⊢
  split at h
  · rename_i hs
    obtain ⟨i, rest, hdrop, hi, ht⟩ := imaginaryUnit_sound h
    obtain ⟨y, t, rfl, hy, hl⟩ := signed_sound hs
    have hy : Factor r y := hy.elim .magnitude .infNan
    rw [hl, List.drop_left] at hdrop ht
    refine ⟨y, i, rest, by rw [hdrop], hy, hi, ?_⟩
    simp only [Reading.taken_shift, hl, List.drop_left, ht]
  · rename_i hs
    rcases signed_cases (Or.inr hs) with ⟨hm, heq⟩ | heq
    · rw [heq, hm] at hs; cases hs
    · have hu := hs
      rw [heq] at hu
      obtain ⟨i, rest, rfl, hi, ht⟩ := special_unit_sound hu
      refine ⟨[], i, rest, rfl, .missing, hi, ?_⟩
      simp only [Reading.accept, heq, ht, List.length_nil]
  · cases h
  · cases h

theorem angle_eq {cs : List Char} {n : Nat} (h : real r cs = ⟨.real, n⟩) : angle r cs = .accept n := by
  simp [angle, h]

theorem angle_ok {cs : List Char} (h : (angle r cs).error? = none) :
    (real r cs).shape = .real ∧ (angle r cs).taken = (real r cs).taken := by
  unfold angle at h ⊢
  simp only at h ⊢
  split at h
  · rename_i hs; exact ⟨hs, rfl⟩
  · cases h
  · cases h
  · cases h

theorem afterReal_sign {s : Char} (hs : isSign s = true) (cs : List Char) :
    afterReal r (s :: cs) = (imaginary r cs).shift 1 := by
  simp [afterReal, hs]

theorem afterReal_at (cs : List Char) : afterReal r ('@' :: cs) = (angle r cs).shift 1 := by
  simp [afterReal, isSign]

theorem afterReal_unit {i : Char} (hi : isImaginaryUnit i = true) (cs : List Char) :
    afterReal r (i :: cs) = .accept 1 := by
  rcases (isImaginaryUnit_iff i).1 hi with rfl | rfl <;> rfl

theorem afterReal_of_delimited {cs : List Char} (h : Delimited cs) : afterReal r cs = .accept 0 := by
  cases cs with
  | nil => rfl
  | cons c cs =>
    have hc : (isSign c || c = '@' || isImaginaryUnit c) = false :=
      (Text.stops_cons (fun c => isSign c || c = '@' || isImaginaryUnit c) c cs).1 (h.stops (by decide))
    simp only [Bool.or_eq_false_iff, decide_eq_false_iff_not] at hc
    simp [afterReal, hc]

theorem stops_of_delimited {cs : List Char} (h : Delimited cs) : Stops (continues r) cs :=
  h.stops (by cases r <;> decide)

/-- **A number is taken** where a delimiter follows it, or nothing. -/
theorem complex_complete {w rest : List Char} (hw : Complex r w) (hr : Delimited rest) :
    complex r (w ++ rest) = .accept w.length := by
  have hn : Stops (fold · = 'n') rest := hr.stops (by decide)
  cases hw with
  | real hw =>
    rw [complex_of_real (real_complete hw (stops_of_delimited hr)), List.drop_left, afterReal_of_delimited hr]
    rfl
  | @polar m a hm ha =>
    have hat : Stops (continues r) ('@' :: (a ++ rest)) := (Text.stops_cons ..).2 (by cases r <;> decide)
    rw [List.append_assoc, List.cons_append, complex_of_real (real_complete hm hat), List.drop_left, afterReal_at,
      angle_eq (real_complete ha (stops_of_delimited hr)), List.length_append, List.length_cons]
    simp [Reading.shift, Reading.accept, Nat.add_comm]
  | @rectangular x y s i hx hs hy hi =>
    have hsign : Stops (continues r) (s :: (y ++ (i :: rest))) := (Text.stops_cons ..).2 (not_continues_of_sign r hs)
    have him : imaginary r (y ++ i :: rest) = .accept (y.length + 1) := by
      by_cases hne : y = []
      · subst hne; exact imaginary_of_unit hi hn
      · exact imaginary_of_factor hy hne hi rest
    have heq : x ++ s :: (y ++ [i]) ++ rest = x ++ s :: (y ++ i :: rest) := by simp
    rw [heq, complex_of_real (real_complete hx hsign), List.drop_left, afterReal_sign hs, him]
    simp [Reading.shift, Reading.accept]
    omega
  | @imaginary y i hy hi =>
    have hunit : Stops (continues r) (i :: rest) := (Text.stops_cons ..).2 (not_continues_of_unit r hi)
    rw [List.append_assoc, List.cons_append, List.nil_append, complex_of_real (real_complete hy hunit),
      List.drop_left, afterReal_unit hi]
    simp [Reading.shift, Reading.accept]
  | @unit s i hs hi =>
    have hreal : real r (s :: i :: rest) = ⟨.unit, 2⟩ := by
      rw [real_signed hs, signed_of_stops ((Text.stops_cons ..).2 (not_continues_of_unit r hi)), special_unit hi hn]
      rfl
    simp [complex, hreal]

theorem afterReal_sound {x cs : List Char} (hx : Real r x) (h : (afterReal r cs).error? = none) :
    ∃ w rest, x ++ cs = w ++ rest ∧ Complex r w ∧ x.length + (afterReal r cs).taken = w.length := by
  cases cs with
  | nil => exact ⟨x, [], rfl, .real hx, rfl⟩
  | cons c cs =>
    by_cases hs : isSign c = true
    · rw [afterReal_sign hs] at h ⊢
      obtain ⟨y, i, rest, rfl, hy, hi, ht⟩ := imaginary_sound h
      refine ⟨x ++ c :: (y ++ [i]), rest, by simp, .rectangular hx hs hy hi, ?_⟩
      simp only [Reading.taken_shift, ht, List.length_append, List.length_cons, List.length_nil]
      omega
    · by_cases hat : c = '@'
      · subst hat
        rw [afterReal_at] at h ⊢
        obtain ⟨ha, ht⟩ := angle_ok h
        obtain ⟨a, rest, rfl, hag, hal⟩ := real_sound ha
        refine ⟨x ++ '@' :: a, rest, by simp, .polar hx hag, ?_⟩
        simp only [Reading.taken_shift, ht, hal, List.length_append, List.length_cons]
        omega
      · by_cases hi : isImaginaryUnit c = true
        · exact ⟨x ++ [c], cs, by simp, .imaginary hx hi, by simp [afterReal_unit hi, Reading.accept]⟩
        · exact ⟨x, c :: cs, rfl, .real hx, by simp [afterReal, hs, hat, hi, Reading.accept]⟩

/-- **What is taken is a number.** -/
theorem complex_sound {cs : List Char} (h : (complex r cs).error? = none) :
    ∃ w rest, cs = w ++ rest ∧ Complex r w ∧ (complex r cs).taken = w.length := by
  unfold complex at h ⊢
  simp only at h ⊢
  split at h
  · rename_i hs
    obtain ⟨x, t, rfl, hx, hl⟩ := real_sound hs
    simp only [hl, List.drop_left, Reading.error?_shift, Reading.taken_shift] at h ⊢
    exact afterReal_sound hx h
  · rename_i hs
    obtain ⟨s, i, rest, rfl, hsg, hi, ht⟩ := real_unit_sound hs
    exact ⟨[s, i], rest, rfl, .unit hsg hi, ht⟩
  · cases h
  · cases h

/-- **No longer number stands there** than the one that is taken. -/
theorem complex_longest {w rest : List Char} (hw : Complex r w) (h : (complex r (w ++ rest)).error? = none) :
    w.length ≤ (complex r (w ++ rest)).taken := by
  cases hw with
  | real hw =>
    unfold complex at h ⊢
    simp only at h ⊢
    split at h
    · rename_i hs
      exact Nat.le_trans (real_longest hw (Or.inl hs)) (Nat.le_add_right ..)
    · rename_i hs
      exact real_longest hw (Or.inr hs)
    · cases h
    · cases h
  | @polar m a hm ha =>
    have hat : Stops (continues r) ('@' :: (a ++ rest)) := (Text.stops_cons ..).2 (by cases r <;> decide)
    rw [List.append_assoc, List.cons_append, complex_of_real (real_complete hm hat), List.drop_left, afterReal_at] at h ⊢
    obtain ⟨hs, ht⟩ := angle_ok h
    have := real_longest ha (Or.inl hs)
    simp only [Reading.taken_shift, ht, List.length_append, List.length_cons]
    omega
  | @rectangular x y s i hx hs hy hi =>
    have hsign : Stops (continues r) (s :: (y ++ (i :: rest))) := (Text.stops_cons ..).2 (not_continues_of_sign r hs)
    have heq : x ++ s :: (y ++ [i]) ++ rest = x ++ s :: (y ++ i :: rest) := by simp
    rw [heq, complex_of_real (real_complete hx hsign), List.drop_left, afterReal_sign hs] at h ⊢
    have : y.length + 1 ≤ (imaginary r (y ++ i :: rest)).taken := by
      by_cases hne : y = []
      · subst hne; exact imaginary_pos h
      · rw [imaginary_of_factor hy hne hi]; exact Nat.le_refl _
    simp only [Reading.taken_shift, List.length_append, List.length_cons, List.length_nil]
    omega
  | @imaginary y i hy hi =>
    have hunit : Stops (continues r) (i :: rest) := (Text.stops_cons ..).2 (not_continues_of_unit r hi)
    rw [List.append_assoc, List.cons_append, List.nil_append, complex_of_real (real_complete hy hunit),
      List.drop_left, afterReal_unit hi]
    simp [Reading.accept]
  | @unit s i hs hi =>
    rw [show [s, i] ++ rest = s :: i :: rest from rfl] at h ⊢
    unfold complex at h ⊢
    rw [real_signed hs] at h ⊢
    simp only [Part.shape_shift, Part.taken_shift] at h ⊢
    split at h
    · rename_i hr
      have := signed_pos (Or.inl hr)
      simp only [Reading.taken_shift, List.length_cons, List.length_nil]
      omega
    · rename_i hr
      have := signed_pos (Or.inr hr)
      simp only [Reading.accept, List.length_cons, List.length_nil]
      omega
    · cases h
    · cases h

end

end Number
end SchemeLexer
