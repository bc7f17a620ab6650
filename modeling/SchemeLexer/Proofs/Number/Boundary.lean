import SchemeLexer.Proofs.Number.Faults
/-!
# Boundary — what a delimiter behind a text changes of its number

No rule for numbers reads on into a delimiter.  So a text has the same number at its head when a delimiter and more
text follow it (`complex_append`).  Only the count of an error may change, which takes the character that it is about.
-/
namespace SchemeLexer
namespace Number

open Text (run)
open Caseless (fold matched)

theorem signLength_le (cs : List Char) : signLength cs ≤ cs.length := by
  obtain ⟨s, rest, rfl, -, h⟩ := exists_sign cs
  rw [h, List.length_append]
  exact Nat.le_add_right ..

theorem fractionLength_le (cs : List Char) : fractionLength cs ≤ cs.length := by
  cases cs with
  | nil => exact Nat.le_refl _
  | cons c cs =>
    have := Text.run_le isDigit cs
    simp only [fractionLength, List.length_cons]
    split <;> omega

section
variable {b : List Char} (hb : Delimited b)
include hb

theorem run_digit_append (r : Radix) (cs : List Char) : run r.isDigit (cs ++ b) = run r.isDigit cs :=
  Text.run_append_delimited (by cases r <;> decide) hb cs

theorem run_isDigit_append (cs : List Char) : run isDigit (cs ++ b) = run isDigit cs := run_digit_append hb .decimal cs

theorem signLength_append (cs : List Char) : signLength (cs ++ b) = signLength cs := by
  cases cs with
  | nil =>
    cases b with
    | nil => rfl
    | cons d b =>
      have : isSign d = false := (Text.stops_cons ..).1 (hb.stops (by decide))
      simp [signLength, this]
  | cons c cs => rfl

theorem exponent_append (n : Nat) (cs : List Char) : exponent n (cs ++ b) = exponent n cs := by
  cases cs with
  | nil =>
    cases b with
    | nil => rfl
    | cons d b =>
      have : isExponentMark d = false := (Text.stops_cons ..).1 (hb.stops (by decide))
      simp [exponent, this]
  | cons c cs =>
    simp only [List.cons_append, exponent, signLength_append hb, List.drop_append_of_le_length (signLength_le cs),
      run_isDigit_append hb]

theorem fractionLength_append (cs : List Char) : fractionLength (cs ++ b) = fractionLength cs := by
  cases cs with
  | nil => exact fractionLength_eq_zero (hb.stops (by decide))
  | cons c cs => simp only [List.cons_append, fractionLength, run_isDigit_append hb]

theorem decimal_append (n : Nat) (cs : List Char) : decimal n (cs ++ b) = decimal n cs := by
  simp only [decimal, fractionLength_append hb, List.drop_append_of_le_length (fractionLength_le cs),
    exponent_append hb]

theorem magnitude_append (r : Radix) (cs : List Char) : magnitude r (cs ++ b) = magnitude r cs := by
  have hdrop : (cs ++ b).drop (run r.isDigit cs) = cs.drop (run r.isDigit cs) ++ b :=
    List.drop_append_of_le_length (Text.run_le ..)
  simp only [magnitude, run_digit_append hb, hdrop]
  cases cs.drop (run r.isDigit cs) with
  | nil =>
    cases b with
    | nil => rfl
    | cons d b =>
      have hd := (Text.stops_cons ..).1 (hb.stops (by decide) : Text.Stops (fun c => c = '/' || c = '.' || isExponentMark c) _)
      simp only [Bool.or_eq_false_iff, decide_eq_false_iff_not] at hd
      simp [hd]
  | cons c rest =>
    rw [List.cons_append]
    simp only [run_digit_append hb, ← List.cons_append, decimal_append hb]

theorem matched_append_delimited : ∀ {word : List Char},
    (word.any fun c => delimiters.any fun d => fold c = fold d) = false → ∀ cs : List Char,
      matched word (cs ++ b) = matched word cs
  | [], _, cs => by cases cs <;> cases b <;> rfl
  | c :: word, h, [] => by
    cases b with
    | nil => rfl
    | cons d b =>
      rw [List.any_cons, Bool.or_eq_false_iff] at h
      have : ¬ fold c = fold d := of_decide_eq_false (not_of_isDelimiter h.1 hb)
      simp [matched, this]
  | c :: word, h, d :: cs => by
    rw [List.any_cons, Bool.or_eq_false_iff] at h
    simp only [List.cons_append, matched, matched_append_delimited h.2 cs]

theorem special_append (cs : List Char) : special (cs ++ b) = special cs := by
  have hinf : matched infinity (cs ++ b) = matched infinity cs := matched_append_delimited hb (by decide) cs
  have hnan : matched notANumber (cs ++ b) = matched notANumber cs := matched_append_delimited hb (by decide) cs
  rw [special, special, hinf, hnan]

theorem signed_append (r : Radix) (cs : List Char) : signed r (cs ++ b) = signed r cs := by
  simp only [signed, magnitude_append hb]
  split
  · rw [List.drop_append_of_le_length (magnitude_le r cs), special_append hb]
  · rfl

theorem real_append (r : Radix) (cs : List Char) : real r (cs ++ b) = real r cs := by
  cases cs with
  | nil => exact (real_unsigned (hb.stops (by decide))).trans (magnitude_append hb r [])
  | cons c cs =>
    simp only [List.cons_append, real, signed_append hb]
    rw [← List.cons_append, magnitude_append hb]

theorem imaginary_append {r : Radix} {cs : List Char} (h : (imaginary r cs).error? = none) :
    imaginary r (cs ++ b) = imaginary r cs := by
  simp only [imaginary, signed_append hb] at h ⊢
  split at h
  · obtain ⟨i, rest, hdrop, hi, -⟩ := imaginaryUnit_sound h
    rw [List.drop_append_of_le_length (signed_le r cs), hdrop, List.cons_append, imaginaryUnit_cons hi,
      imaginaryUnit_cons hi]
  · rfl
  · rfl
  · rfl

theorem angle_append (r : Radix) (cs : List Char) : angle r (cs ++ b) = angle r cs := by
  simp only [angle, real_append hb]

theorem afterReal_append {r : Radix} {cs : List Char} (h : (afterReal r cs).error? = none) :
    afterReal r (cs ++ b) = afterReal r cs := by
  cases cs with
  | nil => exact afterReal_of_delimited hb
  | cons c cs =>
    rw [List.cons_append]
    by_cases hs : isSign c = true
    · rw [afterReal_sign hs] at h ⊢
      rw [afterReal_sign hs, imaginary_append hb h]
    · by_cases hat : c = '@'
      · subst hat
        rw [afterReal_at, afterReal_at, angle_append hb]
      · simp [afterReal, hs, hat]

/-- **A number at the head of a text stays as it is** when a delimiter follows the text. -/
theorem complex_append {r : Radix} {cs : List Char} (h : (complex r cs).error? = none) :
    complex r (cs ++ b) = complex r cs := by
  simp only [complex, real_append hb] at h ⊢
  split at h
  · rename_i hs
    obtain ⟨w, rest, rfl, -, hl⟩ := real_sound hs
    simp only [hl, List.append_assoc, List.drop_left, Reading.error?_shift] at h ⊢
    rw [afterReal_append hb h]
  · rfl
  · rfl
  · rfl

end

end Number
end SchemeLexer
