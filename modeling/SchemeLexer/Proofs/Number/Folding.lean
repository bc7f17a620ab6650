import SchemeLexer.Number.Marked
import SchemeLexer.Proofs.Runs
/-!
# Folding — numbers whatever the case of their letters

The rules for numbers look at digits, at the letters of exponents, units, words and markers, and at marks, and none of
them tells a letter from its capital (`Blind`).  So a number may be folded and is read as before: `blind_complex`,
`blind_afterMarks`.
-/
namespace SchemeLexer

open Caseless (fold matched sameWord)
open Text (run)

/-- A class that has a letter in both its cases, or in neither. -/
def BlindClass (p : Char → Bool) : Prop := ∀ c, p (fold c) = p c

/-- A rule to which a letter and its capital are the same. -/
def Blind {α : Type} (rule : List Char → α) : Prop := ∀ cs, rule (cs.map fold) = rule cs

def capitals : List Char :=
  ['A', 'B', 'C', 'D', 'E', 'F', 'G', 'H', 'I', 'J', 'K', 'L', 'M', 'N', 'O', 'P', 'Q', 'R', 'S', 'T', 'U', 'V', 'W',
    'X', 'Y', 'Z']

theorem mem_capitals {c : Char} (h : 65 ≤ c.toNat ∧ c.toNat ≤ 90) : c ∈ capitals := by
  simp only [capitals, List.mem_cons, List.not_mem_nil, or_false, ← Char.toNat_inj]
  simp
  omega

/-- It takes no more than the capitals to tell. -/
theorem blindClass {p : Char → Bool} (h : capitals.all (fun c => p (fold c) == p c) = true) : BlindClass p := by
  intro c
  by_cases hc : 65 ≤ c.toNat ∧ c.toNat ≤ 90
  · exact beq_iff_eq.1 (List.all_eq_true.1 h c (mem_capitals hc))
  · have hfold : fold c = c := by rw [← Char.toNat_inj, Caseless.toNat_fold, if_neg hc]
    rw [hfold]

/-- A mark is no letter's other case. -/
theorem fold_eq_mark {d : Char} (hd : isLetter d = false) (c : Char) : fold c = d ↔ c = d := by
  have hletter : ¬ isLetter d = true := by simp [hd]
  rw [isLetter_iff] at hletter
  rw [← Char.toNat_inj, ← Char.toNat_inj, Caseless.toNat_fold]
  split <;> omega

theorem Blind.eq {α : Type} {rule : List Char → α} (h : Blind rule) {cs ds : List Char}
    (hcs : cs.map fold = ds.map fold) : rule cs = rule ds := by
  rw [← h cs, hcs, h ds]

theorem blind_run {p : Char → Bool} (hp : BlindClass p) : Blind (run p) := by
  intro cs
  induction cs with
  | nil => rfl
  | cons c cs ih => rw [List.map_cons, Text.run_cons, Text.run_cons, hp, ih]

theorem blind_oneMore : Blind Text.oneMore := fun cs => by simp [Text.oneMore]

theorem blind_matched : ∀ word : List Char, Blind (matched word)
  | [], _ => by simp [matched]
  | _ :: _, [] => rfl
  | w :: word, c :: cs => by
    rw [List.map_cons, matched, matched, Caseless.fold_fold, blind_matched word cs]

theorem blind_sameWord (word : List Char) : Blind fun cs => sameWord cs word := by
  intro cs
  have hmap : (cs.map fold).map fold = cs.map fold := by simp
  simp only [sameWord, hmap]

namespace Number

theorem blindClass_digit (r : Radix) : BlindClass r.isDigit := by
  cases r with
  | binary => exact blindClass (by decide)
  | octal => exact blindClass (by decide)
  | decimal => exact blindClass (by decide)
  | hexadecimal => exact blindClass (by decide)

theorem blindClass_exponentMark : BlindClass isExponentMark := blindClass (by decide)

theorem blindClass_sign : BlindClass isSign := blindClass (by decide)

theorem blindClass_imaginaryUnit : BlindClass isImaginaryUnit := blindClass (by decide)

theorem blind_digits : Blind (run isDigit) := blind_run (blindClass_digit .decimal)

theorem blind_signLength : Blind signLength
  | [] => rfl
  | c :: cs => by
    rw [signLength, signLength, List.map_cons, List.head?_cons, List.head?_cons, Option.any_some, Option.any_some,
      blindClass_sign c]

theorem blind_fractionLength : Blind fractionLength
  | [] => rfl
  | c :: cs => by
    simp only [fractionLength, List.map_cons, fold_eq_mark (d := '.') (by decide), blind_digits cs]

theorem blind_exponent (n : Nat) : Blind (exponent n)
  | [] => rfl
  | c :: cs => by
    simp only [exponent, List.map_cons, blindClass_exponentMark c, blind_signLength cs, ← List.map_drop,
      blind_digits (cs.drop (signLength cs))]

theorem blind_decimal (n : Nat) : Blind (decimal n) := by
  intro cs
  simp only [decimal, blind_fractionLength cs, ← List.map_drop, blind_exponent _ (cs.drop (fractionLength cs))]

theorem blind_magnitude (r : Radix) : Blind (magnitude r) := by
  intro cs
  unfold magnitude
  simp only [blind_run (blindClass_digit r) cs, ← List.map_drop]
  cases cs.drop (run r.isDigit cs) with
  | nil => rfl
  | cons c t =>
    have hdecimal := blind_decimal (run r.isDigit cs) (c :: t)
    rw [List.map_cons] at hdecimal
    simp only [List.map_cons, fold_eq_mark (d := '/') (by decide), fold_eq_mark (d := '.') (by decide),
      blindClass_exponentMark c, blind_run (blindClass_digit r) t, hdecimal]

theorem blind_special : Blind special := by
  intro cs
  simp only [special, blind_matched infinity cs, blind_matched notANumber cs]

theorem blind_signed (r : Radix) : Blind (signed r) := by
  intro cs
  simp only [signed, blind_magnitude r cs, ← List.map_drop, blind_special (cs.drop (magnitude r cs).taken)]

theorem blind_real (r : Radix) : Blind (real r)
  | [] => rfl
  | c :: cs => by
    have hmagnitude := blind_magnitude r (c :: cs)
    rw [List.map_cons] at hmagnitude
    simp only [real, List.map_cons, blindClass_sign c, blind_signed r cs, hmagnitude]

theorem blind_imaginaryUnit : Blind imaginaryUnit
  | [] => rfl
  | c :: cs => by
    simp only [imaginaryUnit, List.map_cons, List.head?_cons, Option.any_some, blindClass_imaginaryUnit c,
      Text.oneMore_cons]

theorem blind_imaginary (r : Radix) : Blind (imaginary r) := by
  intro cs
  simp only [imaginary, blind_signed r cs, ← List.map_drop, blind_imaginaryUnit (cs.drop (signed r cs).taken)]

theorem blind_angle (r : Radix) : Blind (angle r) := by
  intro cs
  simp only [angle, blind_real r cs]

theorem blind_afterReal (r : Radix) : Blind (afterReal r)
  | [] => rfl
  | c :: cs => by
    simp only [afterReal, List.map_cons, blindClass_sign c, blindClass_imaginaryUnit c,
      fold_eq_mark (d := '@') (by decide), blind_imaginary r cs, blind_angle r cs]

/-- **A number is read whatever the case of its letters.** -/
theorem blind_complex (r : Radix) : Blind (complex r) := by
  intro cs
  simp only [complex, blind_real r cs, ← List.map_drop, blind_afterReal r (cs.drop (real r cs).taken)]

theorem ofChar?_fold (c : Char) : Marker.ofChar? (fold c) = Marker.ofChar? c := by
  unfold Marker.ofChar? Radix.ofDesignator?
  simp only [Caseless.fold_fold]

/-- **So are the markers in front of it.** -/
theorem blind_afterMarks : ∀ m : Marks, Blind (afterMarks m)
  | _, [] => rfl
  | m, c :: cs => by
    rw [List.map_cons, afterMarks, afterMarks, ofChar?_fold]
    cases (Marker.ofChar? c).bind m.add? with
    | none => rfl
    | some m' =>
      cases cs with
      | nil => rfl
      | cons d rest =>
        have hcomplex := blind_complex m'.radix (d :: rest)
        rw [List.map_cons] at hcomplex
        simp only [List.map_cons, fold_eq_mark (d := '#') (by decide), blind_afterMarks m' rest, hcomplex]

end Number
end SchemeLexer
