import SchemeLexer.Proofs.Number.Numerals
import SchemeLexer.Proofs.Words
/-!
# Routes — three ways to a decimal number

A bare word becomes a number by one of two routes.  Where a digit begins it, or stands behind its sign or its dot, the
rule for numbers reads it; where a letter stands behind its sign, it is read like an identifier and then looked up among
five words.  A word behind `#d` takes a third route, which is the rule for numbers in any case.

The rule for numbers agrees with the grammar (`complex_eq_accept`).  The five words are fewer than the grammar has: an
infinity with more behind it than the imaginary unit is an identifier (`first_of_longSpecial`), and on all other words
the routes agree (`first_number_iff`).
-/
namespace SchemeLexer

open Number (isImaginaryUnit)
open Number.Grammar (Complex InfNan Real Subsequents UInteger UReal)

/-- **The rule for numbers takes the whole of a text** exactly when the text is a number. -/
theorem Number.complex_eq_accept {r : Radix} {cs : List Char} :
    complex r cs = .accept cs.length ↔ Complex r cs := by
  constructor
  · intro h
    have hok : (complex r cs).error? = none := by rw [h]; rfl
    obtain ⟨w, rest, rfl, hw, ht⟩ := complex_sound hok
    rw [h, List.length_append] at ht
    have hlen : w.length + rest.length = w.length := ht
    obtain rfl : rest = [] := List.length_eq_zero_iff.1 (by omega)
    rwa [List.append_nil]
  · intro h
    simpa using complex_complete h delimited_nil

/-! ## The words behind a sign -/

namespace Lexeme

open Text (run)
open Caseless (fold sameWord)

/-- An infinity or a value that is no number, its sign in front and more behind it than the imaginary unit. -/
def LongSpecial (cs : List Char) : Prop :=
  ∃ s u rest, cs = s :: (u ++ rest) ∧ isSign s = true ∧ InfNan u ∧ rest ≠ [] ∧ ∀ i, rest = [i] → isImaginaryUnit i = false

theorem length_infNan {u : List Char} (h : InfNan u) : u.length = 5 := by
  rcases h with h | h
  · exact Number.length_of_sameWord h
  · exact Number.length_of_sameWord h

theorem sameWord_append_iff {v a b : List Char} :
    sameWord v (a ++ b) = true ↔ ∃ x y, v = x ++ y ∧ sameWord x a = true ∧ sameWord y b = true := by
  simp only [sameWord, List.map_append, decide_eq_true_eq, List.map_eq_append_iff]

theorem sameWord_unit_iff {v : List Char} : sameWord v ['i'] = true ↔ ∃ i, v = [i] ∧ isImaginaryUnit i = true := by
  have hi : ['i'].map fold = ['i'] := by decide
  simp only [sameWord, hi, decide_eq_true_eq, List.map_eq_singleton_iff, Number.fold_eq_i_iff]

/-- The words that make a number of a sign before them. -/
theorem isSignedNumber_iff {v : List Char} : isSignedNumber v = true ↔
    (∃ i, v = [i] ∧ isImaginaryUnit i = true) ∨ InfNan v ∨
      ∃ u i, v = u ++ [i] ∧ InfNan u ∧ isImaginaryUnit i = true := by
  simp only [isSignedNumber, signedNumbers, List.any_cons, List.any_nil, Bool.or_eq_true, Bool.or_false,
    sameWord_append_iff, sameWord_unit_iff]
  constructor
  · rintro (h | h | h | ⟨u, _, rfl, hu, i, rfl, hi⟩ | ⟨u, _, rfl, hu, i, rfl, hi⟩)
    · exact Or.inl h
    · exact Or.inr (Or.inl (Or.inl h))
    · exact Or.inr (Or.inl (Or.inr h))
    · exact Or.inr (Or.inr ⟨u, i, rfl, Or.inl hu, hi⟩)
    · exact Or.inr (Or.inr ⟨u, i, rfl, Or.inr hu, hi⟩)
  · rintro (h | (h | h) | ⟨u, i, rfl, hu | hu, hi⟩)
    · exact Or.inl h
    · exact Or.inr (Or.inl h)
    · exact Or.inr (Or.inr (Or.inl h))
    · exact Or.inr (Or.inr (Or.inr (Or.inl ⟨u, [i], rfl, hu, i, rfl, hi⟩)))
    · exact Or.inr (Or.inr (Or.inr (Or.inr ⟨u, [i], rfl, hu, i, rfl, hi⟩)))

theorem complex_of_isSignedNumber {s : Char} {v : List Char} (hs : isSign s = true) (h : isSignedNumber v = true) :
    Complex .decimal (s :: v) := by
  rcases isSignedNumber_iff.1 h with ⟨i, rfl, hi⟩ | hv | ⟨u, i, rfl, hu, hi⟩
  · exact .unit hs hi
  · exact .real (.infNan hs hv)
  · exact .imaginary (.infNan hs hu) hi

theorem not_longSpecial_of_isSignedNumber {s : Char} {v : List Char} (h : isSignedNumber v = true) :
    ¬ LongSpecial (s :: v) := by
  rintro ⟨s', u, rest, heq, -, hu, hne, hunit⟩
  obtain ⟨-, rfl⟩ := List.cons.inj heq
  have hlen := length_infNan hu
  have hpos := List.length_pos_iff.2 hne
  rcases isSignedNumber_iff.1 h with ⟨i, hv, -⟩ | hv | ⟨u', i, hv, hu', hi⟩
  · have := congrArg List.length hv
    rw [List.length_append, List.length_singleton] at this
    omega
  · have := length_infNan hv
    rw [List.length_append] at this
    omega
  · obtain ⟨-, rfl⟩ := List.append_inj hv (hlen.trans (length_infNan hu').symm)
    rw [hunit i rfl] at hi
    cases hi

theorem isSignedNumber_of_not_longSpecial {s : Char} {u rest : List Char} (hs : isSign s = true) (hu : InfNan u)
    (h : ¬ LongSpecial (s :: (u ++ rest))) : isSignedNumber (u ++ rest) = true := by
  rw [isSignedNumber_iff]
  by_cases hne : rest = []
  · exact Or.inr (Or.inl (by rwa [hne, List.append_nil]))
  · obtain ⟨i, hi⟩ := Classical.not_forall.1 fun hall => h ⟨s, u, rest, rfl, hs, hu, hne, hall⟩
    obtain ⟨rfl, hi⟩ := Classical.not_imp.1 hi
    exact Or.inr (Or.inr ⟨u, i, rfl, hu, by simpa using hi⟩)

/-! ## Where the routes begin -/

/-- How a number begins: with a digit, with a dot or a sign that a digit follows, or with a sign and a word. -/
inductive NumberHead : List Char → Prop
  | digit {c : Char} {cs : List Char} : isDigit c = true → NumberHead (c :: cs)
  | point {c : Char} {cs : List Char} : isDigit c = true → NumberHead ('.' :: c :: cs)
  | signDigit {s c : Char} {cs : List Char} : isSign s = true → isDigit c = true → NumberHead (s :: c :: cs)
  | signPoint {s c : Char} {cs : List Char} : isSign s = true → isDigit c = true → NumberHead (s :: '.' :: c :: cs)
  | infNan {s : Char} {u cs : List Char} : isSign s = true → InfNan u → NumberHead (s :: (u ++ cs))
  | unit {s i : Char} : isSign s = true → isImaginaryUnit i = true → NumberHead [s, i]

theorem uInteger_cons {ds : List Char} (h : UInteger .decimal ds) : ∃ c cs, ds = c :: cs ∧ isDigit c = true := by
  cases ds with
  | nil => exact absurd rfl h.ne_nil
  | cons c cs => exact ⟨c, cs, rfl, h.digits c List.mem_cons_self⟩

theorem uReal_head {w : List Char} (h : UReal .decimal w) :
    ∃ c cs, isDigit c = true ∧ (w = c :: cs ∨ w = '.' :: c :: cs) := by
  have hdigits : ∀ {ds : List Char}, UInteger .decimal ds → ∀ t,
      ∃ c cs, isDigit c = true ∧ (ds ++ t = c :: cs ∨ ds ++ t = '.' :: c :: cs) := fun hd t => by
    obtain ⟨c, cs, rfl, hc⟩ := uInteger_cons hd
    exact ⟨c, cs ++ t, hc, Or.inl rfl⟩
  cases h with
  | integer hd => simpa using hdigits hd []
  | ratio hn _ => exact hdigits hn _
  | decimal _ hw =>
    obtain ⟨hm, -⟩ := hw
    cases hm with
    | whole hd => exact hdigits hd _
    | point hd _ => rw [List.append_assoc]; exact hdigits hd _
    | fraction hf =>
      obtain ⟨c, cs, rfl, hc⟩ := uInteger_cons hf
      exact ⟨c, _, hc, Or.inr rfl⟩

theorem numberHead_real {x : List Char} (h : Real .decimal x) (t : List Char) : NumberHead (x ++ t) := by
  cases h with
  | unsigned hw =>
    obtain ⟨c, cs, hc, rfl | rfl⟩ := uReal_head hw
    · exact .digit hc
    · exact .point hc
  | signed hs hw =>
    obtain ⟨c, cs, hc, rfl | rfl⟩ := uReal_head hw
    · exact .signDigit hs hc
    · exact .signPoint hs hc
  | infNan hs hw => exact .infNan hs hw

theorem numberHead_complex {w : List Char} (h : Complex .decimal w) : NumberHead w := by
  cases h with
  | real hw => simpa using numberHead_real hw []
  | polar hm _ => exact numberHead_real hm _
  | rectangular hx _ _ _ => exact numberHead_real hx _
  | imaginary hy _ => exact numberHead_real hy _
  | unit hs hi => exact .unit hs hi

def digits : List Char := ['0', '1', '2', '3', '4', '5', '6', '7', '8', '9']

theorem not_of_isDigit {p : Char → Bool} (h : digits.any p = false) {c : Char} (hc : isDigit c = true) : p c = false := by
  refine Bool.eq_false_iff.2 (List.any_eq_false.1 h c ?_)
  rw [isDigit_iff] at hc
  simp only [digits, List.mem_cons, List.not_mem_nil, or_false, ← Char.toNat_inj]
  simp
  omega

theorem first_digit {c : Char} (hc : isDigit c = true) (cs : List Char) : first (c :: cs) = number (c :: cs) := by
  have hinitial : isInitial c = false := not_of_isDigit (by decide) hc
  have hwhite : isWhitespace c = false := not_of_isDigit (by decide) hc
  simp [first, hinitial, hwhite, hc]

theorem first_point {c : Char} (hc : isDigit c = true) (cs : List Char) :
    first ('.' :: c :: cs) = number ('.' :: c :: cs) := by
  have hdel : isDelimiter c = false := not_of_isDigit (by decide) hc
  have hsub : isDotSubsequent c = false := not_of_isDigit (by decide) hc
  have hdot : first ('.' :: c :: cs) = dot (c :: cs) := rfl
  simp [hdot, dot, hdel, hsub, hc]

theorem first_sign {s : Char} (hs : isSign s = true) (cs : List Char) : first (s :: cs) = signed s cs := by
  rcases (Number.isSign_iff s).1 hs with rfl | rfl <;> rfl

section
variable {s c : Char} (cs : List Char)

theorem signed_digit (hc : isDigit c = true) : signed s (c :: cs) = number (s :: c :: cs) := by
  have hdel : isDelimiter c = false := not_of_isDigit (by decide) hc
  have hdot : c ≠ '.' := of_decide_eq_false (not_of_isDigit (p := (· = '.')) (by decide) hc)
  simp [signed, hdel, hdot, hc]

theorem signed_point (hc : isDigit c = true) : signed s ('.' :: c :: cs) = number (s :: '.' :: c :: cs) :=
  if_pos hc

theorem signed_letter (hc : fold c = 'i' ∨ fold c = 'n') : signed s (c :: cs) = signedWord (c :: cs) := by
  rcases Number.cases_of_fold hc with rfl | rfl | rfl | rfl <;> rfl

end

/-- A word of subsequents is read to its end before it is looked up. -/
theorem signedWord_subsequents {v : List Char} (hv : Subsequents v) :
    signedWord v = word (if isSignedNumber v then .number else .identifier) (v.length + 1) := by
  have hrun : run isSubsequent v = v.length := Text.run_of_all hv
  simp only [signedWord, hrun, List.take_length]

theorem first_infNan {s : Char} {u rest : List Char} (hs : isSign s = true) (hu : InfNan u)
    (hw : Complex .decimal (s :: (u ++ rest))) : first (s :: (u ++ rest)) =
      word (if isSignedNumber (u ++ rest) then .number else .identifier) (u ++ rest).length.succ := by
  have hsub : Subsequents (u ++ rest) := fun c hc => hw.subsequents c (List.mem_cons_of_mem s hc)
  obtain ⟨c, cs, rfl, hc⟩ := hu.exists_cons
  rw [first_sign hs, List.cons_append, signed_letter _ hc, ← List.cons_append, signedWord_subsequents hsub]

theorem first_unit {s i : Char} (hs : isSign s = true) (hi : isImaginaryUnit i = true) :
    first [s, i] = word .number 2 := by
  have hsub : Subsequents [i] := fun c hc => by
    rw [List.mem_singleton.1 hc]; exact Number.Grammar.isSubsequent_of_isImaginaryUnit hi
  have hnum : isSignedNumber [i] = true := isSignedNumber_iff.2 (Or.inl ⟨i, rfl, hi⟩)
  rw [first_sign hs, signed_letter _ (Or.inl ((Number.fold_eq_i_iff i).2 hi)), signedWord_subsequents hsub, if_pos hnum]
  rfl

/-! ## Whole numbers -/

/-- The whole of a text of `n` characters is a number. -/
def IsNumber (n : Nat) (x : Lexeme) : Prop := ∃ owing, x = .token .number n owing

theorem isNumber_ofReading {owing : Bool} {r : Reading} {n : Nat} :
    IsNumber n (ofReading .number owing r) ↔ r = .accept n := by
  obtain ⟨taken, e?⟩ := r
  cases e? with
  | none => simp [IsNumber, ofReading, Reading.accept]
  | some e => simp [IsNumber, ofReading, Reading.accept]

theorem isNumber_number {cs : List Char} : IsNumber cs.length (number cs) ↔ Complex .decimal cs :=
  isNumber_ofReading.trans Number.complex_eq_accept

theorem isSignedNumber_of_signedWord {v : List Char} (h : IsNumber (v.length + 1) (signedWord v)) :
    isSignedNumber v = true := by
  obtain ⟨owing, h⟩ := h
  simp only [signedWord, word, Lexeme.token.injEq, Nat.add_right_cancel_iff] at h
  obtain ⟨hkind, hlen, -⟩ := h
  rw [hlen, List.take_length] at hkind
  by_cases hnum : isSignedNumber v = true
  · exact hnum
  · rw [if_neg hnum] at hkind
    cases hkind

/-- If the lexeme says that the whole text is a number, it is one. -/
def Vouches (cs : List Char) (x : Lexeme) : Prop := IsNumber cs.length x → Complex .decimal cs

section
variable {cs : List Char}

theorem vouches_token {kind : Kind} (hkind : kind ≠ .number) {n : Nat} {owing : Bool} :
    Vouches cs (.token kind n owing) := fun ⟨_, h⟩ => by
  cases h
  exact absurd rfl hkind

theorem vouches_skip {n : Nat} : Vouches cs (.skip n) := fun ⟨_, h⟩ => by cases h

theorem vouches_invalid {e : ScanError} {n : Nat} : Vouches cs (.invalid e n) := fun ⟨_, h⟩ => by cases h

theorem vouches_ofReading {kind : Kind} (hkind : kind ≠ .number) {owing : Bool} {r : Reading} :
    Vouches cs (ofReading kind owing r) := ofReading_induction (fun _ => vouches_token hkind) fun _ _ => vouches_invalid

theorem vouches_of_kinds {kinds : List Kind} {x : Lexeme} (h : OfKinds kinds x) (hkinds : .number ∉ kinds) :
    Vouches cs x := fun ⟨_, hx⟩ => absurd (h _ _ _ hx) hkinds

theorem vouches_number : Vouches cs (number cs) := isNumber_number.1

end

theorem vouches_dot : ∀ cs : List Char, Vouches ('.' :: cs) (dot cs)
  | [] => vouches_token (by decide)
  | _ :: _ =>
    iteInduction (fun _ => vouches_token (by decide)) fun _ =>
    iteInduction (fun _ => vouches_token (by decide)) fun _ =>
    iteInduction (fun _ => vouches_number) fun _ => vouches_invalid

theorem vouches_signDot (s : Char) : ∀ cs : List Char, Vouches (s :: '.' :: cs) (signDot s cs)
  | [] => vouches_invalid
  | _ :: _ =>
    iteInduction (fun _ => vouches_number) fun _ =>
    iteInduction (fun _ => vouches_token (by decide)) fun _ => vouches_invalid

theorem vouches_signed {s : Char} (hs : isSign s = true) : ∀ cs : List Char, Vouches (s :: cs) (signed s cs)
  | [] => vouches_token (by decide)
  | _ :: cs =>
    iteInduction (fun _ => vouches_token (by decide)) fun _ =>
    iteInduction (fun hdot => hdot ▸ vouches_signDot s cs) fun _ =>
    iteInduction (fun _ => vouches_number) fun _ =>
    iteInduction (fun _ h => complex_of_isSignedNumber hs (isSignedNumber_of_signedWord h)) fun _ => vouches_invalid

theorem vouches_first (c : Char) (cs : List Char) (hhash : c ≠ '#') : Vouches (c :: cs) (first (c :: cs)) := by
  obtain ⟨rule, hrule, heq⟩ := exists_leads c
  rw [heq]
  cases hrule with
  | initial => exact vouches_token (by decide)
  | whitespace => exact vouches_skip
  | digit => exact vouches_number
  | bar => exact vouches_ofReading (by decide)
  | doubleQuote => exact vouches_ofReading (by decide)
  | comma => exact vouches_of_kinds (ofKinds_comma cs) (by decide)
  | semicolon => exact vouches_skip
  | hash hc => exact absurd hc hhash
  | dot hc => subst hc; exact vouches_dot cs
  | sign hs => exact vouches_signed hs cs
  | punctuation => exact vouches_of_kinds (ofKinds_punctuation c) (by decide)

theorem not_longSpecial_of_first {cs : List Char} (h : IsNumber cs.length (first cs)) : ¬ LongSpecial cs := by
  intro hlong
  obtain ⟨s, u, rest, rfl, hs, hu, -⟩ := id hlong
  obtain ⟨c, v, rfl, hc⟩ := hu.exists_cons
  rw [first_sign hs, List.cons_append, signed_letter _ hc, ← List.cons_append] at h
  exact not_longSpecial_of_isSignedNumber (isSignedNumber_of_signedWord h) hlong

theorem isNumber_first {w : List Char} (hw : Complex .decimal w) (hshort : ¬ LongSpecial w) :
    IsNumber w.length (first w) := by
  have hnumber : IsNumber w.length (number w) := isNumber_number.2 hw
  cases numberHead_complex hw with
  | digit hc => rwa [first_digit hc]
  | point hc => rwa [first_point hc]
  | signDigit hs hc => rwa [first_sign hs, signed_digit _ hc]
  | signPoint hs hc => rwa [first_sign hs, signed_point _ hc]
  | infNan hs hu =>
    rw [first_infNan hs hu hw, if_pos (isSignedNumber_of_not_longSpecial hs hu hshort)]
    exact ⟨true, rfl⟩
  | unit hs hi =>
    rw [first_unit hs hi]
    exact ⟨true, rfl⟩

/-- **A bare word is a number** exactly when it is written as one, unless it is an infinity that goes on behind its
unit. -/
theorem first_number_iff {w : List Char} (hhash : w.head? ≠ some '#') :
    IsNumber w.length (first w) ↔ Complex .decimal w ∧ ¬ LongSpecial w := by
  constructor
  · intro h
    refine ⟨?_, not_longSpecial_of_first h⟩
    cases w with
    | nil => obtain ⟨owing, h⟩ := h; cases h
    | cons c cs => exact vouches_first c cs (fun hc => hhash (congrArg some hc)) h
  · rintro ⟨hw, hshort⟩
    exact isNumber_first hw hshort

/-- **The exceptions are identifiers.** -/
theorem first_of_longSpecial {w : List Char} (hw : Complex .decimal w) (hlong : LongSpecial w) :
    first w = word .identifier w.length := by
  obtain ⟨s, u, rest, rfl, hs, hu, -⟩ := id hlong
  have hnum : ¬ isSignedNumber (u ++ rest) = true := fun h => not_longSpecial_of_isSignedNumber h hlong
  rw [first_infNan hs hu hw, if_neg hnum]
  rfl

/-- **A word behind `#d` is a number** exactly when it is written as one. -/
theorem first_marked_iff {w : List Char} (hne : w ≠ []) (hhash : w.head? ≠ some '#') :
    IsNumber (w.length + 2) (first ('#' :: 'd' :: w)) ↔ Complex .decimal w := by
  have hmarked : Number.marked ('d' :: w) = (Number.complex .decimal w).shift 1 := by
    cases w with
    | nil => exact absurd rfl hne
    | cons c cs =>
      have hc : c ≠ '#' := fun hc => hhash (congrArg some hc)
      exact if_neg hc
  have hfirst : first ('#' :: 'd' :: w) = ofReading .number true ((Number.complex .decimal w).shift 2) := by
    have hhash : first ('#' :: 'd' :: w) = ofReading .number true ((Number.marked ('d' :: w)).shift 1) := rfl
    rw [hhash, hmarked, Reading.shift_shift]
  rw [hfirst, isNumber_ofReading, ← Number.complex_eq_accept, Nat.add_comm, Reading.shift_eq_accept]

end Lexeme

/-! ## Sources of one word -/

open Lexeme (LongSpecial)
open Utf8 (ascii chars)

theorem head?_chars_ne_hash {w : List UInt8} (h : w.head? ≠ some 0x23) : (chars w).head? ≠ some '#' := by
  intro hhash
  cases hw : chars w with
  | nil => rw [hw] at hhash; cases hhash
  | cons c cs =>
    rw [hw, List.head?_cons, Option.some.injEq] at hhash
    subst hhash
    obtain ⟨rest, rfl, -⟩ := Utf8.exists_cons_of_chars (by decide) hw
    exact h rfl

theorem chars_marked (w : List UInt8) : chars (ascii ['#', 'd'] ++ w) = '#' :: 'd' :: chars w :=
  Utf8.chars_ascii_append (by decide) w

/-- **The routes to a decimal number agree but on one family of words.**  A word by itself is a number exactly when it
is one behind `#d`, unless it is an infinity, or a value that is no number, that goes on behind its imaginary unit.
Such a word is never a number by itself; behind `#d` it is one if the grammar has it, and by itself it is an identifier
then. -/
theorem decimal_routes_agree (name : String) {w : List UInt8} (hne : w ≠ []) (hdel : Undelimited (chars w))
    (hhash : w.head? ≠ some 0x23) :
    let bare := (Scanner.ofBytes name w).tokens.map Token.content
    let marked := (Scanner.ofBytes name (ascii ['#', 'd'] ++ w)).tokens.map Token.kind
    (¬ LongSpecial (chars w) → (bare = [(.number, w), (.endOfInput, [])] ↔ marked = [.number, .endOfInput])) ∧
    (LongSpecial (chars w) → bare ≠ [(.number, w), (.endOfInput, [])] ∧
      (marked = [.number, .endOfInput] ↔ Number.Numeral .decimal w) ∧
      (Number.Numeral .decimal w → bare = [(.identifier, w), (.endOfInput, [])])) := by
  have hchars : chars w ≠ [] := fun h => hne (Utf8.chars_eq_nil h)
  have hhash := head?_chars_ne_hash hhash
  have hdel' : Undelimited (chars (ascii ['#', 'd'] ++ w)) := by
    rw [chars_marked]
    exact List.forall_mem_cons.2 ⟨rfl, List.forall_mem_cons.2 ⟨rfl, hdel⟩⟩
  have hbare : (Scanner.ofBytes name w).tokens.map Token.content = [(.number, w), (.endOfInput, [])] ↔
      Number.Numeral .decimal w ∧ ¬ LongSpecial (chars w) := by
    rw [Scanner.contents_iff name hdel rfl, Number.numeral_iff_chars]
    exact Lexeme.first_number_iff hhash
  have hmarked : (Scanner.ofBytes name (ascii ['#', 'd'] ++ w)).tokens.map Token.kind = [.number, .endOfInput] ↔
      Number.Numeral .decimal w := by
    rw [Scanner.kinds_iff name hdel' rfl, chars_marked, Number.numeral_iff_chars]
    exact Lexeme.first_marked_iff hchars hhash
  refine ⟨fun hshort => ?_, fun hlong => ⟨?_, hmarked, fun hw => ?_⟩⟩
  · rw [hbare, hmarked]
    exact and_iff_left hshort
  · rw [Ne, hbare]
    exact fun h => h.2 hlong
  · exact Scanner.contents_of_first name (Lexeme.first_of_longSpecial (Number.numeral_iff_chars.1 hw) hlong)

/-- An infinity with an imaginary part. -/
theorem decimal_routes_agree_infinity :
    (Scanner.ofBytes "word" (ascii ['+', 'i', 'n', 'f', '.', '0', '-', 'i'])).tokens.map Token.content =
      [(.identifier, ascii ['+', 'i', 'n', 'f', '.', '0', '-', 'i']), (.endOfInput, [])] ∧
    (Scanner.ofBytes "word" (ascii ['#', 'd', '+', 'i', 'n', 'f', '.', '0', '-', 'i'])).tokens.map Token.kind =
      [.number, .endOfInput] := by
  have hinf : InfNan ['i', 'n', 'f', '.', '0'] := Or.inl rfl
  have hlong : LongSpecial (chars (ascii ['+', 'i', 'n', 'f', '.', '0', '-', 'i'])) :=
    ⟨'+', ['i', 'n', 'f', '.', '0'], ['-', 'i'], rfl, rfl, hinf, by simp, fun i hi => by cases hi⟩
  have hnumeral : Number.Numeral .decimal (ascii ['+', 'i', 'n', 'f', '.', '0', '-', 'i']) :=
    Number.numeral_iff_chars.2 (.rectangular (.infNan (s := '+') rfl hinf) (s := '-') rfl .missing (i := 'i') rfl)
  obtain ⟨-, hmarked, hbare⟩ := (decimal_routes_agree "word"
    (w := ascii ['+', 'i', 'n', 'f', '.', '0', '-', 'i']) (by decide) (by decide) (by decide)).2 hlong
  exact ⟨hbare hnumeral, hmarked.2 hnumeral⟩

end SchemeLexer
