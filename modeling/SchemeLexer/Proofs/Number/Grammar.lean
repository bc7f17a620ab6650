import SchemeLexer.Number.Complex
import SchemeLexer.Proofs.Decoding
/-!
# Grammar — how numbers are written

The numbers of a radix as a grammar, one predicate for each of its productions.  `Grammar.Complex r` holds of the texts
that are whole numbers, and `Numeral r` of their bytes.  Nothing here reads a text: the rules that do are related to
the grammar in `Recognition`.
-/
namespace SchemeLexer
namespace Number
namespace Grammar

/-- Digits of the radix, at least one. -/
structure UInteger (r : Radix) (w : List Char) : Prop where
  ne_nil : w ≠ []
  digits : ∀ c ∈ w, r.isDigit c = true

/-- A sign, or nothing. -/
inductive OptSign : List Char → Prop
  | missing : OptSign []
  | sign {s : Char} : isSign s = true → OptSign [s]

/-- An exponent, or nothing: its mark, a sign that may be missing, and digits. -/
inductive OptExponent : List Char → Prop
  | missing : OptExponent []
  | exponent {e : Char} {s ds : List Char} :
      isExponentMark e = true → OptSign s → UInteger .decimal ds → OptExponent (e :: (s ++ ds))

/-- Decimal digits with or without a point.  They may be missing on one side of it. -/
inductive Mantissa : List Char → Prop
  | whole {ds : List Char} : UInteger .decimal ds → Mantissa ds
  | point {ds fs : List Char} :
      UInteger .decimal ds → (∀ c ∈ fs, isDigit c = true) → Mantissa (ds ++ '.' :: fs)
  | fraction {fs : List Char} : UInteger .decimal fs → Mantissa ('.' :: fs)

inductive Decimal : List Char → Prop
  | mk {m x : List Char} : Mantissa m → OptExponent x → Decimal (m ++ x)

/-- A magnitude.  Only radix ten has decimals. -/
inductive UReal (r : Radix) : List Char → Prop
  | integer {ds : List Char} : UInteger r ds → UReal r ds
  | ratio {ns ds : List Char} : UInteger r ns → UInteger r ds → UReal r (ns ++ '/' :: ds)
  | decimal {w : List Char} : r = .decimal → Decimal w → UReal r w

/-- One of the words `inf.0` and `nan.0`, whatever the case of its letters. -/
def InfNan (w : List Char) : Prop := Caseless.sameWord w infinity = true ∨ Caseless.sameWord w notANumber = true

inductive Real (r : Radix) : List Char → Prop
  | unsigned {w : List Char} : UReal r w → Real r w
  | signed {s : Char} {w : List Char} : isSign s = true → UReal r w → Real r (s :: w)
  | infNan {s : Char} {w : List Char} : isSign s = true → InfNan w → Real r (s :: w)

/-- The magnitude of an imaginary part behind a real one, which may be missing. -/
inductive Factor (r : Radix) : List Char → Prop
  | missing : Factor r []
  | magnitude {w : List Char} : UReal r w → Factor r w
  | infNan {w : List Char} : InfNan w → Factor r w

/-- A whole number: real, polar, rectangular, imaginary, or a bare unit with its sign. -/
inductive Complex (r : Radix) : List Char → Prop
  | real {w : List Char} : Real r w → Complex r w
  | polar {m a : List Char} : Real r m → Real r a → Complex r (m ++ '@' :: a)
  | rectangular {x y : List Char} {s i : Char} :
      Real r x → isSign s = true → Factor r y → isImaginaryUnit i = true → Complex r (x ++ s :: (y ++ [i]))
  | imaginary {y : List Char} {i : Char} : Real r y → isImaginaryUnit i = true → Complex r (y ++ [i])
  | unit {s i : Char} : isSign s = true → isImaginaryUnit i = true → Complex r [s, i]

/-! ## The characters of numbers -/

/-- Characters that an identifier may go on with. -/
def Subsequents (cs : List Char) : Prop := ∀ c ∈ cs, isSubsequent c = true

instance (cs : List Char) : Decidable (Subsequents cs) := List.decidableBAll (fun c => isSubsequent c = true) cs

theorem subsequents_nil : Subsequents [] := fun _ h => by cases h

theorem subsequents_cons {c : Char} {cs : List Char} (hc : isSubsequent c = true) (hcs : Subsequents cs) :
    Subsequents (c :: cs) := List.forall_mem_cons.2 ⟨hc, hcs⟩

theorem subsequents_append {cs ds : List Char} (hc : Subsequents cs) (hd : Subsequents ds) : Subsequents (cs ++ ds) :=
  List.forall_mem_append.2 ⟨hc, hd⟩

theorem isHexDigit_of_isDigit {r : Radix} {c : Char} (h : r.isDigit c = true) : isHexDigit c = true := by
  rw [isHexDigit_iff]
  cases r with
  | hexadecimal => exact (isHexDigit_iff c).1 h
  | decimal => exact Or.inl ((isDigit_iff c).1 h)
  | octal =>
    simp only [Radix.isDigit, isOctalDigit, Bool.and_eq_true, decide_eq_true_eq, Char.le_def,
      UInt32.le_iff_toNat_le] at h
    have h : 48 ≤ c.toNat ∧ c.toNat ≤ 55 := h
    omega
  | binary =>
    simp only [Radix.isDigit, isBinaryDigit, Bool.or_eq_true, decide_eq_true_eq] at h
    rcases h with rfl | rfl <;> decide

theorem isSubsequent_of_isImaginaryUnit {c : Char} (h : isImaginaryUnit c = true) : isSubsequent c = true := by
  simp only [isImaginaryUnit, Bool.or_eq_true, decide_eq_true_eq] at h
  rcases h with rfl | rfl <;> decide

/-- Letter case does not lead out of the class. -/
theorem isSubsequent_fold (c : Char) : isSubsequent (Caseless.fold c) = isSubsequent c := by
  have hfold := Caseless.toNat_fold c
  by_cases hc : 65 ≤ c.toNat ∧ c.toNat ≤ 90
  · rw [if_pos hc] at hfold
    have hcapital : isLetter c = true := (isLetter_iff c).2 (Or.inl hc)
    have hsmall : isLetter (Caseless.fold c) = true := (isLetter_iff _).2 (Or.inr (by omega))
    simp [isSubsequent, isInitial, hcapital, hsmall]
  · rw [if_neg hc, Char.toNat_inj] at hfold
    rw [hfold]

theorem subsequents_of_sameWord {w word : List Char} (h : Caseless.sameWord w word = true) (hword : Subsequents word) :
    Subsequents w := by
  intro c hc
  have hmap : w.map Caseless.fold = word.map Caseless.fold := by simpa [Caseless.sameWord] using h
  obtain ⟨d, hd, heq⟩ := List.mem_map.1 (hmap ▸ List.mem_map_of_mem hc)
  rw [← isSubsequent_fold, ← heq, isSubsequent_fold]
  exact hword d hd

theorem InfNan.subsequents {w : List Char} (h : InfNan w) : Subsequents w := by
  rcases h with h | h
  · exact subsequents_of_sameWord h (by decide)
  · exact subsequents_of_sameWord h (by decide)

theorem UInteger.subsequents {r : Radix} {w : List Char} (h : UInteger r w) : Subsequents w :=
  fun c hc => isSubsequent_of_isHexDigit (isHexDigit_of_isDigit (h.digits c hc))

theorem OptExponent.subsequents {w : List Char} (h : OptExponent w) : Subsequents w := by
  cases h with
  | missing => exact subsequents_nil
  | exponent he hs hd =>
    simp only [isExponentMark, Bool.or_eq_true, decide_eq_true_eq] at he
    refine subsequents_cons (by rcases he with rfl | rfl <;> decide) (subsequents_append ?_ hd.subsequents)
    cases hs with
    | missing => exact subsequents_nil
    | sign hs => exact subsequents_cons (isSubsequent_of_isSign hs) subsequents_nil

theorem Decimal.subsequents {w : List Char} (h : Decimal w) : Subsequents w := by
  obtain ⟨hm, hx⟩ := h
  refine subsequents_append ?_ hx.subsequents
  cases hm with
  | whole hd => exact hd.subsequents
  | point hd hf =>
    exact subsequents_append hd.subsequents (subsequents_cons (by decide) fun c hc =>
      isSubsequent_of_isHexDigit (isHexDigit_of_isDigit (r := .decimal) (hf c hc)))
  | fraction hf => exact subsequents_cons (by decide) hf.subsequents

theorem UReal.subsequents {r : Radix} {w : List Char} (h : UReal r w) : Subsequents w := by
  cases h with
  | integer hd => exact hd.subsequents
  | ratio hn hd => exact subsequents_append hn.subsequents (subsequents_cons (by decide) hd.subsequents)
  | decimal _ hd => exact hd.subsequents

theorem Real.subsequents {r : Radix} {w : List Char} (h : Real r w) : Subsequents w := by
  cases h with
  | unsigned hw => exact hw.subsequents
  | signed hs hw => exact subsequents_cons (isSubsequent_of_isSign hs) hw.subsequents
  | infNan hs hw => exact subsequents_cons (isSubsequent_of_isSign hs) hw.subsequents

theorem Factor.subsequents {r : Radix} {w : List Char} (h : Factor r w) : Subsequents w := by
  cases h with
  | missing => exact subsequents_nil
  | magnitude hw => exact hw.subsequents
  | infNan hw => exact hw.subsequents

/-- **A number has no character that an identifier could not have.** -/
theorem Complex.subsequents {r : Radix} {w : List Char} (h : Complex r w) : Subsequents w := by
  have hunit : ∀ {i : Char}, isImaginaryUnit i = true → Subsequents [i] :=
    fun hi => subsequents_cons (isSubsequent_of_isImaginaryUnit hi) subsequents_nil
  cases h with
  | real hw => exact hw.subsequents
  | polar hm ha => exact subsequents_append hm.subsequents (subsequents_cons (by decide) ha.subsequents)
  | rectangular hx hs hy hi =>
    exact subsequents_append hx.subsequents
      (subsequents_cons (isSubsequent_of_isSign hs) (subsequents_append hy.subsequents (hunit hi)))
  | imaginary hy hi => exact subsequents_append hy.subsequents (hunit hi)
  | unit hs hi => exact subsequents_cons (isSubsequent_of_isSign hs) (hunit hi)

/-- A number is an ASCII text. -/
theorem Complex.isAscii {r : Radix} {w : List Char} (h : Complex r w) : Utf8.IsAscii w :=
  fun c hc => toNat_lt_of_isSubsequent (h.subsequents c hc)

end Grammar

/-- The bytes of the numbers of a radix. -/
def Numeral (r : Radix) (w : List UInt8) : Prop :=
  ∃ cs, Grammar.Complex r cs ∧ w = Utf8.encode (String.ofList cs)

end Number
end SchemeLexer
