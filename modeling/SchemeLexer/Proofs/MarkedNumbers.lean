import SchemeLexer.Proofs.Checked.Lexeme
import SchemeLexer.Proofs.Number.Marking
import SchemeLexer.Proofs.Number.Numerals
import SchemeLexer.Proofs.Opening
/-!
# MarkedNumbers — numbers behind their markers

What is read behind a hash sign and markers is what is read of a number of the radix that they give
(`Number.marked_of_marking`), and without such markers nothing is read (`Number.marked_of_no_marking`).  So a source
that a hash sign begins has a number for its first token, and a delimiter behind it, exactly when it is written as
markers, a number of their radix and a delimited rest.
-/
namespace SchemeLexer

open Number (Marking)
open Number.Grammar (Complex)
open Utf8 (IsAscii ascii chars)

namespace Number

variable {w : List Char} {r : Radix}

theorem marked_of_marking (h : Marking w r) {t : List Char} (ht : t.head? ≠ some '#') :
    marked (w ++ t) = (complex r t).shift w.length := (marked_iff.2 h).afterMarks ht

theorem marked_of_no_marking {cs : List Char} (h : ∀ w r t, Marking w r → cs = w ++ t → t.head? = some '#') :
    (marked cs).error? = some .invalidPrefix := by
  rcases afterMarks_cases ⟨none, false⟩ cs with ⟨w, r, t, hcs, hw, ht⟩ | herror
  · exact absurd (h w r t (marked_iff.1 hw) hcs) ht
  · exact herror

theorem Marking.isAscii (h : Marking w r) : IsAscii w := (marked_iff.2 h).isAscii

/-- A number is read behind a hash sign only behind markers, and it is one of the radix that they give. -/
theorem marked_sound {cs : List Char} (h : (marked cs).error? = none) :
    ∃ w r v t, cs = w ++ v ++ t ∧ Marking w r ∧ Complex r v ∧ (marked cs).taken = (w ++ v).length := by
  rcases afterMarks_cases ⟨none, false⟩ cs with ⟨w, r, u, rfl, hw, hu⟩ | herror
  · have hmarked := marked_of_marking (marked_iff.1 hw) hu
    rw [hmarked, Reading.error?_shift] at h
    obtain ⟨v, t, rfl, hv, htaken⟩ := complex_sound h
    refine ⟨w, r, v, t, (List.append_assoc ..).symm, marked_iff.1 hw, hv, ?_⟩
    rw [hmarked, Reading.taken_shift, htaken, List.length_append]
  · rw [marked, herror] at h
    cases h

theorem Grammar.Complex.ne_nil {v : List Char} (h : Complex r v) : v ≠ [] := by
  rintro rfl
  have hread := complex_complete h delimited_nil
  have hnil : (complex r []).error? = some .invalidNumber := Lexeme.complex_nil r
  rw [List.nil_append] at hread
  rw [hread] at hnil
  cases hnil

theorem marked_complete {v t : List Char} (h : Marking w r) (hv : Complex r v) (ht : Delimited t) :
    marked (w ++ v ++ t) = .accept (w ++ v).length := by
  have hhead : (v ++ t).head? ≠ some '#' := by
    cases v with
    | nil => exact absurd rfl hv.ne_nil
    | cons c v =>
      intro hc
      obtain rfl : c = '#' := Option.some.inj hc
      exact absurd (hv.subsequents '#' List.mem_cons_self) (by decide)
  rw [List.append_assoc, marked_of_marking h hhead, complex_complete hv ht, Reading.shift_accept, List.length_append]

end Number

namespace Lexeme

open Number (Marker)

theorem hash_marker {c : Char} (h : (Marker.ofChar? c).isSome = true) (t : List Char) :
    hash (c :: t) = markedNumber (c :: t) := by
  have hne : ∀ {d : Char}, isLetter d = false → c ≠ d := by
    rintro d hd rfl
    rw [Number.isLetter_of_marker h] at hd
    cases hd
  rw [hash, if_neg (hne rfl), if_neg (hne rfl), if_neg (hne rfl), if_neg (hne rfl), if_neg (hne rfl), if_pos h]

/-- **A hash sign begins a number** only in front of markers and a number of the radix that they give. -/
theorem marking_of_first {cs : List Char} {n : Nat} {owing : Bool} (h : first ('#' :: cs) = .token .number n owing) :
    ∃ w r v t, cs = w ++ v ++ t ∧ Marking w r ∧ Complex r v ∧ n = (w ++ v).length + 1 := by
  have hfirst : first ('#' :: cs) = hash cs := rfl
  rw [hfirst] at h
  cases cs with
  | nil => cases h
  | cons c cs =>
    rcases ofKinds_hash c cs with ⟨-, heq⟩ | hkinds
    · rw [heq, markedNumber, ofReading] at h
      split at h
      · rename_i hok
        obtain ⟨w, r, v, t, hcs, hw, hv, htaken⟩ := Number.marked_sound hok
        rw [Lexeme.token.injEq, Reading.taken_shift, htaken, Nat.add_comm] at h
        exact ⟨w, r, v, t, hcs, hw, hv, h.2.1.symm⟩
      · cases h
    · exact absurd (hkinds _ _ _ h) (by decide)

theorem first_of_marking {w v t : List Char} {r : Radix} (h : Marking w r) (hv : Complex r v) (ht : Delimited t) :
    first ('#' :: (w ++ v ++ t)) = word .number ((w ++ v).length + 1) := by
  have hfirst : first ('#' :: (w ++ v ++ t)) = hash (w ++ v ++ t) := rfl
  have hread : markedNumber (w ++ v ++ t) = word .number ((w ++ v).length + 1) := by
    rw [markedNumber, Number.marked_complete h hv ht, Reading.shift_accept, Nat.add_comm]
    rfl
  obtain ⟨c, u, rfl, hc⟩ := (Number.marked_iff.2 h).exists_cons
  rw [hfirst, List.cons_append, List.cons_append, hash_marker hc]
  exact hread

/-- What a hash sign begins is skipped only where a bar follows the sign. -/
theorem not_skip_hash {cs : List Char} (h : cs.head? ≠ some '|') (n : Nat) : first ('#' :: cs) ≠ .skip n := by
  intro hskip
  rcases skips_first hskip with ⟨u, rest, hu, -, ha⟩ | ⟨v, hv, -⟩
  · cases ha with
    | space hc =>
      obtain ⟨rfl, -⟩ := List.cons.inj hu
      cases hc
    | line => cases (List.cons.inj hu).1
    | block => exact h (congrArg List.head? (List.cons.inj hu).2)
  · cases (List.cons.inj hv).1

end Lexeme

/-! ## The first token -/

namespace Scanner

variable {name : String} {s : List UInt8}

theorem head?_tokens_of_marking {w v : List Char} {r : Radix} (h : Marking w r) (hv : Complex r v) {rest : List UInt8}
    (hrest : Delimited (chars rest)) : (ofBytes name (ascii ('#' :: (w ++ v)) ++ rest)).tokens.head? =
      some ⟨.number, ascii ('#' :: (w ++ v)), .start⟩ := by
  have hascii : IsAscii ('#' :: (w ++ v)) :=
    List.forall_mem_cons.2 ⟨by decide, List.forall_mem_append.2 ⟨h.isAscii, hv.isAscii⟩⟩
  have hfirst : Lexeme.first (chars (ascii ('#' :: (w ++ v)) ++ rest)) =
      .token .number ('#' :: (w ++ v)).length true := by
    rw [Utf8.chars_ascii_append hascii, List.cons_append, Lexeme.first_of_marking h hv hrest, List.length_cons]
    rfl
  rw [head?_tokens_of_first hfirst, Place.token_ascii hascii]

/-- A number that a hash sign begins is written as markers and a number of the radix that they give. -/
theorem marking_of_head? {t : Token} (hbar : (chars s).head? ≠ some '|')
    (ht : (ofBytes name (ascii ['#'] ++ s)).tokens.head? = some t) (hkind : t.kind = .number) :
    ∃ w r v rest, Marking w r ∧ Complex r v ∧ s = ascii (w ++ v) ++ rest ∧
      t = ⟨.number, ascii ('#' :: (w ++ v)), .start⟩ := by
  have hsource : chars (ascii ['#'] ++ s) = '#' :: chars s := Utf8.chars_ascii_append (by decide) s
  cases hf : Lexeme.first (chars (ascii ['#'] ++ s)) with
  | skip n =>
    rw [hsource] at hf
    exact absurd hf (Lexeme.not_skip_hash hbar n)
  | token kind n owing =>
    rw [head?_tokens_of_first hf, Option.some.injEq] at ht
    subst ht
    obtain rfl : kind = .number := hkind
    rw [hsource] at hf
    obtain ⟨w, r, v, u, hcs, hw, hv, rfl⟩ := Lexeme.marking_of_first hf
    have hascii : IsAscii (w ++ v) := List.forall_mem_append.2 ⟨hw.isAscii, hv.isAscii⟩
    obtain ⟨rest, rfl, -⟩ := Utf8.eq_ascii_append hascii hcs
    have hascii' : IsAscii ('#' :: (w ++ v)) := List.forall_mem_cons.2 ⟨by decide, hascii⟩
    exact ⟨w, r, v, rest, hw, hv, rfl, Place.token_ascii hascii' .start rest .number⟩
  | invalid e n =>
    rw [(tokens_of_first_invalid hf).1, List.head?_cons, Option.some.injEq] at ht
    subst ht
    cases hkind
  | done =>
    rw [hsource] at hf
    have hnil := Lexeme.eq_nil_of_done hf
    cases hnil

theorem head?_number_iff (hbar : (chars s).head? ≠ some '|') :
    (∃ t, (ofBytes name (ascii ['#'] ++ s)).tokens.head? = some t ∧ t.kind = .number ∧
        Delimited (chars ((ascii ['#'] ++ s).drop t.stop))) ↔
      ∃ m r w rest, Marking m r ∧ Number.Numeral r w ∧ s = ascii m ++ w ++ rest ∧ Delimited (chars rest) := by
  have hstop : ∀ cs, Token.stop ⟨.number, ascii cs, .start⟩ = (ascii cs).length := fun cs => Nat.zero_add _
  constructor
  · rintro ⟨t, ht, hkind, hdel⟩
    obtain ⟨w, r, v, rest, hw, hv, rfl, rfl⟩ := marking_of_head? hbar ht hkind
    have hsource : ascii ['#'] ++ (ascii (w ++ v) ++ rest) = ascii ('#' :: (w ++ v)) ++ rest := rfl
    rw [hsource, hstop, List.drop_left] at hdel
    exact ⟨w, r, ascii v, rest, hw, Number.numeral_iff.2 ⟨v, hv, rfl⟩, by rw [← Utf8.ascii_append], hdel⟩
  · rintro ⟨m, r, w, rest, hm, hw, rfl, hdel⟩
    obtain ⟨v, hv, rfl⟩ := Number.numeral_iff.1 hw
    have hsource : ascii ['#'] ++ (ascii m ++ ascii v ++ rest) = ascii ('#' :: (m ++ v)) ++ rest := by
      rw [← Utf8.ascii_append]
      rfl
    refine ⟨_, hsource ▸ head?_tokens_of_marking hm hv hdel, rfl, ?_⟩
    rw [hsource, hstop, List.drop_left]
    exact hdel

end Scanner

/-- **A number behind a hash sign** is read as one of the radix that its markers give it is read behind them; there is
one way at most to take them.  Without markers it is an error.  So it is a token that a delimiter follows exactly when it
is written as markers and a number of their radix in front of a delimited rest. -/
theorem numbers_behind_markers :
    (∀ w w' r r' t t', Marking w r → Marking w' r' → t.head? ≠ some '#' → t'.head? ≠ some '#' →
      w ++ t = w' ++ t' → w = w' ∧ r = r') ∧
    (∀ p k cs c, At p k cs c →
      (∀ w r t, Marking w r → cs = w ++ t → t.head? ≠ some '#' →
        (∀ d, At p (k + w.length) t d → Reads (Checked.scanComplex r d) p (k + w.length) t
          (Number.complex r t).taken (Number.complex r t).error?) ∧
        Reads (Checked.scanPrefixed ⟨none, false⟩ c) p k cs
          (w.length + (Number.complex r t).taken) (Number.complex r t).error?) ∧
      ((∀ w r t, Marking w r → cs = w ++ t → t.head? = some '#') →
        ∃ n, Reads (Checked.scanPrefixed ⟨none, false⟩ c) p k cs n (some .invalidPrefix))) ∧
    ∀ name s, (chars s).head? ≠ some '|' →
      let source := ascii ['#'] ++ s
      ((∃ t, (Scanner.ofBytes name source).tokens.head? = some t ∧ t.kind = .number ∧
          Delimited (chars (source.drop t.stop))) ↔
        ∃ m r w rest, Marking m r ∧ Number.Numeral r w ∧ s = ascii m ++ w ++ rest ∧ Delimited (chars rest)) := by
  refine ⟨fun w w' r r' t t' h h' ht ht' heq => ?_, fun p k cs c hc => ⟨fun w r t h hcs ht => ?_, fun h => ?_⟩,
    fun name s hbar => Scanner.head?_number_iff hbar⟩
  · exact (Number.marked_iff.2 h).unique (Number.marked_iff.2 h') ht ht' heq
  · have hreads := Checked.reads_scanPrefixed hc .nil
    have hmarked : Number.afterMarks ⟨none, false⟩ cs = (Number.complex r t).shift w.length :=
      hcs ▸ Number.marked_of_marking h ht
    rw [hmarked] at hreads
    exact ⟨fun d hd => Checked.reads_scanComplex hd, hreads⟩
  · have hreads := Checked.reads_scanPrefixed hc .nil
    have herror : (Number.afterMarks ⟨none, false⟩ cs).error? = some .invalidPrefix := Number.marked_of_no_marking h
    rw [herror] at hreads
    exact ⟨_, hreads⟩

end SchemeLexer
