import SchemeLexer.Proofs.Number.Grammar
import SchemeLexer.Proofs.Runs
/-!
# Magnitude — the longest magnitude at the head of a text

Where `magnitude` finds one it is written as the grammar says (`magnitude_sound`) and no longer one stands there
(`magnitude_longest`); and it finds every one that no character of a magnitude follows (`magnitude_complete`).  Where it
finds none it has taken nothing, or, outside radix ten, the digits before a point or an exponent mark
(`magnitude_absent`).
-/
namespace SchemeLexer
namespace Number

open Text (Stops run)
open Grammar

/-- The characters that a magnitude may go on with. -/
def continues (r : Radix) (c : Char) : Bool := r.isDigit c || c = '/' || c = '.' || isExponentMark c

theorem stops_digit {r : Radix} {cs : List Char} (h : Stops (continues r) cs) : Stops r.isDigit cs :=
  h.imp fun c hc => by simp [continues, hc]

theorem stops_decimal {cs : List Char} (h : Stops (continues .decimal) cs) : Stops isDigit cs := stops_digit h

theorem Grammar.UInteger.decimal {ds : List Char} (h : UInteger .decimal ds) : ∀ c ∈ ds, isDigit c = true := h.digits

theorem Grammar.UInteger.length_ne {r : Radix} {ds : List Char} (h : UInteger r ds) : ds.length ≠ 0 :=
  fun hl => h.ne_nil (List.length_eq_zero_iff.1 hl)

theorem isExponentMark_iff (c : Char) : isExponentMark c = true ↔ c = 'e' ∨ c = 'E' := by simp [isExponentMark]

theorem isSign_iff (c : Char) : isSign c = true ↔ c = '+' ∨ c = '-' := by simp [isSign]

theorem isImaginaryUnit_iff (c : Char) : isImaginaryUnit c = true ↔ c = 'i' ∨ c = 'I' := by simp [isImaginaryUnit]

theorem not_digit_slash (r : Radix) : r.isDigit '/' = false := by cases r <;> decide

theorem not_digit_of_mark {c : Char} (h : isExponentMark c = true) : Radix.decimal.isDigit c = false := by
  rcases (isExponentMark_iff c).1 h with rfl | rfl <;> decide

theorem not_sign_of_digit {r : Radix} {c : Char} (h : r.isDigit c = true) : isSign c = false := by
  cases hs : isSign c with
  | false => rfl
  | true =>
    rcases (isSign_iff c).1 hs with rfl | rfl <;> (revert h; cases r <;> decide)

/-! ## The exponent -/

theorem Grammar.OptSign.signLength {s ds rest : List Char} (hs : OptSign s) (hd : UInteger .decimal ds) :
    signLength (s ++ (ds ++ rest)) = s.length := by
  cases hs with
  | missing =>
    obtain ⟨hne, hdig⟩ := hd
    cases ds with
    | nil => exact absurd rfl hne
    | cons d ds => simp [Number.signLength, not_sign_of_digit (hdig d List.mem_cons_self)]
  | sign hs => simp [Number.signLength, hs]

theorem exponent_marked {e : Char} {s ds : List Char} (he : isExponentMark e = true) (hs : OptSign s)
    (hd : UInteger .decimal ds) (n : Nat) (rest : List Char) :
    exponent n (e :: (s ++ ds) ++ rest) = ⟨.real, n + 1 + s.length + (ds.length + run isDigit rest)⟩ := by
  have := hd.length_ne
  rw [List.cons_append, List.append_assoc]
  simp only [exponent, he, if_true, OptSign.signLength hs hd, List.drop_left, Text.run_append_add hd.decimal]
  rw [if_neg (by omega)]

theorem exponent_complete {x : List Char} (hx : OptExponent x) (n : Nat) {rest : List Char}
    (hr : Stops (continues .decimal) rest) : exponent n (x ++ rest) = ⟨.real, n + x.length⟩ := by
  cases hx with
  | missing =>
    cases rest with
    | nil => rfl
    | cons c rest =>
      have hc : isExponentMark c = false := (Text.stops_cons ..).1 (hr.imp fun c hc => by simp [continues, hc])
      simp [exponent, hc]
  | exponent he hs hd =>
    rw [exponent_marked he hs hd, Text.run_eq_zero (stops_decimal hr)]
    simp only [List.length_cons, List.length_append, Part.mk.injEq, true_and]
    omega

theorem exponent_longest {x : List Char} (hx : OptExponent x) (n : Nat) (rest : List Char) :
    n + x.length ≤ (exponent n (x ++ rest)).taken := by
  cases hx with
  | missing => exact exponent_taken n rest
  | exponent he hs hd =>
    rw [exponent_marked he hs hd]
    simp only [List.length_cons, List.length_append]
    omega

theorem exists_sign (cs : List Char) : ∃ s rest, cs = s ++ rest ∧ OptSign s ∧ signLength cs = s.length := by
  cases cs with
  | nil => exact ⟨[], [], rfl, .missing, rfl⟩
  | cons c cs =>
    cases hc : isSign c with
    | true => exact ⟨[c], cs, rfl, .sign hc, by simp [signLength, hc]⟩
    | false => exact ⟨[], c :: cs, rfl, .missing, by simp [signLength, hc]⟩

theorem exponent_sound {n : Nat} {cs : List Char} (h : (exponent n cs).shape = .real) :
    ∃ x rest, cs = x ++ rest ∧ OptExponent x ∧ (exponent n cs).taken = n + x.length := by
  cases cs with
  | nil => exact ⟨[], [], rfl, .missing, rfl⟩
  | cons e cs =>
    cases he : isExponentMark e with
    | false => exact ⟨[], e :: cs, rfl, .missing, by simp [exponent, he]⟩
    | true =>
      obtain ⟨s, cs, rfl, hs, hsl⟩ := exists_sign cs
      obtain ⟨ds, rest, rfl, hd, -, hrun⟩ := Text.exists_run isDigit cs
      simp only [exponent, he, if_true, hsl, List.drop_left, hrun] at h ⊢
      split at h
      · cases h
      · rename_i hne
        refine ⟨e :: (s ++ ds), rest, by simp, .exponent he hs ⟨fun hnil => hne (by simp [hnil]), hd⟩, ?_⟩
        rw [if_neg hne]
        simp only [List.length_cons, List.length_append]
        omega

theorem exponent_ne_absent (n : Nat) (cs : List Char) : (exponent n cs).shape ≠ .absent := by
  unfold exponent
  split
  · simp
  · split
    · simp only
      split <;> simp
    · simp

/-! ## Decimals -/

theorem fractionLength_point (cs : List Char) : fractionLength ('.' :: cs) = 1 + run isDigit cs := by
  simp [fractionLength]

theorem fractionLength_eq_zero {cs : List Char} (h : Stops (· = '.') cs) : fractionLength cs = 0 := by
  cases cs with
  | nil => rfl
  | cons c cs =>
    have : ¬ c = '.' := by simpa using h
    simp [fractionLength, this]

theorem decimal_real_eq {n : Nat} {cs : List Char} (h : (decimal n cs).shape = .real) :
    decimal n cs = exponent (n + fractionLength cs) (cs.drop (fractionLength cs)) ∧ ¬ (n = 0 ∧ fractionLength cs ≤ 1) := by
  unfold decimal at h ⊢
  simp only at h ⊢
  split at h
  · cases h
  · rename_i hn; exact ⟨if_neg hn, hn⟩

theorem le_decimal_taken {n : Nat} {cs : List Char} (h : (decimal n cs).shape = .real) :
    n + fractionLength cs ≤ (decimal n cs).taken := by
  rw [(decimal_real_eq h).1]
  exact exponent_taken ..

theorem decimal_fraction {n : Nat} {fs : List Char} (hf : ∀ c ∈ fs, isDigit c = true) (hn : n ≠ 0 ∨ fs ≠ [])
    {t : List Char} (ht : Stops isDigit t) : decimal n ('.' :: (fs ++ t)) = exponent (n + 1 + fs.length) t := by
  have hl : ¬ (n = 0 ∧ 1 + fs.length ≤ 1) := by
    rintro ⟨h0, hl⟩
    rcases hn with h | h
    · exact h h0
    · exact h (List.length_eq_zero_iff.1 (by omega))
  simp only [decimal, fractionLength_point, Text.run_append hf ht]
  rw [if_neg hl, Nat.add_comm 1, List.drop_succ_cons, List.drop_left, Nat.add_assoc, Nat.add_comm 1]

theorem decimal_whole {n : Nat} (hn : n ≠ 0) {t : List Char} (ht : Stops (· = '.') t) : decimal n t = exponent n t := by
  simp [decimal, fractionLength_eq_zero ht, hn]

/-- Digits and a fraction behind them are a mantissa, where a digit stands on one side of the point at least. -/
theorem exists_mantissa {ds cs : List Char} (hd : ∀ c ∈ ds, isDigit c = true)
    (hn : ¬ (ds.length = 0 ∧ fractionLength cs ≤ 1)) :
    ∃ m, Mantissa m ∧ ds ++ cs = m ++ cs.drop (fractionLength cs) ∧ m.length = ds.length + fractionLength cs := by
  have hwhole : fractionLength cs = 0 → Mantissa ds := fun hf => .whole ⟨fun hnil => hn (by simp [hnil, hf]), hd⟩
  cases cs with
  | nil => exact ⟨ds, hwhole rfl, rfl, rfl⟩
  | cons c cs =>
    by_cases hc : c = '.'
    · subst hc
      obtain ⟨fs, t, rfl, hf, -, hrun⟩ := Text.exists_run isDigit cs
      rw [fractionLength_point, hrun, Nat.add_comm 1, List.drop_succ_cons, List.drop_left]
      rw [fractionLength_point, hrun] at hn
      refine ⟨ds ++ '.' :: fs, ?_, by simp, by simp⟩
      by_cases hds : ds = []
      · subst hds
        exact .fraction ⟨fun hnil => hn (by simp [hnil]), hf⟩
      · exact .point ⟨hds, hd⟩ hf
    · have hf : fractionLength (c :: cs) = 0 := by simp [fractionLength, hc]
      rw [hf]
      exact ⟨ds, hwhole hf, rfl, rfl⟩

theorem decimal_sound {ds cs : List Char} (hd : ∀ c ∈ ds, isDigit c = true)
    (h : (decimal ds.length cs).shape = .real) :
    ∃ w rest, ds ++ cs = w ++ rest ∧ Decimal w ∧ (decimal ds.length cs).taken = w.length := by
  obtain ⟨heq, hn⟩ := decimal_real_eq h
  obtain ⟨m, hm, hcs, hl⟩ := exists_mantissa hd hn
  rw [heq] at h ⊢
  obtain ⟨x, rest, hx, hxg, htaken⟩ := exponent_sound h
  exact ⟨m ++ x, rest, by rw [hcs, hx, List.append_assoc], .mk hm hxg, by rw [htaken, ← hl, List.length_append]⟩

/-! ## Magnitudes -/

theorem magnitude_of_stops {r : Radix} {cs : List Char} (h : Stops (continues r) cs) : magnitude r cs = ⟨.absent, 0⟩ := by
  have hrun := Text.run_eq_zero (stops_digit h)
  cases cs with
  | nil => simp [magnitude]
  | cons c cs =>
    have hc := (Text.stops_cons ..).1 h
    simp only [continues, Bool.or_eq_false_iff, decide_eq_false_iff_not] at hc
    simp [magnitude, hrun, hc]

section
variable {r : Radix} {ds : List Char} (hd : UInteger r ds)
include hd

theorem magnitude_integer {rest : List Char} (hr : Stops (continues r) rest) :
    magnitude r (ds ++ rest) = ⟨.real, ds.length⟩ := by
  have hrun := Text.run_append hd.digits (stops_digit hr)
  cases rest with
  | nil => simp only [magnitude, hrun, List.drop_left, hd.length_ne, if_false]
  | cons c rest =>
    have hc := (Text.stops_cons ..).1 hr
    simp only [continues, Bool.or_eq_false_iff, decide_eq_false_iff_not] at hc
    simp only [magnitude, hrun, List.drop_left, hc, hd.length_ne, false_and, or_self, if_false, Bool.false_eq_true]

theorem magnitude_ratio (cs : List Char) : magnitude r (ds ++ '/' :: cs) =
    if run r.isDigit cs = 0 then ⟨.fault .invalidFraction, ds.length + 1⟩
    else ⟨.real, ds.length + 1 + run r.isDigit cs⟩ := by
  have hrun := Text.run_append hd.digits ((Text.stops_cons _ _ cs).2 (not_digit_slash r))
  have hne := hd.length_ne
  simp only [magnitude, hrun, List.drop_left, true_and, ne_eq, hne, not_false_eq_true, if_true]

end

theorem magnitude_decimal {ds : List Char} (hd : ∀ c ∈ ds, isDigit c = true) {c : Char}
    (hc : c = '.' ∨ isExponentMark c = true) (cs : List Char) :
    magnitude .decimal (ds ++ c :: cs) = decimal ds.length (c :: cs) := by
  have hdig : Radix.decimal.isDigit c = false := by
    rcases hc with rfl | hc
    · decide
    · exact not_digit_of_mark hc
  have hslash : c ≠ '/' := by
    rintro rfl
    exact absurd hc (by decide)
  have hrun : run Radix.decimal.isDigit (ds ++ c :: cs) = ds.length :=
    Text.run_append hd ((Text.stops_cons ..).2 hdig)
  simp only [magnitude, hrun, List.drop_left, hslash, false_and, if_false, hc, if_true]

theorem magnitude_point (cs : List Char) : magnitude .decimal ('.' :: cs) = decimal 0 ('.' :: cs) :=
  @magnitude_decimal [] (fun _ hc => by cases hc) '.' (Or.inl rfl) cs

/-- A mantissa ends where no digit, no point and no slash goes on with it. -/
theorem magnitude_mantissa {m t : List Char} (hm : Mantissa m) (ht : Stops (fun c => isDigit c || c = '.' || c = '/') t) :
    magnitude .decimal (m ++ t) = exponent m.length t := by
  have hdigit : Stops isDigit t := ht.imp fun c hc => by simp [hc]
  have hpoint : Stops (· = '.') t := ht.imp fun c hc => by simpa using Or.inl (Or.inr hc)
  cases hm with
  | whole hd =>
    cases t with
    | nil => exact magnitude_integer hd (Text.stops_nil _)
    | cons c t =>
      cases hc : isExponentMark c with
      | true => rw [magnitude_decimal hd.decimal (Or.inr hc), decimal_whole hd.length_ne hpoint]
      | false =>
        have hstop : continues .decimal c = false := by
          simpa [continues, hc, Radix.isDigit, or_comm, and_comm, and_left_comm] using ht
        rw [magnitude_integer hd ((Text.stops_cons ..).2 hstop)]
        simp [exponent, hc]
  | point hd hf =>
    rw [List.append_assoc, List.cons_append, magnitude_decimal hd.decimal (Or.inl rfl),
      decimal_fraction hf (Or.inl hd.length_ne) hdigit, List.length_append, List.length_cons]
    simp only [Nat.add_assoc, Nat.add_comm 1]
  | fraction hf =>
    rw [List.cons_append, magnitude_point, decimal_fraction hf.decimal (Or.inr hf.ne_nil) hdigit, List.length_cons]
    simp only [Nat.zero_add, Nat.add_comm 1]

theorem stops_of_mark {e : Char} (he : isExponentMark e = true) (cs : List Char) :
    Stops (fun c => isDigit c || c = '.' || c = '/') (e :: cs) := by
  rcases (isExponentMark_iff e).1 he with rfl | rfl <;> exact (Text.stops_cons ..).2 (by decide)

theorem Grammar.OptExponent.stops {x rest : List Char} (hx : OptExponent x) (hr : x ≠ [] ∨ Stops (continues .decimal) rest) :
    Stops (fun c => isDigit c || c = '.' || c = '/') (x ++ rest) := by
  cases hx with
  | missing =>
    refine (hr.resolve_left (· rfl)).imp fun c hc => ?_
    simp only [Bool.or_eq_true, decide_eq_true_eq] at hc
    rcases hc with (hc | hc) | hc <;> simp [continues, Radix.isDigit, hc]
  | exponent he _ _ => exact stops_of_mark he _

/-- **A magnitude is found** where nothing that it could go on with follows. -/
theorem magnitude_complete {r : Radix} {w rest : List Char} (hw : UReal r w) (hr : Stops (continues r) rest) :
    magnitude r (w ++ rest) = ⟨.real, w.length⟩ := by
  cases hw with
  | integer hd => exact magnitude_integer hd hr
  | ratio hn hd =>
    rw [List.append_assoc, List.cons_append, magnitude_ratio hn, Text.run_append hd.digits (stops_digit hr),
      if_neg hd.length_ne, List.length_append, List.length_cons]
    simp only [Nat.add_assoc, Nat.add_comm 1]
  | decimal hrad hw =>
    subst hrad
    obtain ⟨hm, hx⟩ := hw
    rw [List.append_assoc, magnitude_mantissa hm (hx.stops (Or.inr hr)), exponent_complete hx _ hr, List.length_append]

theorem le_decimal (n : Nat) (cs : List Char) : n ≤ (decimal n cs).taken := by
  unfold decimal
  simp only
  split
  · rename_i hn
    exact Nat.le_of_eq hn.1
  · exact Nat.le_trans (Nat.le_add_right ..) (exponent_taken ..)

/-- The digits at the head of a text are taken, whatever becomes of the magnitude. -/
theorem run_le_magnitude (r : Radix) (cs : List Char) : run r.isDigit cs ≤ (magnitude r cs).taken := by
  unfold magnitude
  simp only
  split
  · split <;> simp only <;> omega
  · split
    · split <;> simp only <;> omega
    · split
      · split
        · exact le_decimal ..
        · exact Nat.le_refl _
      · split <;> simp only <;> omega

theorem mantissa_longest {m rest : List Char} (hm : Mantissa m) (h : (magnitude .decimal (m ++ rest)).shape = .real) :
    m.length ≤ (magnitude .decimal (m ++ rest)).taken := by
  cases hm with
  | whole hd =>
    have := run_le_magnitude .decimal (m ++ rest)
    rw [Text.run_append_add hd.digits] at this
    omega
  | @point ds fs hd hf =>
    have heq := magnitude_decimal hd.decimal (Or.inl rfl) (fs ++ rest)
    rw [List.append_assoc, List.cons_append, heq] at h ⊢
    have := le_decimal_taken h
    rw [fractionLength_point, Text.run_append_add hf] at this
    simp only [List.length_append, List.length_cons]
    omega
  | @fraction fs hf =>
    rw [List.cons_append, magnitude_point] at h ⊢
    have := le_decimal_taken h
    rw [fractionLength_point, Text.run_append_add hf.decimal] at this
    rw [List.length_cons]
    omega

/-- **No longer magnitude stands there** than the one that is found. -/
theorem magnitude_longest {r : Radix} {w rest : List Char} (hw : UReal r w)
    (h : (magnitude r (w ++ rest)).shape = .real) : w.length ≤ (magnitude r (w ++ rest)).taken := by
  cases hw with
  | integer hd =>
    have := run_le_magnitude r (w ++ rest)
    rw [Text.run_append_add hd.digits] at this
    omega
  | ratio hn hd =>
    have := hd.length_ne
    rw [List.append_assoc, List.cons_append, magnitude_ratio hn, Text.run_append_add hd.digits, if_neg (by omega),
      List.length_append, List.length_cons]
    simp only
    omega
  | decimal hrad hw =>
    subst hrad
    cases hw with
    | @mk m x hm hx =>
      by_cases hnil : x = []
      · subst hnil
        rw [List.append_nil] at h ⊢
        exact mantissa_longest hm h
      · rw [List.append_assoc, magnitude_mantissa hm (hx.stops (Or.inl hnil)), List.length_append]
        exact exponent_longest hx _ rest

/-- **A magnitude that is found** is written as the grammar says. -/
theorem magnitude_sound {r : Radix} {cs : List Char} (h : (magnitude r cs).shape = .real) :
    ∃ w rest, cs = w ++ rest ∧ UReal r w ∧ (magnitude r cs).taken = w.length := by
  obtain ⟨ds, t, rfl, hd, ht, hrun⟩ := Text.exists_run r.isDigit cs
  have hds : ds.length ≠ 0 → UReal r ds := fun hne => .integer ⟨fun hnil => hne (by simp [hnil]), hd⟩
  unfold magnitude at h ⊢
  simp only [hrun, List.drop_left] at h ⊢
  cases t with
  | nil =>
    simp only at h ⊢
    split at h
    · cases h
    · rename_i hne
      exact ⟨ds, [], rfl, hds hne, by rw [if_neg hne]⟩
  | cons c t =>
    simp only at h ⊢
    split at h
    · rename_i hslash
      obtain ⟨rfl, hne⟩ := hslash
      split at h
      · cases h
      · rename_i hk
        obtain ⟨es, rest, rfl, he, -, hrun'⟩ := Text.exists_run r.isDigit t
        rw [hrun'] at hk
        refine ⟨ds ++ '/' :: es, rest, by simp, .ratio ⟨fun hnil => hne (by simp [hnil]), hd⟩
          ⟨fun hnil => hk (by simp [hnil]), he⟩, ?_⟩
        rw [if_pos ⟨rfl, hne⟩, hrun', if_neg hk]
        simp only [List.length_append, List.length_cons]
        omega
    · rename_i hslash
      rw [if_neg hslash]
      split at h
      · rename_i hm
        rw [if_pos hm]
        split at h
        · rename_i hr
          subst hr
          obtain ⟨w, rest, hw, hdec, htaken⟩ := decimal_sound hd h
          exact ⟨w, rest, hw, .decimal rfl hdec, by rw [if_pos rfl, htaken]⟩
        · cases h
      · rename_i hm
        rw [if_neg hm]
        split at h
        · cases h
        · rename_i hne
          exact ⟨ds, c :: t, rfl, hds hne, by rw [if_neg hne]⟩

/-- **Where there is no magnitude nothing is taken**, except outside radix ten the digits before a point or an exponent
mark. -/
theorem magnitude_absent {r : Radix} {cs : List Char} (h : (magnitude r cs).shape = .absent) :
    (magnitude r cs).taken = 0 ∨
      r ≠ .decimal ∧ (∀ c ∈ cs.take (magnitude r cs).taken, r.isDigit c = true) ∧
        ∃ c rest, cs.drop (magnitude r cs).taken = c :: rest ∧ (c = '.' ∨ isExponentMark c = true) := by
  obtain ⟨ds, t, rfl, hd, ht, hrun⟩ := Text.exists_run r.isDigit cs
  unfold magnitude at h ⊢
  simp only [hrun, List.drop_left] at h ⊢
  cases t with
  | nil =>
    simp only at h ⊢
    split at h
    · rename_i hn; exact Or.inl (by rw [if_pos hn])
    · cases h
  | cons c t =>
    simp only at h ⊢
    split at h
    · split at h <;> cases h
    · rename_i hslash
      rw [if_neg hslash]
      split at h
      · rename_i hm
        rw [if_pos hm]
        split at h
        · rename_i hr
          rw [if_pos hr]
          unfold decimal at h ⊢
          simp only at h ⊢
          split at h
          · rename_i hn; exact Or.inl (by rw [if_pos hn])
          · exact absurd h (exponent_ne_absent _ _)
        · rename_i hr
          rw [if_neg hr]
          exact Or.inr ⟨hr, by simpa using hd, c, t, by simp, hm⟩
      · rename_i hm
        split at h
        · rename_i hn; exact Or.inl (by rw [if_neg hm, if_pos hn])
        · cases h

end Number
end SchemeLexer
