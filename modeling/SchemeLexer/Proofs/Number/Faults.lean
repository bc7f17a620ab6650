import SchemeLexer.Proofs.Number.Recognition
/-!
# Faults — where a text goes wrong that was to be a number

Two faults show inside a magnitude: a slash that no digit follows, and an exponent mark that none follows (`Broken`).
They are found wherever a magnitude is expected (`Expects`), and are then the error of the whole number, in whatever
part of it the magnitude stands (`complex_broken`).  `complex_rejects` says what there is besides, and `complex_le` that
no rule takes more than there is.
-/
namespace SchemeLexer
namespace Number

open Text (Stops run)
open Grammar
open Caseless (fold matched sameWord)

/-! ## Magnitudes that break off -/

/-- A magnitude that lacks the digits behind its slash, or behind its exponent mark and the sign after that. -/
inductive Unfinished (r : Radix) : ScanError → List Char → Prop
  | fraction {ds : List Char} : UInteger r ds → Unfinished r .invalidFraction (ds ++ ['/'])
  | exponent {m s : List Char} {e : Char} : r = .decimal → Mantissa m → isExponentMark e = true → OptSign s →
    Unfinished r .invalidExponent (m ++ e :: s)

/-- An unfinished magnitude, and a text behind it that does not go on with it. -/
inductive Broken (r : Radix) : ScanError → List Char → List Char → Prop
  | fraction {ds rest : List Char} :
    UInteger r ds → Stops r.isDigit rest → Broken r .invalidFraction (ds ++ ['/']) rest
  | exponent {m s rest : List Char} {e : Char} : r = .decimal → Mantissa m → isExponentMark e = true → OptSign s →
    (s = [] → Stops isSign rest) → Stops isDigit rest → Broken r .invalidExponent (m ++ e :: s) rest

theorem Broken.unfinished {r : Radix} {f : ScanError} {w rest : List Char} (h : Broken r f w rest) : Unfinished r f w := by
  cases h with
  | fraction hd _ => exact .fraction hd
  | exponent hrad hm he hs _ _ => exact .exponent hrad hm he hs

theorem stops_sign_of_signLength {cs : List Char} (h : signLength cs = 0) : Stops isSign cs := by
  cases cs with
  | nil => exact Text.stops_nil _
  | cons c cs =>
    rw [Text.stops_cons]
    cases hc : isSign c with
    | false => rfl
    | true => simp [signLength, hc] at h

theorem signLength_of_stops {cs : List Char} (h : Stops isSign cs) : signLength cs = 0 := by
  cases cs with
  | nil => rfl
  | cons c cs =>
    have hc := (Text.stops_cons ..).1 h
    simp [signLength, hc]

theorem exponent_broken {e : Char} {s rest : List Char} (he : isExponentMark e = true) (hs : OptSign s)
    (hs' : s = [] → Stops isSign rest) (hr : Stops isDigit rest) (n : Nat) :
    exponent n (e :: (s ++ rest)) = ⟨.fault .invalidExponent, n + 1 + s.length⟩ := by
  have hlen : signLength (s ++ rest) = s.length := by
    cases hs with
    | missing => exact signLength_of_stops (hs' rfl)
    | sign hs => simp [signLength, hs]
  have hrun := Text.run_eq_zero hr
  simp only [exponent, he, if_true, hlen, List.drop_left, hrun]

theorem exponent_fault {n : Nat} {cs : List Char} {f : ScanError} (h : (exponent n cs).shape = .fault f) :
    ∃ e s rest, cs = e :: (s ++ rest) ∧ f = .invalidExponent ∧ isExponentMark e = true ∧ OptSign s ∧
      (s = [] → Stops isSign rest) ∧ Stops isDigit rest := by
  cases cs with
  | nil => cases h
  | cons e cs =>
    cases he : isExponentMark e with
    | false => simp [exponent, he] at h
    | true =>
      obtain ⟨s, cs, rfl, hs, hsl⟩ := exists_sign cs
      obtain ⟨ds, rest, rfl, hd, hr, hrun⟩ := Text.exists_run isDigit cs
      simp only [exponent, he, if_true, hsl, List.drop_left, hrun] at h
      split at h
      · rename_i hnil
        obtain rfl : ds = [] := List.length_eq_zero_iff.1 hnil
        cases h
        refine ⟨e, s, rest, rfl, rfl, he, hs, fun hnil => ?_, hr⟩
        subst hnil
        exact stops_sign_of_signLength hsl
      · cases h

theorem decimal_fault {ds cs : List Char} {f : ScanError} (hd : ∀ c ∈ ds, isDigit c = true)
    (h : (decimal ds.length cs).shape = .fault f) : ∃ w rest, ds ++ cs = w ++ rest ∧ Broken .decimal f w rest := by
  unfold decimal at h
  simp only at h
  split at h
  · cases h
  · rename_i hn
    obtain ⟨m, hm, hcs, -⟩ := exists_mantissa hd hn
    obtain ⟨e, s, rest, hdrop, rfl, he, hs, hs', hr⟩ := exponent_fault h
    exact ⟨m ++ e :: s, rest, by rw [hcs, hdrop]; simp, .exponent rfl hm he hs hs' hr⟩

/-- **A fault in a magnitude** shows where it breaks off. -/
theorem magnitude_fault {r : Radix} {cs : List Char} {f : ScanError} (h : (magnitude r cs).shape = .fault f) :
    ∃ w rest, cs = w ++ rest ∧ Broken r f w rest := by
  obtain ⟨ds, t, rfl, hd, -, hrun⟩ := Text.exists_run r.isDigit cs
  unfold magnitude at h
  simp only [hrun, List.drop_left] at h
  cases t with
  | nil =>
    simp only at h
    split at h <;> cases h
  | cons c t =>
    simp only at h
    split at h
    · rename_i hslash
      obtain ⟨rfl, hne⟩ := hslash
      split at h
      · rename_i hk
        cases h
        obtain ⟨es, rest, rfl, -, hr, hrun'⟩ := Text.exists_run r.isDigit t
        obtain rfl : es = [] := List.length_eq_zero_iff.1 (hrun' ▸ hk)
        exact ⟨ds ++ ['/'], rest, by simp, .fraction ⟨fun hnil => hne (by simp [hnil]), hd⟩ hr⟩
      · cases h
    · split at h
      · split at h
        · rename_i hr
          subst hr
          exact decimal_fault hd h
        · cases h
      · split at h <;> cases h

/-- **A magnitude that breaks off** is a fault, whatever stands behind it. -/
theorem magnitude_broken {r : Radix} {f : ScanError} {w rest : List Char} (h : Broken r f w rest) :
    magnitude r (w ++ rest) = ⟨.fault f, w.length⟩ := by
  cases h with
  | fraction hd hr =>
    have hrun := Text.run_eq_zero hr
    rw [List.append_assoc, List.singleton_append, magnitude_ratio hd, if_pos hrun, List.length_append,
      List.length_singleton]
  | exponent hrad hm he hs hs' hr =>
    subst hrad
    rw [List.append_assoc, List.cons_append, magnitude_mantissa hm (stops_of_mark he _), exponent_broken he hs hs' hr,
      List.length_append, List.length_cons]
    simp only [Nat.add_assoc, Nat.add_comm 1]

theorem Unfinished.stops_sign {r : Radix} {f : ScanError} {w : List Char} (h : Unfinished r f w) (t : List Char) :
    Stops isSign (w ++ t) := by
  cases h with
  | fraction hd =>
    rw [List.append_assoc]
    exact (UReal.integer hd).stops_sign _
  | exponent hrad hm _ _ =>
    subst hrad
    rw [List.append_assoc]
    have hw : UReal .decimal (_ ++ []) := .decimal rfl (.mk hm .missing)
    rw [List.append_nil] at hw
    exact hw.stops_sign _

theorem exponent_taken_mark {e : Char} (he : isExponentMark e = true) (n : Nat) (cs : List Char) :
    (exponent n (e :: cs)).taken = n + 1 + signLength cs + run isDigit (cs.drop (signLength cs)) := by
  simp only [exponent, he, if_true]
  split
  · rename_i hk
    rw [hk]
    rfl
  · rfl

/-- **What is no more than unfinished breaks off** where the reading ends. -/
theorem Unfinished.broken {r : Radix} {f : ScanError} {w rest : List Char} (h : Unfinished r f w)
    (hle : (magnitude r (w ++ rest)).taken ≤ w.length) : Broken r f w rest := by
  cases h with
  | fraction hd =>
    rw [List.append_assoc, List.singleton_append, magnitude_ratio hd, List.length_append, List.length_singleton] at hle
    refine .fraction hd (Text.stops_of_run ?_)
    split at hle
    · assumption
    · simp only at hle; omega
  | @exponent m s e hrad hm he hs =>
    subst hrad
    rw [List.append_assoc, List.cons_append, magnitude_mantissa hm (stops_of_mark he _), exponent_taken_mark he,
      List.length_append, List.length_cons] at hle
    cases hs with
    | missing =>
      rw [List.nil_append, List.length_nil] at hle
      have hzero : signLength rest = 0 := by omega
      rw [hzero, List.drop_zero] at hle
      exact .exponent rfl hm he .missing (fun _ => stops_sign_of_signLength hzero) (Text.stops_of_run (by omega))
    | @sign c hc =>
      have hone : signLength ([c] ++ rest) = 1 := by simp [signLength, hc]
      rw [hone, List.singleton_append, List.drop_one, List.tail_cons, List.length_singleton] at hle
      exact .exponent rfl hm he (.sign hc) (fun hnil => by cases hnil) (Text.stops_of_run (by omega))

theorem Unfinished.not_absent {r : Radix} {f : ScanError} {w : List Char} (h : Unfinished r f w) (rest : List Char) :
    (magnitude r (w ++ rest)).shape ≠ .absent := by
  cases h with
  | fraction hd =>
    rw [List.append_assoc, List.singleton_append, magnitude_ratio hd]
    split <;> simp
  | exponent hrad hm he _ =>
    subst hrad
    rw [List.append_assoc, List.cons_append, magnitude_mantissa hm (stops_of_mark he _)]
    exact exponent_ne_absent _ _

/-! ## Where a magnitude is expected -/

/-- What may stand before a magnitude: nothing, or a sign; a real number and a sign; a real number, an at sign, and
perhaps a sign. -/
inductive Expects (r : Radix) : List Char → Prop
  | real {s : List Char} : OptSign s → Expects r s
  | imaginary {x : List Char} {s : Char} : Real r x → isSign s = true → Expects r (x ++ [s])
  | angle {x s : List Char} : Real r x → OptSign s → Expects r (x ++ '@' :: s)

section
variable {r : Radix} {f : ScanError}

theorem signed_broken {w rest : List Char} (h : Broken r f w rest) : signed r (w ++ rest) = ⟨.fault f, w.length⟩ := by
  simp [signed, magnitude_broken h]

theorem real_broken {s w rest : List Char} (hs : OptSign s) (h : Broken r f w rest) :
    real r (s ++ (w ++ rest)) = ⟨.fault f, s.length + w.length⟩ := by
  cases hs with
  | missing => rw [List.nil_append, real_unsigned (h.unfinished.stops_sign rest), magnitude_broken h]; simp
  | sign hs => rw [List.singleton_append, real_signed hs, signed_broken h]; rfl

/-- **A magnitude that breaks off is the error of the number**, wherever a magnitude is expected. -/
theorem complex_broken {x w rest : List Char} (hx : Expects r x) (h : Broken r f w rest) :
    complex r (x ++ (w ++ rest)) = .reject f (x.length + w.length) := by
  cases hx with
  | real hs => simp [complex, real_broken hs h, Reading.reject]
  | @imaginary x s hx hs =>
    have hstop : Stops (continues r) (s :: (w ++ rest)) := (Text.stops_cons ..).2 (not_continues_of_sign r hs)
    rw [List.append_assoc, List.singleton_append, complex_of_real (real_complete hx hstop), List.drop_left,
      afterReal_sign hs]
    simp only [imaginary, signed_broken h, Reading.reject, Reading.shift, List.length_append, List.length_singleton,
      Nat.add_assoc]
  | @angle x s hx hs =>
    have hstop : Stops (continues r) ('@' :: (s ++ (w ++ rest))) := (Text.stops_cons ..).2 (by cases r <;> decide)
    rw [List.append_assoc, List.cons_append, complex_of_real (real_complete hx hstop), List.drop_left, afterReal_at]
    simp only [angle, real_broken hs h, Reading.reject, Reading.shift, List.length_append, List.length_cons,
      Nat.add_assoc, Nat.add_comm 1]

/-! ## What an error says -/

theorem special_ne_fault (cs : List Char) : (special cs).shape ≠ .fault f := by
  unfold special
  simp only
  split
  · simp
  · split
    · simp
    · split
      · split <;> simp
      · simp

theorem signed_fault {cs : List Char} (h : (signed r cs).shape = .fault f) : ∃ w rest, cs = w ++ rest ∧ Broken r f w rest := by
  unfold signed at h
  simp only at h
  split at h
  · exact absurd h (special_ne_fault _)
  · exact magnitude_fault h

theorem real_fault {cs : List Char} (h : (real r cs).shape = .fault f) :
    ∃ s w rest, cs = s ++ (w ++ rest) ∧ OptSign s ∧ Broken r f w rest := by
  cases cs with
  | nil => cases h
  | cons c cs =>
    cases hc : isSign c with
    | true =>
      rw [real_signed hc] at h
      obtain ⟨w, rest, rfl, hw⟩ := signed_fault h
      exact ⟨[c], w, rest, rfl, .sign hc, hw⟩
    | false =>
      rw [real_unsigned ((Text.stops_cons ..).2 hc)] at h
      obtain ⟨w, rest, hcs, hw⟩ := magnitude_fault h
      exact ⟨[], w, rest, hcs, .missing, hw⟩

/-- What the error of a text says about it. -/
inductive Rejects (r : Radix) (cs : List Char) : ScanError → Prop
  | broken {f : ScanError} {x w rest : List Char} :
    cs = x ++ (w ++ rest) → Expects r x → Broken r f w rest → Rejects r cs f
  | unit {x y rest : List Char} {s : Char} : cs = x ++ s :: (y ++ rest) → Real r x → isSign s = true →
    UReal r y ∨ InfNan y → signed r (y ++ rest) = ⟨.real, y.length⟩ → Stops isImaginaryUnit rest →
    Rejects r cs .expectedImaginaryUnit
  | number : Rejects r cs .invalidNumber

theorem imaginaryUnit_rejects {cs : List Char} (h : (imaginaryUnit cs).error? = some f) :
    f = .expectedImaginaryUnit ∧ Stops isImaginaryUnit cs ∧ (imaginaryUnit cs).taken = Text.oneMore cs := by
  cases cs with
  | nil => cases h; exact ⟨rfl, Text.stops_nil _, rfl⟩
  | cons c cs =>
    cases hc : isImaginaryUnit c with
    | true => simp [imaginaryUnit, hc, Reading.accept] at h
    | false =>
      have heq : imaginaryUnit (c :: cs) = .reject .expectedImaginaryUnit 1 := by simp [imaginaryUnit, hc]
      rw [heq] at h ⊢
      cases h
      exact ⟨rfl, (Text.stops_cons ..).2 hc, (Text.oneMore_cons c cs).symm⟩

theorem afterReal_rejects {x cs : List Char} (hx : Real r x) (h : (afterReal r cs).error? = some f) :
    Rejects r (x ++ cs) f := by
  cases cs with
  | nil => cases h
  | cons c cs =>
    by_cases hs : isSign c = true
    · rw [afterReal_sign hs, Reading.error?_shift] at h
      unfold imaginary at h
      simp only at h
      split at h
      · rename_i hreal
        obtain ⟨y, t, rfl, hy, hl⟩ := signed_sound hreal
        rw [hl, List.drop_left] at h
        obtain ⟨rfl, hstop, -⟩ := imaginaryUnit_rejects h
        exact .unit rfl hx hs hy (by rw [← hreal, ← hl]) hstop
      · cases h
      · cases h; exact .number
      · rename_i hfault
        cases h
        obtain ⟨w, rest, rfl, hw⟩ := signed_fault hfault
        exact .broken (by simp) (.imaginary hx hs) hw
    · by_cases hat : c = '@'
      · subst hat
        rw [afterReal_at, Reading.error?_shift] at h
        unfold angle at h
        simp only at h
        split at h
        · cases h
        · cases h; exact .number
        · cases h; exact .number
        · rename_i hfault
          cases h
          obtain ⟨s, w, rest, rfl, hsign, hw⟩ := real_fault hfault
          exact .broken (by simp) (.angle hx hsign) hw
      · simp only [afterReal, if_neg hs, if_neg hat] at h
        split at h <;> cases h

/-- **What an error says**: which part of the number was expected where it shows. -/
theorem complex_rejects {cs : List Char} (h : (complex r cs).error? = some f) : Rejects r cs f := by
  cases hshape : (real r cs).shape with
  | real =>
    obtain ⟨x, t, rfl, hx, hl⟩ := real_sound hshape
    have hreal : real r (x ++ t) = ⟨.real, x.length⟩ := by rw [← hshape, ← hl]
    rw [complex_of_real hreal, List.drop_left, Reading.error?_shift] at h
    exact afterReal_rejects hx h
  | unit => simp [complex, hshape, Reading.accept] at h
  | absent =>
    simp only [complex, hshape, Reading.reject] at h
    cases h
    exact .number
  | fault e =>
    simp only [complex, hshape, Reading.reject] at h
    cases h
    obtain ⟨s, w, rest, rfl, hs, hw⟩ := real_fault hshape
    exact .broken rfl (.real hs) hw

/-- There are four ways for a number to go wrong. -/
theorem complex_errors {cs : List Char} (h : (complex r cs).error? = some f) :
    f = .invalidFraction ∨ f = .invalidExponent ∨ f = .expectedImaginaryUnit ∨ f = .invalidNumber := by
  cases complex_rejects h with
  | broken _ _ hv =>
    cases hv with
    | fraction => exact Or.inl rfl
    | exponent => exact Or.inr (Or.inl rfl)
  | unit => exact Or.inr (Or.inr (Or.inl rfl))
  | number => exact Or.inr (Or.inr (Or.inr rfl))

theorem real_taken_le_complex (r : Radix) (cs : List Char) : (real r cs).taken ≤ (complex r cs).taken := by
  unfold complex
  simp only
  split
  · exact Nat.le_add_right ..
  · exact Nat.le_refl _
  · exact Nat.le_refl _
  · exact Nat.le_refl _

theorem signed_taken_le_imaginary (r : Radix) (cs : List Char) : (signed r cs).taken ≤ (imaginary r cs).taken := by
  unfold imaginary
  simp only
  split
  · exact Nat.le_add_right ..
  · exact Nat.le_refl _
  · exact Nat.le_refl _
  · exact Nat.le_refl _

theorem angle_taken (r : Radix) (cs : List Char) : (angle r cs).taken = (real r cs).taken := by
  unfold angle
  simp only
  split <;> rfl

theorem real_optSign {s cs : List Char} (hs : OptSign s) (hstop : Stops isSign cs)
    (h : (magnitude r cs).shape ≠ .absent) : (real r (s ++ cs)).taken = s.length + (magnitude r cs).taken := by
  cases hs with
  | missing => rw [List.nil_append, real_unsigned hstop, List.length_nil, Nat.zero_add]
  | sign hs => rw [List.singleton_append, real_signed hs, signed, if_neg h]; rfl

/-- A magnitude that is expected is taken with all that stands before it. -/
theorem Expects.taken_le {x cs : List Char} (hx : Expects r x) (hstop : Stops isSign cs)
    (h : (magnitude r cs).shape ≠ .absent) : x.length + (magnitude r cs).taken ≤ (complex r (x ++ cs)).taken := by
  cases hx with
  | real hs =>
    rw [← real_optSign hs hstop h]
    exact real_taken_le_complex r _
  | @imaginary x s hx hs =>
    have hcont : Stops (continues r) (s :: cs) := (Text.stops_cons ..).2 (not_continues_of_sign r hs)
    have hle := signed_taken_le_imaginary r cs
    rw [signed, if_neg h] at hle
    rw [List.append_assoc, List.singleton_append, complex_of_real (real_complete hx hcont), List.drop_left,
      afterReal_sign hs, List.length_append, List.length_singleton, Reading.taken_shift, Reading.taken_shift]
    omega
  | @angle x s hx hs =>
    have hcont : Stops (continues r) ('@' :: (s ++ cs)) := (Text.stops_cons ..).2 (by cases r <;> decide)
    rw [List.append_assoc, List.cons_append, complex_of_real (real_complete hx hcont), List.drop_left, afterReal_at,
      List.length_append, List.length_cons, Reading.taken_shift, Reading.taken_shift, angle_taken,
      real_optSign hs hstop h]
    omega

/-- A text that is taken no further than an unfinished magnitude has that magnitude for its error. -/
theorem complex_unfinished {x w rest : List Char} (hx : Expects r x) (hw : Unfinished r f w)
    (hle : (complex r (x ++ (w ++ rest))).taken ≤ x.length + w.length) :
    (complex r (x ++ (w ++ rest))).error? = some f := by
  have hmag := hx.taken_le (hw.stops_sign rest) (hw.not_absent rest)
  rw [complex_broken hx (hw.broken (by omega))]
  rfl

end

/-! ## No more is taken than there is -/

section
variable (r : Radix) (cs : List Char)

theorem magnitude_le : (magnitude r cs).taken ≤ cs.length := by
  cases hshape : (magnitude r cs).shape with
  | real =>
    obtain ⟨w, rest, rfl, -, hl⟩ := magnitude_sound hshape
    rw [hl, List.length_append]
    exact Nat.le_add_right ..
  | unit => exact absurd hshape (magnitude_ne_unit r cs)
  | absent =>
    rcases magnitude_absent hshape with h0 | ⟨-, -, c, rest, hdrop, -⟩
    · omega
    · have hlen := congrArg List.length hdrop
      rw [List.length_drop, List.length_cons] at hlen
      omega
  | fault f =>
    obtain ⟨w, rest, rfl, hw⟩ := magnitude_fault hshape
    rw [magnitude_broken hw, List.length_append]
    exact Nat.le_add_right ..

theorem special_taken : (special cs).taken = matched infinity cs ∨ (special cs).taken = matched notANumber cs := by
  unfold special
  simp only
  split
  · rename_i hk; exact Or.inl hk.symm
  · split
    · rename_i hk; exact Or.inl hk.symm
    · split
      · exact Or.inr rfl
      · exact Or.inl rfl

theorem special_le : (special cs).taken ≤ cs.length := by
  rcases special_taken cs with h | h
  · rw [h]; exact Caseless.matched_le_right ..
  · rw [h]; exact Caseless.matched_le_right ..

theorem signed_le : (signed r cs).taken ≤ cs.length := by
  rcases signed_eq r cs with ⟨-, heq⟩ | heq | heq
  · rw [heq]; exact magnitude_le r cs
  · rw [heq]; exact special_le cs
  · rw [heq]; exact magnitude_le r cs

theorem real_le : (real r cs).taken ≤ cs.length := by
  cases cs with
  | nil => exact Nat.le_refl _
  | cons c cs =>
    cases hc : isSign c with
    | true =>
      have hle := signed_le r cs
      rw [real_signed hc, Part.taken_shift, List.length_cons]
      omega
    | false =>
      rw [real_unsigned ((Text.stops_cons ..).2 hc)]
      exact magnitude_le r (c :: cs)

theorem imaginary_le : (imaginary r cs).taken ≤ cs.length := by
  have hsigned := signed_le r cs
  have hunit : ∀ ds : List Char, (imaginaryUnit ds).taken ≤ ds.length := fun ds => by
    unfold imaginaryUnit
    split
    · rename_i hi
      cases ds with
      | nil => cases hi
      | cons d ds => exact Nat.succ_le_succ (Nat.zero_le _)
    · exact Text.oneMore_le ds
  unfold imaginary
  simp only
  split
  · have := hunit (cs.drop (signed r cs).taken)
    rw [List.length_drop] at this
    rw [Reading.taken_shift]
    omega
  · exact hsigned
  · exact hsigned
  · exact hsigned

theorem afterReal_le : (afterReal r cs).taken ≤ cs.length := by
  cases cs with
  | nil => exact Nat.le_refl _
  | cons c cs =>
    have himaginary := imaginary_le r cs
    have hreal := real_le r cs
    simp only [afterReal, List.length_cons]
    split
    · rw [Reading.taken_shift]
      omega
    · split
      · rw [Reading.taken_shift, angle_taken]
        omega
      · split
        · exact Nat.succ_le_succ (Nat.zero_le _)
        · exact Nat.zero_le _

/-- **A number takes no more than there is**, whether it goes wrong or not. -/
theorem complex_le : (complex r cs).taken ≤ cs.length := by
  have hreal := real_le r cs
  unfold complex
  simp only
  split
  · have := afterReal_le r (cs.drop (real r cs).taken)
    rw [List.length_drop] at this
    rw [Reading.taken_shift]
    omega
  · exact hreal
  · exact hreal
  · exact hreal

end

end Number
end SchemeLexer
