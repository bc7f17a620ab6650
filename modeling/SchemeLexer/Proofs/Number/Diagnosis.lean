import SchemeLexer.Proofs.Number.Beginnings
import SchemeLexer.Proofs.Places
/-!
# Diagnosis — what the error of a number says

The error of a number says which part of it was expected where it shows.  The text that is taken says the same, but for
one case (`complex_decided`): outside radix ten the digits of an imaginary part are taken alike whether the text ends
behind them or a point follows, and only in the former case is it the unit that is wanting (`Parted`).
`consume_complex_diagnosis` puts this together for a cursor that stands anywhere in its source.
-/
namespace SchemeLexer
namespace Number

open Text (Stops)
open Grammar

/-! ## A text of which the same is taken -/

section
variable {r : Radix} {f : ScanError}

/-- Where the unit of an imaginary part is wanting, all of the number up to there is taken, and the character that
stands in its place. -/
theorem complex_unit {x y rest : List Char} {s : Char} (hx : Real r x) (hs : isSign s = true)
    (hy : signed r (y ++ rest) = ⟨.real, y.length⟩) :
    complex r (x ++ s :: (y ++ rest)) = (imaginaryUnit rest).shift (x.length + 1 + y.length) := by
  have hstop : Stops (continues r) (s :: (y ++ rest)) := (Text.stops_cons ..).2 (not_continues_of_sign r hs)
  rw [complex_of_real (real_complete hx hstop), List.drop_left, afterReal_sign hs, imaginary_of_real hy, List.drop_left,
    Reading.shift_shift, Reading.shift_shift]

/-- Where neither a magnitude nor a word is found behind a sign although the text begins with one, it is digits that have
been taken, outside radix ten. -/
theorem signed_absent_digits {y t : List Char} (hy : UReal r y ∨ InfNan y) (habsent : (signed r (y ++ t)).shape = .absent)
    (htaken : (signed r (y ++ t)).taken ≠ 0) :
    r ≠ .decimal ∧ (∀ c ∈ (y ++ t).take (signed r (y ++ t)).taken, r.isDigit c = true) ∧
      ∃ c rest, (y ++ t).drop (signed r (y ++ t)).taken = c :: rest ∧ (c = '.' ∨ isExponentMark c = true) := by
  rcases signed_eq r (y ++ t) with ⟨hmag, heq⟩ | heq | heq
  · exact absurd (heq ▸ habsent) hmag
  · rcases hy with hy | hy
    · rw [heq, hy.special] at htaken
      exact absurd rfl htaken
    · rw [heq, special_infNan hy] at habsent
      cases habsent
  · have hmag : (magnitude r (y ++ t)).shape = .absent := by
      by_cases hmag : (magnitude r (y ++ t)).shape = .absent
      · exact hmag
      · rwa [signed, if_neg hmag] at habsent
    rw [heq] at htaken ⊢
    exact (magnitude_absent hmag).resolve_left htaken

/-- What is found behind a sign does not go on with `c`; a text that goes on differently behind `c`, and of which as
much and one more character is taken, does not lack a magnitude. -/
theorem signed_real_again {y t t' : List Char} {c : Char} (hy : UReal r y ∨ InfNan y)
    (hreal : signed r (y ++ c :: t) = ⟨.real, y.length⟩)
    (hlen : (signed r (y ++ c :: t')).taken = y.length + 1) : (signed r (y ++ c :: t')).shape ≠ .absent := by
  intro habsent
  obtain ⟨-, hd, -⟩ := signed_absent_digits hy habsent (by omega)
  -- all that is taken are digits, and `y` would have gone on with the last of them in the first text
  rw [hlen, List.append_cons, List.take_left' (by simp)] at hd
  have hlongest := @signed_longest r (y ++ [c]) t (.integer ⟨by simp, hd⟩)
  rw [← List.append_cons, hreal, List.length_append, List.length_singleton] at hlongest
  have hle : y.length + 1 ≤ y.length := hlongest (Or.inl rfl)
  omega

/-- Where what follows a real number and a sign is no part of a number, all that has been taken of it is what stood for
a magnitude. -/
theorem complex_sign_number {x cs : List Char} {s : Char} (hx : Real r x) (hs : isSign s = true)
    (h : (complex r (x ++ s :: cs)).error? = some .invalidNumber) : (signed r cs).shape = .absent ∧
      (complex r (x ++ s :: cs)).taken = x.length + 1 + (signed r cs).taken := by
  have hstop : Stops (continues r) (s :: cs) := (Text.stops_cons ..).2 (not_continues_of_sign r hs)
  rw [complex_of_real (real_complete hx hstop), List.drop_left, afterReal_sign hs, Reading.shift_shift] at h ⊢
  rw [Reading.error?_shift] at h
  rw [Reading.taken_shift, Nat.add_left_cancel_iff]
  unfold imaginary at h ⊢
  simp only at h ⊢
  split at h
  · cases (imaginaryUnit_rejects h).1
  · cases h
  · rename_i habsent
    rw [habsent]
    exact ⟨rfl, rfl⟩
  · rename_i hfault
    cases h
    obtain ⟨v, rest, -, hv⟩ := signed_fault hfault
    cases hv

/-- The text that is taken, and what is left. -/
theorem exists_taken (r : Radix) (cs : List Char) :
    ∃ rest, cs = cs.take (complex r cs).taken ++ rest ∧ (cs.take (complex r cs).taken).length = (complex r cs).taken :=
  ⟨_, (List.take_append_drop ..).symm, List.length_take_of_le (complex_le r cs)⟩

theorem take_complex_broken {x w rest : List Char} (hx : Expects r x) (h : Broken r f w rest) :
    (x ++ (w ++ rest)).take (complex r (x ++ (w ++ rest))).taken = x ++ w := by
  rw [complex_broken hx h, ← List.append_assoc]
  exact List.take_left' (List.length_append ..)

/-- A text of which an unfinished magnitude is taken to its end has that magnitude for its error. -/
theorem error?_of_unfinished {x v cs : List Char} (hx : Expects r x) (hv : Unfinished r f v)
    (h : cs.take (complex r cs).taken = x ++ v) : (complex r cs).error? = some f := by
  obtain ⟨rest, hcs, hl⟩ := exists_taken r cs
  rw [h, List.append_assoc] at hcs
  rw [h, List.length_append] at hl
  rw [hcs] at hl ⊢
  exact complex_unfinished hx hv (Nat.le_of_eq hl.symm)

theorem take_complex_unit {x y rest : List Char} {s : Char} (hx : Real r x) (hs : isSign s = true)
    (hy : signed r (y ++ rest) = ⟨.real, y.length⟩) (hrest : Stops isImaginaryUnit rest) :
    (x ++ s :: (y ++ rest)).take (complex r (x ++ s :: (y ++ rest))).taken = x ++ s :: (y ++ rest.take 1) := by
  have hunit : (imaginaryUnit rest).taken = Text.oneMore rest := by
    cases rest with
    | nil => rfl
    | cons c rest => simp [imaginaryUnit, (Text.stops_cons ..).1 hrest, Reading.reject]
  have hone : rest.take (Text.oneMore rest) = rest.take 1 := by
    cases rest with
    | nil => rfl
    | cons c rest => rw [Text.oneMore_cons]
  have hsplit : ∀ t, x ++ s :: (y ++ t) = (x ++ [s] ++ y) ++ t := fun t => by simp
  have hlen : x.length + 1 + y.length = (x ++ [s] ++ y).length := by
    rw [List.length_append, List.length_append, List.length_singleton]
  rw [complex_unit hx hs hy, Reading.taken_shift, hunit, hsplit, hsplit, hlen, List.take_length_add_append, hone]

theorem broken_decides {e : ScanError} {ds x w rest : List Char} (hx : Expects r x) (hw : Broken r e w rest)
    (hds : (complex r ds).error? = some f)
    (htake : (x ++ (w ++ rest)).take (complex r (x ++ (w ++ rest))).taken = ds.take (complex r ds).taken) : e = f := by
  rw [take_complex_broken hx hw] at htake
  rw [error?_of_unfinished hx hw.unfinished htake.symm] at hds
  exact Option.some.inj hds

/-- Two texts of which the same is taken, `w`, with different errors.  Outside radix ten the digits of an imaginary part
lack the unit where the text ends, and are no magnitude before a point or an exponent mark. -/
structure Parted (r : Radix) (w cs ds : List Char) (e f : ScanError) : Prop where
  radix  : r ≠ .decimal
  digits : ∃ x s y, w = x ++ s :: y ∧ Real r x ∧ isSign s = true ∧ UInteger r y
  ends   : cs = w ∧ e = .expectedImaginaryUnit
  goesOn : (∃ c t, ds = w ++ c :: t ∧ (c = '.' ∨ isExponentMark c = true)) ∧ f = .invalidNumber

/-- Of a text that goes on, no more is taken than of one that ends where its unit is wanting. -/
theorem parted_of_taken {x y t : List Char} {s : Char} (hx : Real r x) (hs : isSign s = true) (hy : UReal r y ∨ InfNan y)
    (hpos : 0 < y.length) (h : (complex r (x ++ s :: (y ++ t))).error? = some .invalidNumber)
    (htaken : (complex r (x ++ s :: (y ++ t))).taken = x.length + 1 + y.length) :
    Parted r (x ++ s :: y) (x ++ s :: y) (x ++ s :: (y ++ t)) .expectedImaginaryUnit .invalidNumber := by
  obtain ⟨habsent, hall⟩ := complex_sign_number hx hs h
  have hlength : (signed r (y ++ t)).taken = y.length := Nat.add_left_cancel (hall.symm.trans htaken)
  obtain ⟨hr, hdigits, c, rest, hdrop, hc⟩ := signed_absent_digits hy habsent (by omega)
  rw [hlength, List.take_left] at hdigits
  rw [hlength, List.drop_left] at hdrop
  exact ⟨hr, ⟨x, s, y, rfl, hx, hs, List.ne_nil_of_length_pos hpos, hdigits⟩, ⟨rfl, rfl⟩,
    ⟨⟨c, rest, by simp [hdrop], hc⟩, rfl⟩⟩

/-- A text whose unit is wanting, and one without a magnitude of which the same is taken. -/
theorem unit_parted {ds x y rest cs : List Char} {s : Char} (hcs : cs = x ++ s :: (y ++ rest)) (hx : Real r x)
    (hs : isSign s = true) (hy : UReal r y ∨ InfNan y) (hreal : signed r (y ++ rest) = ⟨.real, y.length⟩)
    (hrest : Stops isImaginaryUnit rest) (hds : (complex r ds).error? = some .invalidNumber)
    (htake : cs.take (complex r cs).taken = ds.take (complex r ds).taken) :
    Parted r (ds.take (complex r ds).taken) cs ds .expectedImaginaryUnit .invalidNumber := by
  obtain ⟨t', hsplit, hlen⟩ := exists_taken r ds
  subst hcs
  rw [take_complex_unit hx hs hreal hrest] at htake
  rw [← htake] at hsplit hlen ⊢
  cases rest with
  | nil =>
    have hpos := signed_pos (Or.inl (congrArg Part.shape hreal))
    rw [hreal] at hpos
    obtain rfl : ds = x ++ s :: (y ++ t') := by simpa using hsplit
    rw [List.take_nil, List.append_nil] at hlen ⊢
    refine parted_of_taken hx hs hy hpos hds (hlen.symm.trans ?_)
    simp only [List.length_append, List.length_cons]
    omega
  | cons c t =>
    obtain rfl : ds = x ++ s :: (y ++ c :: t') := by simpa using hsplit
    obtain ⟨habsent, htaken⟩ := complex_sign_number hx hs hds
    have hlength : (signed r (y ++ c :: t')).taken = y.length + 1 := by
      rw [htaken, List.take_succ_cons, List.take_zero] at hlen
      simp only [List.length_append, List.length_cons, List.length_nil] at hlen
      omega
    exact absurd habsent (signed_real_again hy hreal hlength)

/-- **The text that is taken decides the error,** except where it ends at digits that might go on. -/
theorem complex_decided {e : ScanError} {cs ds : List Char} (hcs : (complex r cs).error? = some e)
    (hds : (complex r ds).error? = some f) (htake : cs.take (complex r cs).taken = ds.take (complex r ds).taken) :
    e = f ∨ Parted r (ds.take (complex r ds).taken) cs ds e f ∨ Parted r (ds.take (complex r ds).taken) ds cs f e := by
  cases complex_rejects hcs with
  | broken heq hx hw =>
    subst heq
    exact Or.inl (broken_decides hx hw hds htake)
  | unit heq hx hs hy hreal hrest =>
    cases complex_rejects hds with
    | broken heq hx hw =>
      subst heq
      exact Or.inl (broken_decides hx hw hcs htake.symm).symm
    | unit => exact Or.inl rfl
    | number => exact Or.inr (Or.inl (unit_parted heq hx hs hy hreal hrest hds htake))
  | number =>
    cases complex_rejects hds with
    | broken heq hx hw =>
      subst heq
      exact Or.inl (broken_decides hx hw hcs htake.symm).symm
    | unit heq hx hs hy hreal hrest =>
      exact Or.inr (Or.inr (htake ▸ unit_parted heq hx hs hy hreal hrest hcs htake.symm))
    | number => exact Or.inl rfl

end

/-! ## The diagnosis -/

/-- **What reading a number says** of the text ahead, `cs`, of which `w` is taken; `e?` is the error, if there is one. -/
structure Diagnosis (r : Radix) (cs w : List Char) (e? : Option ScanError) : Prop where
  /-- A slash without digits is the error exactly where it stands behind digits and a magnitude is expected. -/
  fraction : e? = some .invalidFraction ↔ ∃ x v rest, cs = x ++ (v ++ rest) ∧ Expects r x ∧ Broken r .invalidFraction v rest
  /-- An exponent mark without digits, likewise. -/
  exponent : e? = some .invalidExponent ↔ ∃ x v rest, cs = x ++ (v ++ rest) ∧ Expects r x ∧ Broken r .invalidExponent v rest
  /-- A magnitude that breaks off is taken to its end and no further. -/
  exact : ∀ f x v rest, cs = x ++ (v ++ rest) → Expects r x → Broken r f v rest → e? = some f ∧ w = x ++ v
  /-- A missing unit: all of the imaginary part is taken, and the character in the place of the unit. -/
  unit : e? = some .expectedImaginaryUnit → ∃ x s y rest, cs = x ++ s :: (y ++ rest) ∧ Real r x ∧ isSign s = true ∧
    (UReal r y ∨ InfNan y) ∧ Stops isImaginaryUnit rest ∧ w = x ++ s :: (y ++ rest.take 1)
  /-- There is no other error but one. -/
  number : ∀ e, e? = some e →
    e = .invalidFraction ∨ e = .invalidExponent ∨ e = .expectedImaginaryUnit ∨ e = .invalidNumber
  /-- Nothing goes wrong before the last character that is taken. -/
  first : ∀ e, e? = some e → Begins (Complex r) w.dropLast
  /-- Where an unfinished magnitude is what is taken, that is the error. -/
  unfinished : ∀ f x v, w = x ++ v → Expects r x → Unfinished r f v → e? = some f
  /-- Another text that is no number, of which the same is taken, has the same error, unless one of the two ends there and
  the other does not. -/
  decided : ∀ e f ds, e? = some e → (complex r ds).error? = some f → ds.take (complex r ds).taken = w →
    e = f ∨ Parted r w cs ds e f ∨ Parted r w ds cs f e

theorem error?_eq_iff {r : Radix} {f : ScanError} {cs : List Char} (hf : f = .invalidFraction ∨ f = .invalidExponent) :
    (complex r cs).error? = some f ↔ ∃ x v rest, cs = x ++ (v ++ rest) ∧ Expects r x ∧ Broken r f v rest := by
  constructor
  · intro h
    cases complex_rejects h with
    | broken hcs hx hv => exact ⟨_, _, _, hcs, hx, hv⟩
    | unit => simp at hf
    | number => simp at hf
  · rintro ⟨x, v, rest, rfl, hx, hv⟩
    rw [complex_broken hx hv]
    rfl

theorem complex_diagnosis (r : Radix) (cs : List Char) :
    Diagnosis r cs (cs.take (complex r cs).taken) (complex r cs).error? where
  fraction := error?_eq_iff (Or.inl rfl)
  exponent := error?_eq_iff (Or.inr rfl)
  exact := by
    rintro f x v rest rfl hx hv
    refine ⟨?_, take_complex_broken hx hv⟩
    rw [complex_broken hx hv]
    rfl
  unit := by
    intro h
    cases complex_rejects h with
    | broken hcs hx hv => cases hv
    | unit hcs hx hs hy hreal hrest =>
      subst hcs
      exact ⟨_, _, _, _, rfl, hx, hs, hy, hrest, take_complex_unit hx hs hreal hrest⟩
  number _ h := complex_errors h
  first _ h := by
    rw [List.dropLast_eq_take, List.length_take_of_le (complex_le r cs), List.take_take, Nat.min_eq_left (Nat.sub_le ..)]
    exact begins_complex h
  unfinished _ _ _ hw hx hv := error?_of_unfinished hx hv hw
  decided _ _ ds he hf htake := htake ▸ complex_decided he hf htake.symm

/-- **What a cursor reads where a number is to stand,** and the error it ends with if that is none: it can be told from
the text ahead, and the text passed over tells the error. -/
theorem consume_complex_diagnosis (r : Radix) (c : Cursor) : let read := c.consume (complex r)
    Diagnosis r c.ahead (Utf8.chars (c.pos.slice read.2.pos)) read.1 := by
  intro read
  have htaken : Utf8.chars (c.pos.slice read.2.pos) = c.ahead.take (complex r c.ahead).taken := Place.chars_slice _ c.pos
  rw [htaken]
  exact complex_diagnosis r c.ahead

/-- A slash that no digit follows, behind a real number and a sign; and an exponent mark, behind an at sign and a
sign. -/
theorem consume_complex_diagnosis_behind_sign :
    let c := Cursor.ofBytes (Utf8.ascii ['1', '+', '2', '/', 'i'])
    let d := Cursor.ofBytes (Utf8.ascii ['1', '@', '-', '2', 'e', 'x'])
    ((c.consume (complex .decimal)).1 = some .invalidFraction ∧
      Utf8.chars (c.pos.slice (c.consume (complex .decimal)).2.pos) = ['1', '+', '2', '/']) ∧
    (d.consume (complex .decimal)).1 = some .invalidExponent ∧
      Utf8.chars (d.pos.slice (d.consume (complex .decimal)).2.pos) = ['1', '@', '-', '2', 'e'] := by
  intro c d
  have hone : Real .decimal ['1'] := .unsigned (.integer (uInteger_one .decimal))
  have htwo : UInteger .decimal ['2'] := ⟨List.cons_ne_nil _ _, List.forall_mem_singleton.2 rfl⟩
  have hfraction : Broken .decimal .invalidFraction ['2', '/'] ['i'] := .fraction htwo ((Text.stops_cons ..).2 rfl)
  have hexponent : Broken .decimal .invalidExponent ['2', 'e'] ['x'] :=
    .exponent rfl (.whole htwo) rfl .missing (fun _ => (Text.stops_cons ..).2 rfl) ((Text.stops_cons ..).2 rfl)
  exact ⟨(consume_complex_diagnosis .decimal c).exact _ ['1', '+'] _ _ rfl (.imaginary hone rfl) hfraction,
    (consume_complex_diagnosis .decimal d).exact _ ['1', '@', '-'] _ _ rfl (.angle hone (.sign rfl)) hexponent⟩

/-- **The text passed over is not enough to tell the error:** in radix eight the unit is wanting behind `5+3`, and before
a point the same digits are no magnitude. -/
theorem same_text_another_error :
    let c := Cursor.ofBytes (Utf8.ascii ['5', '+', '3'])
    let d := Cursor.ofBytes (Utf8.ascii ['5', '+', '3', '.'])
    (c.consume (complex .octal)).1 = some .expectedImaginaryUnit ∧ (d.consume (complex .octal)).1 = some .invalidNumber ∧
      c.pos.slice (c.consume (complex .octal)).2.pos = Utf8.ascii ['5', '+', '3'] ∧
      d.pos.slice (d.consume (complex .octal)).2.pos = Utf8.ascii ['5', '+', '3'] := by
  decide

end Number
end SchemeLexer
