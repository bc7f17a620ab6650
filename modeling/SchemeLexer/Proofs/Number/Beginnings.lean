import SchemeLexer.Proofs.Number.Faults
/-!
# Beginnings — what stands before the error of a number

A text that is not a number begins like one.  What is taken for the error is the beginning of a number but for its last
character (`begins_complex`): the rules read on as long as a number may still come of it, and no further.
-/
namespace SchemeLexer
namespace Number

open Grammar
open Caseless (matched sameWord)

/-- A text that more text makes one of a sort. -/
def Begins (p : List Char → Prop) (v : List Char) : Prop := ∃ t, p (v ++ t)

theorem Begins.self {p : List Char → Prop} {v : List Char} (h : p v) : Begins p v := ⟨[], by rwa [List.append_nil]⟩

theorem Begins.shorten {p : List Char → Prop} {u v : List Char} (h : Begins p v) (hu : u <+: v) : Begins p u := by
  obtain ⟨t, ht⟩ := h
  obtain ⟨s, rfl⟩ := hu
  exact ⟨s ++ t, by rwa [← List.append_assoc]⟩

theorem Begins.take {p : List Char → Prop} {cs : List Char} {m n : Nat} (h : Begins p (cs.take n)) (hle : m ≤ n) :
    Begins p (cs.take m) := h.shorten (List.take_prefix_take_left hle)

theorem Begins.behind {p q : List Char → Prop} {v x : List Char} (h : Begins p v) (hq : ∀ w, p w → q (x ++ w)) :
    Begins q (x ++ v) := by
  obtain ⟨t, ht⟩ := h
  exact ⟨t, by rw [List.append_assoc]; exact hq _ ht⟩

theorem Begins.imp {p q : List Char → Prop} {v : List Char} (h : Begins p v) (hq : ∀ w, p w → q w) : Begins q v := by
  obtain ⟨t, ht⟩ := h
  exact ⟨t, hq _ ht⟩

theorem uInteger_one (r : Radix) : UInteger r ['1'] :=
  ⟨List.cons_ne_nil _ _, fun c hc => by rw [List.mem_singleton.1 hc]; cases r <;> rfl⟩

theorem Unfinished.begins {r : Radix} {f : ScanError} {w : List Char} (h : Unfinished r f w) : Begins (UReal r) w := by
  refine ⟨['1'], ?_⟩
  cases h with
  | fraction hd =>
    rw [List.append_assoc]
    exact .ratio hd (uInteger_one r)
  | exponent hrad hm he hs =>
    rw [List.append_assoc]
    exact .decimal hrad (.mk hm (.exponent he hs (uInteger_one .decimal)))

section
variable (r : Radix) (cs : List Char)

theorem begins_magnitude : Begins (UReal r) (cs.take (magnitude r cs).taken) := by
  cases hshape : (magnitude r cs).shape with
  | real =>
    obtain ⟨w, rest, rfl, hw, hl⟩ := magnitude_sound hshape
    rw [hl, List.take_left]
    exact .self hw
  | unit => exact absurd hshape (magnitude_ne_unit r cs)
  | absent =>
    rcases magnitude_absent hshape with h0 | ⟨-, hd, -⟩
    · rw [h0]
      exact ⟨['1'], .integer (uInteger_one r)⟩
    · refine ⟨['1'], .integer ⟨by simp, ?_⟩⟩
      exact List.forall_mem_append.2 ⟨hd, (uInteger_one r).digits⟩
  | fault f =>
    obtain ⟨w, rest, rfl, hw⟩ := magnitude_fault hshape
    rw [magnitude_broken hw, List.take_left]
    exact hw.unfinished.begins

theorem sameWord_matched : ∀ word cs : List Char,
    sameWord (cs.take (matched word cs) ++ word.drop (matched word cs)) word = true
  | [], _ => by simp [matched, sameWord]
  | w :: word, [] => by simp [matched, sameWord]
  | w :: word, c :: cs => by
    unfold matched
    split
    · rename_i hc
      have ih := sameWord_matched word cs
      simp only [sameWord, decide_eq_true_eq] at ih ⊢
      rw [List.take_succ_cons, List.drop_succ_cons, List.cons_append, List.map_cons, List.map_cons, ih, hc]
    · simp [sameWord]

theorem begins_special : Begins InfNan (cs.take (special cs).taken) := by
  rcases special_taken cs with h | h
  · rw [h]; exact ⟨_, Or.inl (sameWord_matched infinity cs)⟩
  · rw [h]; exact ⟨_, Or.inr (sameWord_matched notANumber cs)⟩

theorem begins_signed : Begins (fun y => UReal r y ∨ InfNan y) (cs.take (signed r cs).taken) := by
  have hmag : Begins (fun y => UReal r y ∨ InfNan y) (cs.take (magnitude r cs).taken) :=
    (begins_magnitude r cs).imp fun _ => Or.inl
  rcases signed_eq r cs with ⟨-, heq⟩ | heq | heq
  · rw [heq]; exact hmag
  · rw [heq]; exact (begins_special cs).imp fun _ => Or.inr
  · rw [heq]; exact hmag

theorem begins_real : Begins (Real r) (cs.take (real r cs).taken) := by
  cases cs with
  | nil => exact ⟨['1'], .unsigned (.integer (uInteger_one r))⟩
  | cons c cs =>
    cases hc : isSign c with
    | true =>
      rw [real_signed hc, Part.taken_shift, Nat.add_comm, List.take_succ_cons]
      exact (begins_signed r cs).behind (x := [c]) fun y hy => hy.elim (.signed hc) (.infNan hc)
    | false =>
      rw [real_unsigned ((Text.stops_cons ..).2 hc)]
      exact (begins_magnitude r (c :: cs)).imp fun _ => .unsigned

end

section
variable {r : Radix} {f : ScanError} {cs : List Char}

/-- An error takes one character at most behind the magnitude of an imaginary part. -/
theorem imaginary_taken_le (h : (imaginary r cs).error? = some f) :
    (imaginary r cs).taken - 1 ≤ (signed r cs).taken := by
  unfold imaginary at h ⊢
  simp only at h ⊢
  split at h
  · rename_i hreal
    obtain ⟨-, -, hone⟩ := imaginaryUnit_rejects h
    have hle : Text.oneMore (cs.drop (signed r cs).taken) ≤ 1 := Nat.min_le_left ..
    rw [Reading.taken_shift, hone]
    omega
  · exact Nat.sub_le ..
  · exact Nat.sub_le ..
  · exact Nat.sub_le ..

theorem begins_imaginary (h : (imaginary r cs).error? = some f) :
    Begins (fun v => ∃ y, Factor r y ∧ v = y ++ ['i']) (cs.take ((imaginary r cs).taken - 1)) := by
  obtain ⟨t, ht⟩ := (begins_signed r cs).take (imaginary_taken_le h)
  exact ⟨t ++ ['i'], _, ht.elim .magnitude .infNan, by rw [List.append_assoc]⟩

theorem take_cons_shorten (c : Char) (cs : List Char) (k : Nat) : (c :: cs).take k <+: c :: cs.take (k - 1) := by
  cases k with
  | zero => exact List.nil_prefix
  | succ k => exact List.prefix_refl _

theorem take_append_shorten (x t : List Char) (k : Nat) : (x ++ t).take (x.length + k - 1) <+: x ++ t.take (k - 1) := by
  cases k with
  | zero =>
    refine (List.IsPrefix.trans ?_ (List.prefix_append x _))
    rw [Nat.add_zero, List.take_append_of_le_length (Nat.sub_le ..)]
    exact List.take_prefix _ _
  | succ k =>
    have htake : (x ++ t).take (x.length + (k + 1) - 1) = x ++ t.take k := by
      rw [← Nat.add_assoc, Nat.add_sub_cancel, List.take_length_add_append]
    exact htake ▸ List.prefix_refl _

theorem begins_afterReal {x : List Char} (hx : Real r x) (h : (afterReal r cs).error? = some f) :
    Begins (Complex r) (x ++ cs.take ((afterReal r cs).taken - 1)) := by
  cases cs with
  | nil => cases h
  | cons c cs =>
    by_cases hs : isSign c = true
    · rw [afterReal_sign hs, Reading.error?_shift] at h
      rw [afterReal_sign hs, Reading.taken_shift, Nat.add_sub_cancel_left]
      have hbegins : Begins (Complex r) (x ++ c :: cs.take ((imaginary r cs).taken - 1)) := by
        rw [List.append_cons]
        refine (begins_imaginary h).behind ?_
        rintro v ⟨y, hy, rfl⟩
        rw [← List.append_cons]
        exact .rectangular hx hs hy rfl
      exact hbegins.shorten ((List.prefix_append_right_inj x).2 (take_cons_shorten ..))
    · by_cases hat : c = '@'
      · subst hat
        rw [afterReal_at, Reading.taken_shift, Nat.add_sub_cancel_left, angle_taken]
        have hbegins : Begins (Complex r) (x ++ '@' :: cs.take ((real r cs).taken - 1)) := by
          rw [List.append_cons]
          refine ((begins_real r cs).take (Nat.sub_le ..)).behind fun a ha => ?_
          rw [← List.append_cons]
          exact .polar hx ha
        exact hbegins.shorten ((List.prefix_append_right_inj x).2 (take_cons_shorten ..))
      · simp only [afterReal, if_neg hs, if_neg hat] at h
        split at h <;> cases h

/-- **Nothing goes wrong before the last character** that is taken for an error. -/
theorem begins_complex (h : (complex r cs).error? = some f) :
    Begins (Complex r) (cs.take ((complex r cs).taken - 1)) := by
  have hbegins := (begins_real r cs).imp fun _ => Complex.real
  cases hshape : (real r cs).shape with
  | real =>
    obtain ⟨x, t, rfl, hx, hl⟩ := real_sound hshape
    have hreal : real r (x ++ t) = ⟨.real, x.length⟩ := by rw [← hshape, ← hl]
    have heq := complex_of_real hreal
    rw [List.drop_left] at heq
    rw [heq, Reading.error?_shift] at h
    rw [heq, Reading.taken_shift]
    exact (begins_afterReal hx h).shorten (take_append_shorten ..)
  | unit => simp [complex, hshape, Reading.accept] at h
  | absent =>
    have heq : complex r cs = .reject .invalidNumber (real r cs).taken := by simp [complex, hshape]
    rw [heq]
    exact hbegins.take (Nat.sub_le ..)
  | fault e =>
    have heq : complex r cs = .reject e (real r cs).taken := by simp [complex, hshape]
    rw [heq]
    exact hbegins.take (Nat.sub_le ..)

end

end Number
end SchemeLexer
