import SchemeLexer.Number.Real
/-!
# Complex — whole numbers of any sort

A number is a real one, or two in polar form with `@` between them, or one in rectangular form: a real part that may be
missing, a signed imaginary part whose magnitude may be missing, and the unit `i`.  `complex` reads one from the head
of a text.  It does not ask what follows the number; whether the text may go on so is for the caller to say.
-/
namespace SchemeLexer
namespace Number

def isImaginaryUnit (c : Char) : Bool := c = 'i' || c = 'I'

/-- The unit that has to follow the magnitude of an imaginary part.  Another character is taken for the error. -/
def imaginaryUnit (cs : List Char) : Reading :=
  if cs.head?.any isImaginaryUnit then .accept 1 else .reject .expectedImaginaryUnit (Text.oneMore cs)

/-- The imaginary part behind its sign. -/
def imaginary (r : Radix) (cs : List Char) : Reading :=
  let p := signed r cs
  match p.shape with
  | .real => (imaginaryUnit (cs.drop p.taken)).shift p.taken
  | .unit => .accept p.taken
  | .absent => .reject .invalidNumber p.taken
  | .fault e => .reject e p.taken

/-- The angle behind the `@` of a polar form. -/
def angle (r : Radix) (cs : List Char) : Reading :=
  let p := real r cs
  match p.shape with
  | .real => .accept p.taken
  | .unit | .absent => .reject .invalidNumber p.taken
  | .fault e => .reject e p.taken

/-- What may follow a real number as a part of the same number. -/
def afterReal (r : Radix) : List Char → Reading
  | [] => .accept 0
  | c :: cs =>
    if isSign c then (imaginary r cs).shift 1
    else if c = '@' then (angle r cs).shift 1
    else if isImaginaryUnit c then .accept 1
    else .accept 0

def complex (r : Radix) (cs : List Char) : Reading :=
  let p := real r cs
  match p.shape with
  | .real => (afterReal r (cs.drop p.taken)).shift p.taken
  | .unit => .accept p.taken
  | .absent => .reject .invalidNumber p.taken
  | .fault e => .reject e p.taken

/-! ## A number is not empty -/

theorem exponent_taken (n : Nat) (cs : List Char) : n ≤ (exponent n cs).taken := by
  unfold exponent
  split
  · exact Nat.le_refl _
  · simp only
    split
    · split <;> simp only <;> omega
    · exact Nat.le_refl _

theorem decimal_real_pos {n : Nat} {cs : List Char} (h : (decimal n cs).shape = .real) : 0 < (decimal n cs).taken := by
  unfold decimal at h ⊢
  simp only at h ⊢
  split at h
  · cases h
  · rename_i hn
    rw [if_neg hn]
    have := exponent_taken (n + fractionLength cs) (cs.drop (fractionLength cs))
    omega

theorem magnitude_real_pos {r : Radix} {cs : List Char} (h : (magnitude r cs).shape = .real) :
    0 < (magnitude r cs).taken := by
  unfold magnitude at h ⊢
  simp only at h ⊢
  split
  · rename_i hd
    simp only [hd] at h
    split at h
    · cases h
    · rename_i hn; rw [if_neg hn]; exact Nat.pos_of_ne_zero hn
  · rename_i c rest hd
    simp only [hd] at h
    split
    · split <;> simp only <;> omega
    · rename_i hs
      rw [if_neg hs] at h
      split
      · rename_i hm
        rw [if_pos hm] at h
        split
        · rename_i hr
          rw [if_pos hr] at h
          exact decimal_real_pos h
        · rename_i hr
          rw [if_neg hr] at h
          cases h
      · rename_i hm
        rw [if_neg hm] at h
        split at h
        · cases h
        · rename_i hn; rw [if_neg hn]; exact Nat.pos_of_ne_zero hn

theorem magnitude_ne_unit (r : Radix) (cs : List Char) : (magnitude r cs).shape ≠ .unit := by
  unfold magnitude decimal exponent
  simp only
  repeat' split
  all_goals simp

theorem real_pos {r : Radix} {cs : List Char} (h : (real r cs).shape = .real ∨ (real r cs).shape = .unit) :
    0 < (real r cs).taken := by
  cases cs with
  | nil => simp [real] at h
  | cons c cs =>
    by_cases hs : isSign c = true
    · simp only [real, hs, if_true, Part.taken_shift]; omega
    · rw [real, if_neg hs] at h ⊢
      exact magnitude_real_pos (h.resolve_right (magnitude_ne_unit r _))

/-- **Whatever follows the rule for numbers has a character.** -/
theorem complex_pos {r : Radix} {cs : List Char} (h : (complex r cs).error? = none) : 0 < (complex r cs).taken := by
  unfold complex at h ⊢
  simp only at h ⊢
  split
  · rename_i hs
    have := real_pos (Or.inl hs)
    simp only [Reading.taken_shift]
    omega
  · rename_i hs
    exact real_pos (Or.inr hs)
  · rename_i hs
    simp [hs, Reading.reject] at h
  · rename_i hs
    simp [hs, Reading.reject] at h

end Number
end SchemeLexer
