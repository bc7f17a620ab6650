/-!
# Caseless — words matched whatever the case of their letters

Letter case means nothing in the words of the grammar.  Only the ASCII letters have a case here: a character outside
ASCII is like itself alone.
-/
namespace SchemeLexer
namespace Caseless

/-- The character with an ASCII capital made small. -/
def fold (c : Char) : Char := c.toLower

/-- How many characters of `word`, from its first, stand at the head of the text.  The match ends where the text
differs or ends. -/
def matched : List Char → List Char → Nat
  | [], _ => 0
  | _ :: _, [] => 0
  | w :: word, c :: cs => if fold w = fold c then matched word cs + 1 else 0

/-- Whether two words differ in the case of their letters at most. -/
def sameWord (v w : List Char) : Bool := v.map fold = w.map fold

theorem toNat_fold (c : Char) :
    (fold c).toNat = if 65 ≤ c.toNat ∧ c.toNat ≤ 90 then c.toNat + 32 else c.toNat := by
  unfold fold Char.toLower
  by_cases h : 65 ≤ c.toNat ∧ c.toNat ≤ 90
  · rw [if_pos h, dif_pos (by simpa [UInt32.le_iff_toNat_le] using h)]
    simp only [Char.toNat, UInt32.toNat_add]
    simp
    omega
  · rw [if_neg h, dif_neg (by simpa [UInt32.le_iff_toNat_le] using h)]

@[simp] theorem fold_fold (c : Char) : fold (fold c) = fold c := by
  rw [← Char.toNat_inj, toNat_fold, toNat_fold]
  by_cases h : 65 ≤ c.toNat ∧ c.toNat ≤ 90
  · rw [if_pos h, if_neg (by omega)]
  · rw [if_neg h, if_neg h]

/-- What is like a small letter: the letter, and its capital. -/
theorem fold_eq_iff {c d : Char} (hd : 97 ≤ d.toNat ∧ d.toNat ≤ 122) :
    fold c = d ↔ c.toNat = d.toNat ∨ c.toNat + 32 = d.toNat := by
  rw [← Char.toNat_inj, toNat_fold]
  split <;> omega

theorem matched_le_left (word cs : List Char) : matched word cs ≤ word.length := by
  induction word generalizing cs with
  | nil => simp [matched]
  | cons w word ih => cases cs with
    | nil => simp [matched]
    | cons c cs =>
      simp only [matched]
      split
      · simpa using ih cs
      · simp

theorem matched_le_right (word cs : List Char) : matched word cs ≤ cs.length := by
  induction word generalizing cs with
  | nil => simp [matched]
  | cons w word ih => cases cs with
    | nil => simp [matched]
    | cons c cs =>
      simp only [matched]
      split
      · simpa using ih cs
      · simp

end Caseless
end SchemeLexer
