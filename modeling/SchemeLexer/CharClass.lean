/-!
# CharClass — the character classes of the lexical grammar

The classes hold ASCII characters only, as the grammar names them: `λ` is no letter and no carriage return is
whitespace.  `endsToken` is the one class the grammar also asks about at the end of the input.

`CharClass` lists the classes as data; `CharClass.holds` is the class of a name, and `CharClass.of` all classes of a
character.
-/
namespace SchemeLexer

def isInlineWhitespace (c : Char) : Bool := c = ' ' || c = '\t'

def isWhitespace (c : Char) : Bool := isInlineWhitespace c || c = '\n'

/-- What ends a token that would otherwise go on: whitespace, a bar, a parenthesis, a double quote, a semicolon. -/
def isDelimiter (c : Char) : Bool :=
  isWhitespace c || c = '|' || c = '(' || c = ')' || c = '"' || c = ';'

/-- The end of the input ends a token too. -/
def endsToken (c? : Option Char) : Bool := c?.all isDelimiter

def isLetter (c : Char) : Bool := c.isAlpha

def isDigit (c : Char) : Bool := c.isDigit

def isHexDigit (c : Char) : Bool := isDigit c || ('a' ≤ c && c ≤ 'f') || ('A' ≤ c && c ≤ 'F')

def isOctalDigit (c : Char) : Bool := '0' ≤ c && c ≤ '7'

def isBinaryDigit (c : Char) : Bool := c = '0' || c = '1'

def isSign (c : Char) : Bool := c = '+' || c = '-'

def isSpecialInitial (c : Char) : Bool :=
  ['!', '$', '%', '&', '*', '/', ':', '<', '=', '>', '?', '^', '_', '~'].contains c

def isInitial (c : Char) : Bool := isLetter c || isSpecialInitial c

def isSpecialSubsequent (c : Char) : Bool := isSign c || c = '.' || c = '@'

def isSubsequent (c : Char) : Bool := isInitial c || isDigit c || isSpecialSubsequent c

/-- What makes an identifier of a leading sign. -/
def isSignSubsequent (c : Char) : Bool := isInitial c || isSign c || c = '@'

/-- What makes an identifier of a leading dot, or of a sign and a dot. -/
def isDotSubsequent (c : Char) : Bool := isSignSubsequent c || c = '.'

inductive CharClass
  | delimiter
  | whitespace
  | inlineWhitespace
  | letter
  | specialInitial
  | initial
  | specialSubsequent
  | subsequent
  | signSubsequent
  | dotSubsequent
  | digit
  | hexDigit
  | octalDigit
  | binaryDigit
  deriving Repr, DecidableEq

namespace CharClass

def holds : CharClass → Char → Bool
  | delimiter => isDelimiter
  | whitespace => isWhitespace
  | inlineWhitespace => isInlineWhitespace
  | letter => isLetter
  | specialInitial => isSpecialInitial
  | initial => isInitial
  | specialSubsequent => isSpecialSubsequent
  | subsequent => isSubsequent
  | signSubsequent => isSignSubsequent
  | dotSubsequent => isDotSubsequent
  | digit => isDigit
  | hexDigit => isHexDigit
  | octalDigit => isOctalDigit
  | binaryDigit => isBinaryDigit

/-- Whether the end of the input counts as a member. -/
def holdsAtEnd : CharClass → Bool
  | delimiter => true
  | _ => false

/-- Every class once, in the order in which `CharClass.of` lists them. -/
def all : List CharClass :=
  [delimiter, whitespace, inlineWhitespace, letter, specialInitial, initial, specialSubsequent, subsequent,
    signSubsequent, dotSubsequent, digit, hexDigit, octalDigit, binaryDigit]

/-- The classes of a character, or of the end of the input. -/
def of : Option Char → List CharClass
  | some c => all.filter (·.holds c)
  | none => all.filter holdsAtEnd

theorem mem_all (k : CharClass) : k ∈ all := by cases k <;> decide

/-- **The list of classes is complete**: a class is listed exactly when the character is in it. -/
theorem mem_of_some (k : CharClass) (c : Char) : k ∈ of (some c) ↔ k.holds c = true := by
  simp [of, mem_all]

end CharClass

/-! ## How the classes lie -/

theorem isDelimiter_of_isWhitespace {c : Char} (h : isWhitespace c = true) : isDelimiter c = true := by
  simp [isDelimiter, h]

theorem isSubsequent_of_isInitial {c : Char} (h : isInitial c = true) : isSubsequent c = true := by
  simp [isSubsequent, h]

theorem isSubsequent_of_isDotSubsequent {c : Char} (h : isDotSubsequent c = true) : isSubsequent c = true := by
  simp only [isDotSubsequent, isSignSubsequent, Bool.or_eq_true, decide_eq_true_eq] at h
  simp only [isSubsequent, isSpecialSubsequent, Bool.or_eq_true, decide_eq_true_eq]
  grind

theorem isSubsequent_of_isSign {c : Char} (h : isSign c = true) : isSubsequent c = true := by
  simp [isSubsequent, isSpecialSubsequent, h]

/-! ## The classes in ASCII -/

theorem isLetter_iff (c : Char) :
    isLetter c = true ↔ (65 ≤ c.toNat ∧ c.toNat ≤ 90) ∨ (97 ≤ c.toNat ∧ c.toNat ≤ 122) := by
  have hcases : isLetter c = (decide (65 ≤ c.val ∧ c.val ≤ 90) || (decide (97 ≤ c.val) && decide (c.val ≤ 122))) := rfl
  simp only [hcases, Bool.or_eq_true, Bool.and_eq_true, decide_eq_true_eq, UInt32.le_iff_toNat_le]
  exact Iff.rfl

theorem isDigit_iff (c : Char) : isDigit c = true ↔ 48 ≤ c.toNat ∧ c.toNat ≤ 57 := by
  simp only [isDigit, Char.isDigit, Bool.and_eq_true, decide_eq_true_eq, ge_iff_le, UInt32.le_iff_toNat_le]
  exact Iff.rfl

theorem isHexDigit_iff (c : Char) : isHexDigit c = true ↔
    (48 ≤ c.toNat ∧ c.toNat ≤ 57) ∨ (97 ≤ c.toNat ∧ c.toNat ≤ 102) ∨ (65 ≤ c.toNat ∧ c.toNat ≤ 70) := by
  simp only [isHexDigit, Bool.or_eq_true, Bool.and_eq_true, decide_eq_true_eq, isDigit_iff, Char.le_def,
    UInt32.le_iff_toNat_le, or_assoc]
  exact Iff.rfl

theorem isSubsequent_of_isHexDigit {c : Char} (h : isHexDigit c = true) : isSubsequent c = true := by
  simp only [isSubsequent, isInitial, Bool.or_eq_true, isLetter_iff, isDigit_iff]
  rw [isHexDigit_iff] at h
  omega

theorem toNat_lt_of_isSubsequent {c : Char} (h : isSubsequent c = true) : c.toNat < 0x80 := by
  simp only [isSubsequent, isInitial, isSpecialInitial, isSpecialSubsequent, isSign, Bool.or_eq_true, isLetter_iff,
    isDigit_iff, List.contains_iff_mem, List.mem_cons, List.not_mem_nil, or_false, decide_eq_true_eq,
    ← Char.toNat_inj] at h
  simp at h
  omega

end SchemeLexer
