import SchemeLexer.Error
/-!
# Reading — what a rule makes of the text ahead

A rule of the grammar looks at the characters ahead and answers how many of them it takes, and, when they break the
rule, the error.  The characters taken include the one that the error is about, if the rule has read it.
-/
namespace SchemeLexer

structure Reading where
  taken  : Nat
  error? : Option ScanError
  deriving Repr, DecidableEq

namespace Reading

/-- `n` characters that follow the rule. -/
def accept (n : Nat) : Reading := ⟨n, none⟩

/-- `n` characters of which the last ones break the rule. -/
def reject (e : ScanError) (n : Nat) : Reading := ⟨n, some e⟩

/-- The reading of a text that stands behind `n` characters read before. -/
def shift (n : Nat) (r : Reading) : Reading := { r with taken := n + r.taken }

/-- Whether the text follows the rule. -/
def isOk (r : Reading) : Bool := r.error?.isNone

@[simp] theorem taken_shift (n : Nat) (r : Reading) : (r.shift n).taken = n + r.taken := rfl

@[simp] theorem error?_shift (n : Nat) (r : Reading) : (r.shift n).error? = r.error? := rfl

theorem shift_accept (m n : Nat) : (accept n).shift m = accept (m + n) := rfl

theorem shift_shift (m n : Nat) (r : Reading) : (r.shift n).shift m = r.shift (m + n) := by
  simp only [shift, Nat.add_assoc]

theorem shift_eq_accept {m n : Nat} {r : Reading} : r.shift m = accept (m + n) ↔ r = accept n := by
  obtain ⟨taken, e?⟩ := r
  simp [shift, accept]

end Reading
end SchemeLexer
