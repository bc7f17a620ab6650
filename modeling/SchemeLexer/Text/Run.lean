/-!
# Run — how far a text stays in a class

The rules of the grammar count characters from the head of the text ahead.  `run` counts those that satisfy a
predicate up to the first that does not; `oneMore` counts the one character that a rule takes unseen, if there is one.
-/
namespace SchemeLexer
namespace Text

/-- How many characters at the head of `cs` satisfy `p`, up to the first that does not. -/
def run (p : Char → Bool) (cs : List Char) : Nat := (cs.takeWhile p).length

/-- One character, none at the end of the text. -/
def oneMore (cs : List Char) : Nat := min 1 cs.length

@[simp] theorem run_nil (p : Char → Bool) : run p [] = 0 := rfl

theorem run_cons (p : Char → Bool) (c : Char) (cs : List Char) :
    run p (c :: cs) = if p c then run p cs + 1 else 0 := by
  unfold run
  rw [List.takeWhile_cons]
  split <;> simp

theorem run_le (p : Char → Bool) (cs : List Char) : run p cs ≤ cs.length := by
  induction cs with
  | nil => simp
  | cons c cs ih =>
    rw [run_cons]
    split
    · simpa using ih
    · simp

theorem drop_run (p : Char → Bool) (cs : List Char) : cs.drop (run p cs) = cs.dropWhile p := by
  induction cs with
  | nil => simp
  | cons c cs ih =>
    rw [run_cons, List.dropWhile_cons]
    split
    · simp [ih]
    · simp

/-- A run ends where the text does, or before a character that is not of the class. -/
theorem head?_drop_run (p : Char → Bool) (cs : List Char) : (cs.drop (run p cs)).head?.all (!p ·) := by
  rw [drop_run]
  induction cs with
  | nil => rfl
  | cons c cs ih =>
    rw [List.dropWhile_cons]
    split
    · exact ih
    · simp_all

theorem oneMore_le (cs : List Char) : oneMore cs ≤ cs.length := Nat.min_le_right ..

@[simp] theorem oneMore_nil : oneMore [] = 0 := rfl

@[simp] theorem oneMore_cons (c : Char) (cs : List Char) : oneMore (c :: cs) = 1 := by simp [oneMore]

end Text
end SchemeLexer
