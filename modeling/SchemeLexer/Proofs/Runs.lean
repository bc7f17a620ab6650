import SchemeLexer.CharClass
import SchemeLexer.Text.Run
/-!
# Runs — a text cut where a class of characters ends

A text is a run of a class and a rest that does not begin with it (`exists_run`), and a run is as long as the
characters of the class that stand before such a rest (`run_append`).  A delimiter is of no class that a word is made
of, so a rest that begins with one ends them all.
-/
namespace SchemeLexer
namespace Text

/-- The text does not begin with a character of the class. -/
def Stops (p : Char → Bool) (cs : List Char) : Prop := ∀ c ∈ cs.head?, p c = false

@[simp] theorem stops_nil (p : Char → Bool) : Stops p [] := by simp [Stops]

@[simp] theorem stops_cons (p : Char → Bool) (c : Char) (cs : List Char) : Stops p (c :: cs) ↔ p c = false := by
  simp [Stops]

theorem Stops.imp {p q : Char → Bool} (h : ∀ c, q c = true → p c = true) : ∀ {cs : List Char}, Stops p cs → Stops q cs
  | [], _ => stops_nil q
  | c :: cs, hp => by
    rw [stops_cons] at hp ⊢
    cases hq : q c with
    | false => rfl
    | true => rw [h c hq] at hp; cases hp

theorem run_eq_zero {p : Char → Bool} : ∀ {cs : List Char}, Stops p cs → run p cs = 0
  | [], _ => rfl
  | c :: cs, h => by simp [run_cons, (stops_cons p c cs).1 h]

theorem stops_of_run {p : Char → Bool} {cs : List Char} (h : run p cs = 0) : Stops p cs := by
  cases cs with
  | nil => exact stops_nil p
  | cons c cs =>
    rw [run_cons] at h
    split at h
    · cases h
    · rename_i hc
      exact (stops_cons p c cs).2 (Bool.eq_false_iff.2 hc)

theorem run_append_add {p : Char → Bool} :
    ∀ {ds : List Char}, (∀ c ∈ ds, p c = true) → ∀ rest, run p (ds ++ rest) = ds.length + run p rest
  | [], _, rest => by simp
  | c :: ds, h, rest => by
    rw [List.cons_append, run_cons, if_pos (h c List.mem_cons_self),
      run_append_add (fun d hd => h d (List.mem_cons_of_mem _ hd)), List.length_cons]
    omega

theorem run_append {p : Char → Bool} {ds rest : List Char} (h : ∀ c ∈ ds, p c = true) (hr : Stops p rest) :
    run p (ds ++ rest) = ds.length := by
  rw [run_append_add h, run_eq_zero hr, Nat.add_zero]

theorem run_of_all {p : Char → Bool} {ds : List Char} (h : ∀ c ∈ ds, p c = true) : run p ds = ds.length := by
  simpa using run_append h (stops_nil p)

/-- **A text is a run of a class and a rest** that does not begin with the class. -/
theorem exists_run (p : Char → Bool) (cs : List Char) :
    ∃ ds rest, cs = ds ++ rest ∧ (∀ c ∈ ds, p c = true) ∧ Stops p rest ∧ run p cs = ds.length := by
  refine ⟨cs.takeWhile p, cs.dropWhile p, List.takeWhile_append_dropWhile.symm,
    fun c hc => ?_, fun c hc => ?_, rfl⟩
  · exact List.all_eq_true.1 (List.all_takeWhile ..) c hc
  · have := head?_drop_run p cs
    rw [drop_run] at this
    rw [Option.mem_def] at hc
    rw [hc] at this
    simpa using this

end Text

/-! ## Delimiters -/

/-- A text that a delimiter begins, or nothing: what a word may stand before. -/
abbrev Delimited (cs : List Char) : Prop := endsToken cs.head? = true

theorem delimited_nil : Delimited [] := rfl

@[simp] theorem delimited_cons (c : Char) (cs : List Char) : Delimited (c :: cs) ↔ isDelimiter c = true := Iff.rfl

/-- A text in which no delimiter stands. -/
def Undelimited (cs : List Char) : Prop := ∀ c ∈ cs, isDelimiter c = false

instance (cs : List Char) : Decidable (Undelimited cs) := List.decidableBAll (fun c => isDelimiter c = false) cs

theorem Undelimited.eq_nil {cs : List Char} (h : Undelimited cs) (hd : Delimited cs) : cs = [] := by
  cases cs with
  | nil => rfl
  | cons c cs =>
    rw [delimited_cons, h c List.mem_cons_self] at hd
    cases hd

def delimiters : List Char := [' ', '\t', '\n', '|', '(', ')', '"', ';']

theorem isDelimiter_iff (c : Char) : isDelimiter c = true ↔ c ∈ delimiters := by
  simp [delimiters, isDelimiter, isWhitespace, isInlineWhitespace, or_assoc]

theorem not_of_isDelimiter {p : Char → Bool} (h : delimiters.any p = false) {c : Char} (hc : isDelimiter c = true) :
    p c = false := Bool.eq_false_iff.2 (List.any_eq_false.1 h c ((isDelimiter_iff c).1 hc))

theorem Delimited.stops {p : Char → Bool} (h : delimiters.any p = false) :
    ∀ {cs : List Char}, Delimited cs → Text.Stops p cs
  | [], _ => Text.stops_nil p
  | c :: cs, hd => (Text.stops_cons p c cs).2 (not_of_isDelimiter h hd)

theorem Text.run_append_delimited {p : Char → Bool} (h : delimiters.any p = false) {b : List Char} (hb : Delimited b)
    (cs : List Char) : Text.run p (cs ++ b) = Text.run p cs := by
  obtain ⟨ds, rest, rfl, hd, hr, hrun⟩ := Text.exists_run p cs
  have hstop : Text.Stops p (rest ++ b) := by
    cases rest with
    | nil => exact hb.stops h
    | cons c rest => exact (Text.stops_cons p c (rest ++ b)).2 ((Text.stops_cons p c rest).1 hr)
  rw [hrun, List.append_assoc, Text.run_append hd hstop]

end SchemeLexer
