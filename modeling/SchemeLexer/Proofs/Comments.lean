import SchemeLexer.Proofs.Checked.Lexeme
import SchemeLexer.Proofs.Scans
/-!
# Comments — block comments read two characters at a time

What a block comment is may be said without the half of a pair that is kept in mind: look at the next two characters,
take both if they open or close a comment, and take one if they do not.  `closingByPairs?` does that.  Reading one
character at a time keeps step with it (`Nesting.closing?_pairs`), where the half that is kept stands in front of the
text that is still to be read.  So comments nest: one that is complete is passed over inside another (`Complete.inside`).
-/
namespace SchemeLexer
namespace Lexeme

/-- How many characters it takes until every comment is closed, looking at two characters at a time. -/
def closingByPairs? : Nat → List Char → Option Nat
  | 0, _ => some 0
  | _ + 1, [] => none
  | d + 1, '#' :: '|' :: cs => (closingByPairs? (d + 2) cs).map (· + 2)
  | d + 1, '|' :: '#' :: cs => (closingByPairs? d cs).map (· + 2)
  | d + 1, _ :: cs => (closingByPairs? (d + 1) cs).map (· + 1)

/-- A block comment behind its `#|`, looking at two characters at a time. -/
def blockCommentByPairs (cs : List Char) : Lexeme :=
  match closingByPairs? 1 cs with
  | some n => .skip (n + 2)
  | none => .invalid .unexpectedEof (cs.length + 2)

variable {d : Nat} {c : Char} {cs : List Char}

@[simp] theorem closingByPairs?_zero (cs : List Char) : closingByPairs? 0 cs = some 0 := by rw [closingByPairs?]

@[simp] theorem closingByPairs?_nil (d : Nat) : closingByPairs? (d + 1) [] = none := by rw [closingByPairs?]

theorem closingByPairs?_opening (d : Nat) (cs : List Char) :
    closingByPairs? (d + 1) ('#' :: '|' :: cs) = (closingByPairs? (d + 2) cs).map (· + 2) := by rw [closingByPairs?]

theorem closingByPairs?_closing (d : Nat) (cs : List Char) :
    closingByPairs? (d + 1) ('|' :: '#' :: cs) = (closingByPairs? d cs).map (· + 2) := by rw [closingByPairs?]

theorem closingByPairs?_other (h : ¬ IsPair c cs) :
    closingByPairs? (d + 1) (c :: cs) = (closingByPairs? (d + 1) cs).map (· + 1) := by
  rw [closingByPairs?]
  · rintro t rfl rfl
    exact h (Or.inl ⟨rfl, rfl⟩)
  · rintro t rfl rfl
    exact h (Or.inr ⟨rfl, rfl⟩)

/-! ## In step with the reading one character at a time -/

theorem not_isPair_of_ne (hc : c ≠ '#') (hc' : c ≠ '|') : ¬ IsPair c cs := by simp [IsPair, hc, hc']

/-- A half that the next character does not complete is a character like another. -/
theorem closingByPairs?_pending {half : Half} (hbar : ¬ (half = .bar ∧ c = '#')) (hhash : ¬ (half = .hash ∧ c = '|')) :
    closingByPairs? (d + 1) (half.pending ++ c :: cs) =
      (closingByPairs? (d + 1) (c :: cs)).map (· + half.pending.length) := by
  cases half with
  | neither => simp [Half.pending]
  | hash => exact closingByPairs?_other (by simpa [IsPair] using hhash)
  | bar => exact closingByPairs?_other (by simpa [IsPair] using hbar)

/-- **One character more** leaves the same to be closed, the half that is kept put in front of what is left. -/
theorem Nesting.step_pairs (d : Nat) (half : Half) (c : Char) (cs : List Char) :
    ∃ k, k + (step ⟨d + 1, half⟩ c).half.pending.length = half.pending.length + 1 ∧
      closingByPairs? (d + 1) (half.pending ++ c :: cs) =
        (closingByPairs? (step ⟨d + 1, half⟩ c).depth ((step ⟨d + 1, half⟩ c).half.pending ++ cs)).map (· + k) := by
  unfold step
  by_cases hc : c = '#'
  · subst hc
    rw [if_pos rfl]
    by_cases hbar : half = .bar
    · subst hbar
      exact ⟨2, rfl, closingByPairs?_closing d cs⟩
    · rw [if_neg hbar]
      exact ⟨half.pending.length, rfl, closingByPairs?_pending (fun h => hbar h.1) (fun h => by cases h.2)⟩
  · rw [if_neg hc]
    by_cases hc' : c = '|'
    · subst hc'
      rw [if_pos rfl]
      by_cases hhash : half = .hash
      · subst hhash
        exact ⟨2, rfl, closingByPairs?_opening d cs⟩
      · rw [if_neg hhash]
        exact ⟨half.pending.length, rfl, closingByPairs?_pending (fun h => by cases h.2) (fun h => hhash h.1)⟩
    · rw [if_neg hc']
      refine ⟨half.pending.length + 1, rfl, ?_⟩
      rw [closingByPairs?_pending (fun h => hc h.2) (fun h => hc' h.2), closingByPairs?_other (not_isPair_of_ne hc hc'),
        Option.map_map]
      congr 1
      funext n
      exact Nat.add_right_comm n 1 _

/-- Where every comment is closed no half is kept. -/
theorem Nesting.half_of_step {s : Nesting} (hs : s.depth ≠ 0) (c : Char) (h : (s.step c).depth = 0) :
    (s.step c).half = .neither := by
  revert h
  unfold step
  repeat' split
  all_goals intro h
  all_goals first
    | rfl
    | exact absurd h hs

/-- **Comments are closed where reading two characters at a time closes them.** -/
theorem Nesting.closing?_pairs {s : Nesting} (hs : s.depth = 0 → s.half = .neither) (cs : List Char) :
    (s.closing? cs).map (· + s.half.pending.length) = closingByPairs? s.depth (s.half.pending ++ cs) := by
  induction cs generalizing s with
  | nil =>
    obtain ⟨depth, half⟩ := s
    cases depth with
    | zero => rw [hs rfl, closing?_zero, closingByPairs?_zero]; rfl
    | succ d => cases half <;> rfl
  | cons c cs ih =>
    obtain ⟨depth, half⟩ := s
    cases depth with
    | zero => rw [hs rfl, closing?_zero, closingByPairs?_zero]; rfl
    | succ d =>
      obtain ⟨k, hk, hpairs⟩ := step_pairs d half c cs
      rw [hpairs, ← ih (half_of_step (Nat.succ_ne_zero d) c), closing?_succ, Option.map_map, Option.map_map]
      congr 1
      funext n
      simp only [Function.comp_apply]
      omega

theorem blockComment_eq (cs : List Char) : blockComment cs = blockCommentByPairs cs := by
  have h := Nesting.closing?_pairs (s := .opened) (fun h => by cases h) cs
  rw [blockComment, blockCommentByPairs]
  simp only [Nesting.opened, Half.pending, List.length_nil, Nat.add_zero, Option.map_id', List.nil_append] at h
  rw [← h]
  rfl

/-! ## Comments inside comments -/

/-- A block comment that is closed where it ends, and not before. -/
def Complete (u : List Char) : Prop := ∃ body, u = '#' :: '|' :: body ∧ closingByPairs? 1 body = some body.length

/-- Complete comments, and characters that have no part in a pair. -/
inductive Interior : List Char → Prop
  | nil : Interior []
  | char {c : Char} {cs : List Char} : c ≠ '#' → c ≠ '|' → Interior cs → Interior (c :: cs)
  | comment {u cs : List Char} : Complete u → Interior cs → Interior (u ++ cs)

/-- A text that closes `e` comments closes as many of those that are open, and leaves the others. -/
theorem closingByPairs?_append {e : Nat} {cs : List Char} (h : closingByPairs? e cs = some cs.length) (d : Nat)
    (rest : List Char) : closingByPairs? (d + e) (cs ++ rest) = (closingByPairs? d rest).map (· + cs.length) := by
  fun_induction closingByPairs? e cs with
  | case1 cs =>
    obtain rfl : cs = [] := List.length_eq_zero_iff.1 (Option.some.inj h).symm
    simp
  | case2 => cases h
  | case3 e cs ih =>
    have hcs : closingByPairs? (e + 2) cs = some cs.length := by simpa using h
    have hopen := closingByPairs?_opening (d + e) (cs ++ rest)
    rw [Nat.add_assoc d e 2, ih hcs, Option.map_map] at hopen
    exact hopen
  | case4 e cs ih =>
    have hcs : closingByPairs? e cs = some cs.length := by simpa using h
    have hclose := closingByPairs?_closing (d + e) (cs ++ rest)
    rw [ih hcs, Option.map_map] at hclose
    exact hclose
  | case5 e c cs hopen hclose ih =>
    have hcs : closingByPairs? (e + 1) cs = some cs.length := by simpa using h
    -- something is left to close what is open, so that no pair comes about at the seam
    have hpair : ¬ IsPair c (cs ++ rest) := by
      cases cs with
      | nil => cases hcs
      | cons f cs =>
        rintro (⟨rfl, hf⟩ | ⟨rfl, hf⟩)
        · exact hopen cs rfl (by rw [Option.some.inj hf])
        · exact hclose cs rfl (by rw [Option.some.inj hf])
    have hother := @closingByPairs?_other (d + e) c (cs ++ rest) hpair
    rw [Nat.add_assoc d e 1, ih hcs, Option.map_map] at hother
    exact hother

/-- **A complete comment is passed over inside others**, however many are open. -/
theorem Complete.inside {u : List Char} (h : Complete u) (d : Nat) (rest : List Char) :
    closingByPairs? (d + 1) (u ++ rest) = (closingByPairs? (d + 1) rest).map (· + u.length) := by
  obtain ⟨body, rfl, hbody⟩ := h
  rw [List.cons_append, List.cons_append, closingByPairs?_opening, closingByPairs?_append hbody (d + 1), Option.map_map]
  rfl

theorem Interior.inside {b : List Char} (h : Interior b) (d : Nat) (rest : List Char) :
    closingByPairs? (d + 1) (b ++ rest) = (closingByPairs? (d + 1) rest).map (· + b.length) := by
  induction h with
  | nil => simp
  | char hc hc' _ ih =>
    rw [List.cons_append, closingByPairs?_other (not_isPair_of_ne hc hc'), ih, Option.map_map]
    rfl
  | comment hu _ ih =>
    rw [List.append_assoc, hu.inside, ih, Option.map_map, List.length_append]
    congr 1
    funext n
    simp only [Function.comp_apply]
    omega

/-- **Comments nest.** -/
theorem Interior.complete {b : List Char} (h : Interior b) : Complete ('#' :: '|' :: (b ++ ['|', '#'])) := by
  refine ⟨_, rfl, ?_⟩
  rw [h.inside 0, closingByPairs?_closing, List.length_append]
  simp [Nat.add_comm]

theorem Complete.first {u : List Char} (h : Complete u) (rest : List Char) : first (u ++ rest) = .skip u.length := by
  obtain ⟨body, rfl, hbody⟩ := h
  have hclosed : closingByPairs? 1 (body ++ rest) = some body.length := by
    have happend := closingByPairs?_append hbody 0 rest
    simpa using happend
  have hfirst : Lexeme.first ('#' :: '|' :: (body ++ rest)) = blockComment (body ++ rest) := rfl
  rw [List.cons_append, List.cons_append, hfirst, blockComment_eq, blockCommentByPairs, hclosed]
  rfl

end Lexeme

open Lexeme (closingByPairs? blockCommentByPairs Complete Interior)

theorem Scanner.pull_block {s : Scanner} {cs : List Char} (hphase : s.phase = .ready)
    (hahead : s.ahead = '#' :: '|' :: cs) :
    match closingByPairs? 1 cs with
    | some n => s.pull = (s.read (n + 2)).ignore.pull
    | none => s.pull = s.fail .unexpectedEof s.ahead.length := by
  have hscan : s.pull = s.scan := by simp only [pull, hphase]
  have hfirst : Lexeme.first s.ahead = blockCommentByPairs cs := by
    rw [hahead, ← Lexeme.blockComment_eq]
    rfl
  rw [blockCommentByPairs] at hfirst
  cases hclose : closingByPairs? 1 cs with
  | some n =>
    rw [hclose] at hfirst
    have hnext : (s.read (n + 2)).ignore.pull = (s.read (n + 2)).ignore.scan := by
      simp only [pull, ignore, read, hphase]
    show s.pull = _
    rw [hscan, hnext, scan_of_skip hfirst]
  | none =>
    rw [hclose] at hfirst
    show s.pull = _
    rw [hscan, scan_of_invalid hfirst, hahead]
    rfl

/-- **A block comment is what looking at two characters at a time makes of it**: it is skipped where that closes it, and
reaches to the end of the source, an error, where that closes it nowhere.  So what stands in it may be comments again,
as deep as one likes. -/
theorem comments_by_pairs :
    (∀ p cs c, At p 2 cs c →
      Checked.Makes (Checked.nestedComment .opened 0 c) p (blockCommentByPairs cs)) ∧
    (∀ (s : Scanner) cs, s.phase = .ready → s.ahead = '#' :: '|' :: cs →
      match closingByPairs? 1 cs with
      | some n => s.pull = (s.read (n + 2)).ignore.pull
      | none => s.pull = s.fail .unexpectedEof s.ahead.length) ∧
    ∀ b, Interior b →
      let u := '#' :: '|' :: (b ++ ['|', '#'])
      Complete u ∧ (∀ rest, Lexeme.first (u ++ rest) = .skip u.length) ∧
        ∀ d rest, closingByPairs? (d + 1) (u ++ rest) = (closingByPairs? (d + 1) rest).map (· + u.length) := by
  refine ⟨fun p cs c h => ?_, fun s cs hphase hahead => Scanner.pull_block hphase hahead, fun b hb => ?_⟩
  · rw [← Lexeme.blockComment_eq]
    exact Checked.makes_blockComment h
  · exact ⟨hb.complete, hb.complete.first, hb.complete.inside⟩

end SchemeLexer
