import SchemeLexer.Proofs.Leads
import SchemeLexer.Proofs.Runs
/-!
# Blank — what may stand between tokens

A blank text is made of pieces: a character of whitespace, a line comment with the newline that ends it, a block comment
with all comments inside it closed.  A rule skips such a piece wherever it stands (`first_atmosphere`), and skips
nothing else (`skips_first`), but for a line comment that the text ends in.
-/
namespace SchemeLexer
namespace Lexeme

open Text (run)

/-- Two characters that open a block comment or close one. -/
def IsPair (c : Char) (cs : List Char) : Prop := (c = '#' ∧ cs.head? = some '|') ∨ (c = '|' ∧ cs.head? = some '#')

/-- The rest of a block comment that has so many comments open, read from left to right. -/
inductive Closes : Nat → List Char → Prop
  | done : Closes 0 []
  | opening {d : Nat} {cs : List Char} : Closes (d + 2) cs → Closes (d + 1) ('#' :: '|' :: cs)
  | closing {d : Nat} {cs : List Char} : Closes d cs → Closes (d + 1) ('|' :: '#' :: cs)
  | other {d : Nat} {c : Char} {cs : List Char} : ¬ IsPair c cs → Closes (d + 1) cs → Closes (d + 1) (c :: cs)

/-- A piece of text that stands for nothing. -/
inductive Atmosphere : List Char → Prop
  | space {c : Char} : isWhitespace c = true → Atmosphere [c]
  | line {v : List Char} : '\n' ∉ v → Atmosphere (';' :: (v ++ ['\n']))
  | block {body : List Char} : Closes 1 body → Atmosphere ('#' :: '|' :: body)

/-- Whitespace and comments, every comment complete. -/
inductive Blank : List Char → Prop
  | nil : Blank []
  | cons {u cs : List Char} : Atmosphere u → Blank cs → Blank (u ++ cs)

/-- The same, but the last comment is a line comment that the text ends in. -/
def OpenEnded (cs : List Char) : Prop := ∃ u v, cs = u ++ ';' :: v ∧ Blank u ∧ '\n' ∉ v

theorem Blank.append {u v : List Char} (hu : Blank u) (hv : Blank v) : Blank (u ++ v) := by
  induction hu with
  | nil => exact hv
  | cons ha _ ih => rw [List.append_assoc]; exact .cons ha ih

theorem Atmosphere.blank {u : List Char} (h : Atmosphere u) : Blank u := List.append_nil u ▸ .cons h .nil

theorem Blank.openEnded {u v : List Char} (hu : Blank u) (hv : '\n' ∉ v) : OpenEnded (u ++ ';' :: v) :=
  ⟨u, v, rfl, hu, hv⟩

theorem Atmosphere.head_ascii {u : List Char} (h : Atmosphere u) : ∃ c v, u = c :: v ∧ c.toNat < 0x80 := by
  cases h with
  | @space c hc =>
    refine ⟨c, [], rfl, ?_⟩
    simp only [isWhitespace, isInlineWhitespace, Bool.or_eq_true, decide_eq_true_eq] at hc
    rcases hc with (rfl | rfl) | rfl <;> decide
  | line => exact ⟨_, _, rfl, by decide⟩
  | block => exact ⟨_, _, rfl, by decide⟩

theorem Blank.head_ascii {c : Char} {cs u : List Char} (h : Blank u) (hu : u = c :: cs) : c.toNat < 0x80 := by
  cases h with
  | nil => cases hu
  | cons ha _ =>
    obtain ⟨d, v, rfl, hd⟩ := ha.head_ascii
    rw [List.cons_append, List.cons.injEq] at hu
    exact hu.1 ▸ hd

/-! ## Block comments -/

/-- The half of a pair that waits for the other one. -/
def Half.pending : Half → List Char
  | .neither => []
  | .hash => ['#']
  | .bar => ['|']

theorem Closes.pending {d : Nat} {c : Char} {cs : List Char} {half : Half} (hhalf : ¬ (half = .bar ∧ c = '#'))
    (hhalf' : ¬ (half = .hash ∧ c = '|')) (h : Closes (d + 1) (c :: cs)) : Closes (d + 1) (half.pending ++ c :: cs) := by
  cases half with
  | neither => exact h
  | hash => exact .other (by simpa [IsPair] using hhalf') h
  | bar => exact .other (by simpa [IsPair] using hhalf) h

theorem Nesting.closing?_zero (half : Half) : ∀ cs : List Char, closing? ⟨0, half⟩ cs = some 0
  | [] => rfl
  | _ :: _ => rfl

theorem Nesting.closing?_succ (d : Nat) (half : Half) (c : Char) (cs : List Char) :
    closing? ⟨d + 1, half⟩ (c :: cs) = ((Nesting.step ⟨d + 1, half⟩ c).closing? cs).map (· + 1) := rfl

/-- What closes the comments that are open is the rest of a block comment, the half read last put in front of it. -/
theorem Nesting.closes_of_closing? : ∀ {d : Nat} {half : Half} {cs : List Char} {n : Nat},
    (d = 0 → half = .neither) → closing? ⟨d, half⟩ cs = some n →
      ∃ body rest, cs = body ++ rest ∧ body.length = n ∧ Closes d (half.pending ++ body)
  | 0, half, cs, n, hz, h => by
    rw [closing?_zero, Option.some.injEq] at h
    rw [hz rfl]
    exact ⟨[], cs, rfl, h, .done⟩
  | _ + 1, _, [], _, _, h => by cases h
  | d + 1, half, c :: cs, n, _, h => by
    rw [closing?_succ, Option.map_eq_some_iff] at h
    obtain ⟨n, h, rfl⟩ := h
    unfold step at h
    by_cases hc : c = '#'
    · subst hc
      rw [if_pos rfl] at h
      by_cases hbar : half = .bar
      · subst hbar
        obtain ⟨body, rest, rfl, rfl, hb⟩ := closes_of_closing? (fun _ => rfl) h
        exact ⟨'#' :: body, rest, rfl, rfl, .closing hb⟩
      · rw [if_neg hbar] at h
        obtain ⟨body, rest, rfl, rfl, hb⟩ := closes_of_closing? (fun h => by cases h) h
        exact ⟨'#' :: body, rest, rfl, rfl, hb.pending (fun h => hbar h.1) (fun h => by cases h.2)⟩
    · rw [if_neg hc] at h
      by_cases hc' : c = '|'
      · subst hc'
        rw [if_pos rfl] at h
        by_cases hhash : half = .hash
        · subst hhash
          obtain ⟨body, rest, rfl, rfl, hb⟩ := closes_of_closing? (fun _ => rfl) h
          exact ⟨'|' :: body, rest, rfl, rfl, .opening hb⟩
        · rw [if_neg hhash] at h
          obtain ⟨body, rest, rfl, rfl, hb⟩ := closes_of_closing? (fun h => by cases h) h
          exact ⟨'|' :: body, rest, rfl, rfl, hb.pending (fun h => by cases h.2) (fun h => hhash h.1)⟩
      · rw [if_neg hc'] at h
        obtain ⟨body, rest, rfl, rfl, hb⟩ := closes_of_closing? (fun h => by cases h) h
        have hb : Closes (d + 1) (c :: body) := .other (by simp [IsPair, hc, hc']) hb
        exact ⟨c :: body, rest, rfl, rfl, hb.pending (fun h => hc h.2) (fun h => hc' h.2)⟩

theorem Nesting.closing?_step {d : Nat} {c : Char} {cs : List Char} (hpair : ¬ IsPair c cs) (hne : cs ≠ []) :
    (Nesting.step ⟨d + 1, .neither⟩ c).closing? cs = closing? ⟨d + 1, .neither⟩ cs := by
  cases cs with
  | nil => exact absurd rfl hne
  | cons e cs =>
    simp only [IsPair, List.head?_cons, Option.some.injEq] at hpair
    unfold step
    by_cases hc : c = '#'
    · have he : e ≠ '|' := fun he => hpair (Or.inl ⟨hc, he⟩)
      simp [hc, closing?_succ, step, he]
    · by_cases hc' : c = '|'
      · have he : e ≠ '#' := fun he => hpair (Or.inr ⟨hc', he⟩)
        simp [hc', closing?_succ, step, he]
      · simp [hc, hc']

theorem Closes.ne_nil {d : Nat} {cs : List Char} (h : Closes (d + 1) cs) : cs ≠ [] := by
  cases h <;> simp

/-- **The rest of a block comment is read to its end**, whatever stands behind it. -/
theorem Closes.closing? {d : Nat} {cs : List Char} (h : Closes d cs) (rest : List Char) :
    Nesting.closing? ⟨d, .neither⟩ (cs ++ rest) = some cs.length := by
  induction h with
  | done => exact Nesting.closing?_zero _ rest
  | opening _ ih => simp [Nesting.closing?_succ, Nesting.step, ih]
  | closing _ ih =>
    simp only [List.cons_append, Nesting.closing?_succ, Nesting.step]
    simp [Nesting.closing?_succ, Nesting.step, ih]
  | @other _ c cs hpair hcs ih =>
    have hpair' : ¬ IsPair c (cs ++ rest) := by
      cases cs with
      | nil => exact absurd rfl hcs.ne_nil
      | cons e cs => exact hpair
    have hne : cs ++ rest ≠ [] := fun h => hcs.ne_nil (List.append_eq_nil_iff.1 h).1
    rw [List.cons_append, Nesting.closing?_succ, Nesting.closing?_step hpair' hne, ih]
    rfl

/-! ## What the rules skip -/

theorem ne_newline {v : List Char} (hv : '\n' ∉ v) : ∀ c ∈ v, (decide (c ≠ '\n')) = true :=
  fun _ hc => decide_eq_true fun heq => hv (heq ▸ hc)

theorem lineComment_line {v : List Char} (hv : '\n' ∉ v) (cs : List Char) :
    lineComment (v ++ '\n' :: cs) = v.length + 1 := by
  have hrun : run (· ≠ '\n') (v ++ '\n' :: cs) = v.length :=
    Text.run_append (ne_newline hv) ((Text.stops_cons ..).2 (by decide))
  simp only [lineComment, hrun, List.drop_left, Text.oneMore_cons]

theorem lineComment_open {v : List Char} (hv : '\n' ∉ v) : lineComment v = v.length := by
  have hrun : run (· ≠ '\n') v = v.length := Text.run_of_all (ne_newline hv)
  simp only [lineComment, hrun, List.drop_length, Text.oneMore_nil, Nat.add_zero]

/-- **A piece is skipped** whatever stands behind it. -/
theorem first_atmosphere {u : List Char} (h : Atmosphere u) (rest : List Char) : first (u ++ rest) = .skip u.length := by
  cases h with
  | space hc =>
    simp only [isWhitespace, isInlineWhitespace, Bool.or_eq_true, decide_eq_true_eq] at hc
    rcases hc with (rfl | rfl) | rfl <;> rfl
  | @line v hv =>
    have : first (';' :: (v ++ '\n' :: rest)) = .skip (lineComment (v ++ '\n' :: rest) + 1) := rfl
    rw [List.cons_append, List.append_assoc, List.singleton_append, this, lineComment_line hv]
    simp
  | @block body hbody =>
    have : first ('#' :: '|' :: (body ++ rest)) = blockComment (body ++ rest) := rfl
    rw [List.cons_append, List.cons_append, this, blockComment, Nesting.opened, hbody.closing? rest]
    rfl

theorem first_open {v : List Char} (hv : '\n' ∉ v) : first (';' :: v) = .skip (v.length + 1) := by
  have : first (';' :: v) = .skip (lineComment v + 1) := rfl
  rw [this, lineComment_open hv]

/-- What is skipped of a text is a piece, or a line comment that the text ends in. -/
def Skips (cs : List Char) (n : Nat) : Prop :=
  (∃ u rest, cs = u ++ rest ∧ u.length = n ∧ Atmosphere u) ∨ ∃ v, cs = ';' :: v ∧ v.length + 1 = n ∧ '\n' ∉ v

theorem skips_line (cs : List Char) : Skips (';' :: cs) (lineComment cs + 1) := by
  obtain ⟨v, rest, rfl, hv, hstop, -⟩ := Text.exists_run (· ≠ '\n') cs
  have hv : '\n' ∉ v := fun hmem => by simpa using hv _ hmem
  cases rest with
  | nil => exact Or.inr ⟨v, by rw [List.append_nil], by rw [List.append_nil, lineComment_open hv], hv⟩
  | cons c rest =>
    obtain rfl : c = '\n' := by simpa using (Text.stops_cons ..).1 hstop
    exact Or.inl ⟨_, rest, by simp, by rw [lineComment_line hv]; simp, .line hv⟩

/-- Neither skipped nor the end of the input: a token, or an error. -/
def Kept : Lexeme → Prop
  | skip _ | done => False
  | token .. | invalid .. => True

theorem kept_ite {p : Prop} [Decidable p] {a b : Lexeme} (ha : a.Kept) (hb : b.Kept) : (if p then a else b).Kept :=
  iteInduction (fun _ => ha) fun _ => hb

theorem kept_ofReading (kind : Kind) (owing : Bool) (r : Reading) : (ofReading kind owing r).Kept :=
  ofReading_induction (fun _ => trivial) fun _ _ => trivial

theorem kept_comma (cs : List Char) : (comma cs).Kept := kept_ite trivial trivial

theorem kept_dot : ∀ cs : List Char, (dot cs).Kept
  | [] => trivial
  | _ :: _ => kept_ite trivial (kept_ite trivial (kept_ite (kept_ofReading ..) trivial))

theorem kept_signDot (sign : Char) : ∀ cs : List Char, (signDot sign cs).Kept
  | [] => trivial
  | _ :: _ => kept_ite (kept_ofReading ..) (kept_ite trivial trivial)

theorem kept_signed (sign : Char) : ∀ cs : List Char, (signed sign cs).Kept
  | [] => trivial
  | _ :: cs =>
    kept_ite trivial (kept_ite (kept_signDot sign cs) (kept_ite (kept_ofReading ..) (kept_ite trivial trivial)))

theorem kept_punctuation (c : Char) : (punctuation c).Kept := by
  unfold punctuation
  split <;> trivial

theorem kept_directive : ∀ cs : List Char, (directive cs).Kept
  | [] => trivial
  | _ :: _ => kept_ite trivial trivial

theorem kept_character : ∀ cs : List Char, (character cs).Kept
  | [] => trivial
  | [_] => trivial
  | _ :: _ :: _ => kept_ite trivial (kept_ite trivial (kept_ite trivial trivial))

theorem kept_hashWord (cs : List Char) : (hashWord cs).Kept :=
  kept_ite trivial (kept_ite (kept_ite trivial trivial) trivial)

/-- What a rule finds at the head of a text is kept, or may be skipped. -/
def KeptOrSkips (cs : List Char) (x : Lexeme) : Prop := x.Kept ∨ ∃ n, x = .skip n ∧ Skips cs n

theorem keptOrSkips_block (cs : List Char) : KeptOrSkips ('#' :: '|' :: cs) (blockComment cs) := by
  unfold blockComment
  split
  · rename_i m hm
    obtain ⟨body, rest, rfl, rfl, hb⟩ := Nesting.closes_of_closing? (fun _ => rfl) hm
    exact Or.inr ⟨_, rfl, Or.inl ⟨'#' :: '|' :: body, rest, rfl, rfl, .block hb⟩⟩
  · exact Or.inl trivial

theorem keptOrSkips_hash : ∀ cs : List Char, KeptOrSkips ('#' :: cs) (hash cs)
  | [] => Or.inl trivial
  | c :: cs => by
    obtain ⟨rule, hrule, heq⟩ := exists_hashLeads c
    rw [heq]
    cases hrule with
    | bar hc => subst hc; exact keptOrSkips_block cs
    | bang => exact Or.inl (kept_directive cs)
    | backslash => exact Or.inl (kept_character cs)
    | openParen => exact Or.inl trivial
    | semicolon => exact Or.inl trivial
    | marker => exact Or.inl (kept_ofReading ..)
    | word => exact Or.inl (kept_hashWord (c :: cs))
    | other => exact Or.inl trivial

theorem keptOrSkips_first (c : Char) (cs : List Char) : KeptOrSkips (c :: cs) (first (c :: cs)) := by
  obtain ⟨rule, hrule, heq⟩ := exists_leads c
  rw [heq]
  cases hrule with
  | initial => exact Or.inl trivial
  | whitespace hc => exact Or.inr ⟨1, rfl, Or.inl ⟨[c], cs, rfl, rfl, .space hc⟩⟩
  | digit => exact Or.inl (kept_ofReading ..)
  | bar => exact Or.inl (kept_ofReading ..)
  | doubleQuote => exact Or.inl (kept_ofReading ..)
  | comma => exact Or.inl (kept_comma cs)
  | semicolon hc => subst hc; exact Or.inr ⟨_, rfl, skips_line cs⟩
  | hash hc => subst hc; exact keptOrSkips_hash cs
  | dot => exact Or.inl (kept_dot cs)
  | sign => exact Or.inl (kept_signed c cs)
  | punctuation => exact Or.inl (kept_punctuation c)

/-- **Nothing but blanks is skipped.** -/
theorem skips_first {cs : List Char} {n : Nat} (h : first cs = .skip n) : Skips cs n := by
  cases cs with
  | nil => cases h
  | cons c cs =>
    rcases keptOrSkips_first c cs with hk | ⟨m, hm, hs⟩
    · rw [h] at hk; exact hk.elim
    · rw [h] at hm; cases hm; exact hs

theorem eq_nil_of_done {cs : List Char} (h : first cs = .done) : cs = [] := by
  cases cs with
  | nil => rfl
  | cons c cs =>
    rcases keptOrSkips_first c cs with hk | ⟨m, hm, -⟩
    · rw [h] at hk; exact hk.elim
    · rw [h] at hm; cases hm

end Lexeme
end SchemeLexer
