import SchemeLexer.Lexeme.Enclosed
import SchemeLexer.Proofs.Runs
/-!
# Escapes — escape sequences as their grammar has them

`Escape q` is what may stand for a character between marks `q`, its backslash counted in.  The rule for an escape
sequence finds nothing else without an error (`escape_sound`), and looks at one character behind it.
-/
namespace SchemeLexer
namespace Lexeme

open Text (Stops run)

/-- An escape sequence between marks `q`, with its backslash. -/
inductive Escape (q : Char) : List Char → Prop
  | code {ds : List Char} : ds ≠ [] → (∀ d ∈ ds, isHexDigit d = true) → Escape q ('\\' :: 'x' :: (ds ++ [';']))
  | letter {c : Char} : c ∈ ['a', 'b', 't', 'n', 'r', '\\', q] → Escape q ['\\', c]
  | line {ws vs : List Char} : (∀ c ∈ ws, isInlineWhitespace c = true) → (∀ c ∈ vs, isInlineWhitespace c = true) →
    Escape q ('\\' :: (ws ++ '\n' :: vs))

/-! ## Escape sequences are read to their end -/

section
variable {q : Char}

theorem escape_letter {c : Char} (hx : c ≠ 'x') (hc : isEscapeLetter c = true ∨ c = q) (t : List Char) :
    escape q (c :: t) = .accept 1 := by
  rw [escape, if_neg hx, if_pos hc]

theorem escape_code {ds : List Char} (hne : ds ≠ []) (hd : ∀ d ∈ ds, isHexDigit d = true) (t : List Char) :
    escape q ('x' :: (ds ++ ';' :: t)) = .accept (ds.length + 2) := by
  have hrun : run isHexDigit (ds ++ ';' :: t) = ds.length := Text.run_append hd ((Text.stops_cons ..).2 (by decide))
  have hlen : ds.length ≠ 0 := fun h => hne (List.length_eq_zero_iff.1 h)
  simp only [escape, if_true, hrun, List.drop_left, if_neg hlen, List.head?_cons]

theorem not_letter_of_blank {c : Char} (hb : isInlineWhitespace c = true) : c ≠ 'x' ∧ isEscapeLetter c = false := by
  simp only [isInlineWhitespace, Bool.or_eq_true, decide_eq_true_eq] at hb
  rcases hb with rfl | rfl <;> decide

/-- A line end and the blanks around it. -/
theorem escape_line (hq : isInlineWhitespace q = false) (hq' : q ≠ '\n') {ws vs t : List Char}
    (hw : ∀ c ∈ ws, isInlineWhitespace c = true) (hv : ∀ c ∈ vs, isInlineWhitespace c = true)
    (ht : Stops isInlineWhitespace t) : escape q (ws ++ '\n' :: (vs ++ t)) = .accept (ws.length + 1 + vs.length) := by
  have hrun : run isInlineWhitespace (vs ++ t) = vs.length := Text.run_append hv ht
  cases ws with
  | nil =>
    have hletter : ¬ (isEscapeLetter '\n' = true ∨ '\n' = q) := by
      rintro (h | h)
      · exact absurd h (by decide)
      · exact hq' h.symm
    rw [List.nil_append, escape, if_neg (by decide), if_neg hletter, if_neg (by decide), if_pos rfl, hrun]
    rfl
  | cons c ws =>
    have hb := hw c List.mem_cons_self
    obtain ⟨hx, hletter⟩ := not_letter_of_blank hb
    have hletter' : ¬ (isEscapeLetter c = true ∨ c = q) := by
      rintro (h | rfl)
      · rw [hletter] at h; cases h
      · rw [hq] at hb; cases hb
    have hrun' : run isInlineWhitespace (ws ++ '\n' :: (vs ++ t)) = ws.length :=
      Text.run_append (fun d hd => hw d (List.mem_cons_of_mem _ hd)) ((Text.stops_cons ..).2 (by decide))
    simp only [List.cons_append, escape, if_neg hx, if_neg hletter', if_pos hb, hrun', List.drop_left, if_true, hrun,
      List.length_cons]

end

/-! ## What is read for one -/

theorem isEscapeLetter_or_iff (q c : Char) :
    isEscapeLetter c = true ∨ c = q ↔ c ∈ ['a', 'b', 't', 'n', 'r', '\\', q] := by
  simp [isEscapeLetter, or_assoc]

/-- Without an error an escape sequence is found, and found again before any text that begins alike: it ends by itself,
or where a run of blanks does. -/
def FindsEscape (q : Char) (cs : List Char) : Prop :=
  (escape q cs).error? = none → ∃ u v, cs = u ++ v ∧ Escape q ('\\' :: u) ∧
    ∀ t, t.head? = v.head? → escape q (u ++ t) = .accept u.length

theorem findsEscape_hex (q : Char) (cs : List Char) : FindsEscape q ('x' :: cs) := by
  intro h
  obtain ⟨ds, rest, rfl, hd, hr, hrun⟩ := Text.exists_run isHexDigit cs
  simp only [escape, if_true, hrun, List.drop_left] at h
  split at h
  · cases h
  · rename_i hne
    cases rest with
    | nil => cases h
    | cons d rest =>
      by_cases hsemi : d = ';'
      · subst hsemi
        have hne' : ds ≠ [] := fun hnil => hne (congrArg List.length hnil)
        refine ⟨'x' :: (ds ++ [';']), rest, by simp, .code hne' hd, fun t _ => ?_⟩
        simpa using escape_code hne' hd t
      · simp [hsemi, Reading.reject] at h

section
variable {q c : Char} (hx : c ≠ 'x') (hl : ¬ (isEscapeLetter c = true ∨ c = q))
include hx hl

theorem findsEscape_blanks (hb : isInlineWhitespace c = true) (cs : List Char) : FindsEscape q (c :: cs) := by
  intro h
  obtain ⟨ws, rest, rfl, hw, hr, hrun⟩ := Text.exists_run isInlineWhitespace cs
  simp only [escape, if_neg hx, if_neg hl, if_pos hb, hrun, List.drop_left] at h
  cases rest with
  | nil => cases h
  | cons d rest =>
    by_cases hnl : d = '\n'
    · subst hnl
      obtain ⟨vs, rest, rfl, hv, hr', -⟩ := Text.exists_run isInlineWhitespace rest
      have hline : Escape q ('\\' :: (c :: ws ++ '\n' :: vs)) := .line (List.forall_mem_cons.2 ⟨hb, hw⟩) hv
      refine ⟨c :: (ws ++ '\n' :: vs), rest, by simp, hline, fun t ht => ?_⟩
      have hstop : Stops isInlineWhitespace t := fun d hd => hr' d (ht ▸ hd)
      have h1 : run isInlineWhitespace (ws ++ '\n' :: (vs ++ t)) = ws.length :=
        Text.run_append hw ((Text.stops_cons ..).2 (by decide))
      have h2 : run isInlineWhitespace (vs ++ t) = vs.length := Text.run_append hv hstop
      simp only [escape, List.cons_append, List.append_assoc, if_neg hx, if_neg hl, if_pos hb, h1, List.drop_left,
        if_true, h2, List.length_cons, List.length_append]
      simp only [Reading.accept, Reading.mk.injEq, and_true]
      omega
    · simp [hnl, Reading.reject] at h

theorem findsEscape_newline (hb : ¬ isInlineWhitespace c = true) (hnl : c = '\n') (cs : List Char) :
    FindsEscape q (c :: cs) := by
  intro h
  obtain ⟨ws, rest, rfl, hw, hr, -⟩ := Text.exists_run isInlineWhitespace cs
  have hline : Escape q ('\\' :: ([] ++ c :: ws)) := hnl ▸ .line (fun _ h => by cases h) hw
  refine ⟨c :: ws, rest, rfl, hline, fun t ht => ?_⟩
  have hstop : Stops isInlineWhitespace t := fun d hd => hr d (ht ▸ hd)
  simp only [escape, List.cons_append, if_neg hx, if_neg hl, if_neg hb, if_pos hnl, Text.run_append hw hstop,
    List.length_cons, Nat.add_comm 1]

end

/-- **What is read for an escape sequence is one.** -/
theorem escape_sound (q : Char) : ∀ cs : List Char, FindsEscape q cs
  | [], h => by cases h
  | c :: cs, h => by
    by_cases hx : c = 'x'
    · subst hx; exact findsEscape_hex q cs h
    · by_cases hl : isEscapeLetter c = true ∨ c = q
      · exact ⟨[c], cs, rfl, .letter ((isEscapeLetter_or_iff q c).1 hl), fun t _ => escape_letter hx hl t⟩
      · by_cases hb : isInlineWhitespace c = true
        · exact findsEscape_blanks hx hl hb cs h
        · by_cases hnl : c = '\n'
          · exact findsEscape_newline hx hl hb hnl cs h
          · simp [escape, hx, hl, hb, hnl, Reading.reject] at h

end Lexeme
end SchemeLexer
