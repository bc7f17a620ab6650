import SchemeLexer.Proofs.Delimiters
import SchemeLexer.Proofs.MarkedNumbers
import SchemeLexer.Proofs.Number.Beginnings
import SchemeLexer.Proofs.Quotations
import SchemeLexer.Proofs.Routes
/-!
# Mending — text that goes wrong goes wrong in its last character

What a rule takes for an error it takes up to the character that breaks it.  Without that character the text may be
completed so that it scans (`Completable`): a string is closed, an escape sequence and every open comment in it, a word
goes on to one that means something, a number gets the digits it lacks.  `mends_first` says so of every rule.

Two errors are told apart from the others.  A marker that is repeated or unknown is found out behind its hash sign, and
what goes wrong there begins with that sign; and of a word that means nothing the last character need not be the wrong
one.
-/
namespace SchemeLexer

open Text (Stops run)
open Utf8 (IsAscii)

namespace Lexeme

/-! ## Escape sequences -/

section
variable {q : Char}

theorem mem_of_part {p : Char → Bool} {u cs : List Char} (h : u <+: cs) (hcs : ∀ c ∈ cs, p c = true) :
    ∀ c ∈ u, p c = true := fun c hc => hcs c (h.subset hc)

/-- A text that begins another one and is longer than its first part goes on into the second. -/
theorem exists_of_longer {u a b : List Char} (h : u <+: a ++ b) (hlen : a.length ≤ u.length) :
    ∃ v, u = a ++ v ∧ v <+: b := by
  obtain ⟨v, rfl⟩ := List.prefix_of_prefix_length_le (List.prefix_append a b) h hlen
  exact ⟨v, rfl, (List.prefix_append_right_inj a).1 h⟩

theorem part_of_shorter {u a b : List Char} (h : u <+: a ++ b) (hlen : u.length ≤ a.length) : u <+: a :=
  List.prefix_of_prefix_length_le h (List.prefix_append a b) hlen

/-- What may stand behind a backslash, and goes on to an escape sequence. -/
inductive HalfEscape (q : Char) : List Char → Prop
  | letter {c : Char} : c ≠ 'x' → isEscapeLetter c = true ∨ c = q → HalfEscape q [c]
  | digits {ds : List Char} : (∀ d ∈ ds, isHexDigit d = true) → HalfEscape q ('x' :: ds)
  | code {ds : List Char} : ds ≠ [] → (∀ d ∈ ds, isHexDigit d = true) → HalfEscape q ('x' :: (ds ++ [';']))
  | blanks {ws : List Char} : (∀ c ∈ ws, isInlineWhitespace c = true) → HalfEscape q ws
  | line {ws vs : List Char} : (∀ c ∈ ws, isInlineWhitespace c = true) → (∀ c ∈ vs, isInlineWhitespace c = true) →
    HalfEscape q (ws ++ '\n' :: vs)

/-- **Half an escape sequence** is completed, and the mark behind it is no part of it. -/
theorem HalfEscape.mends (hq : isInlineWhitespace q = false) (hq' : q ≠ '\n') {u : List Char} (h : HalfEscape q u) :
    ∃ s, IsAscii s ∧ escape q (u ++ s ++ [q]) = .accept (u ++ s).length := by
  cases h with
  | letter hx hc => exact ⟨[], by decide, escape_letter hx hc _⟩
  | @digits ds hd =>
    have hzero : ∀ d ∈ ['0'], isHexDigit d = true := List.forall_mem_singleton.2 (by decide)
    have hd' : ∀ d ∈ ds ++ ['0'], isHexDigit d = true := List.forall_mem_append.2 ⟨hd, hzero⟩
    have hcode := @escape_code q (ds ++ ['0']) (by simp) hd' [q]
    exact ⟨['0', ';'], by decide, by simpa using hcode⟩
  | @code ds hne hd =>
    have hcode := @escape_code q ds hne hd [q]
    exact ⟨[], by decide, by simpa using hcode⟩
  | blanks hw =>
    have hline := @escape_line q hq hq' u [] [q] hw (fun _ h => by cases h) ((Text.stops_cons ..).2 hq)
    exact ⟨['\n'], by decide, by simpa using hline⟩
  | @line ws vs hw hv =>
    have hline := escape_line hq hq' hw hv ((Text.stops_cons _ q []).2 hq)
    exact ⟨[], by decide, by simpa [Nat.add_assoc, Nat.add_comm 1] using hline⟩

/-- How much of what is taken is in order: all of it if there is no error, less if there is one. -/
def InOrder (r : Reading) (n : Nat) : Prop := n < r.taken ∨ (n = r.taken ∧ r.error? = none)

theorem InOrder.of_reject {e : ScanError} {m n : Nat} (h : InOrder (.reject e m) n) : n < m := by
  rcases h with h | ⟨-, h⟩
  · exact h
  · cases h

theorem InOrder.of_accept {m n : Nat} (h : InOrder (.accept m) n) : n ≤ m := by
  rcases h with h | ⟨h, -⟩
  · exact Nat.le_of_lt h
  · exact Nat.le_of_eq h

section
variable {v cs : List Char} (hv : v <+: cs)
include hv

theorem halfEscape_hex (h : InOrder (escape q ('x' :: cs)) (v.length + 1)) : HalfEscape q ('x' :: v) := by
  obtain ⟨ds, rest, rfl, hd, -, hrun⟩ := Text.exists_run isHexDigit cs
  by_cases hshort : v.length ≤ ds.length
  · exact .digits (mem_of_part (part_of_shorter hv hshort) hd)
  · simp only [escape, if_true, hrun, List.drop_left] at h
    split at h
    · have := h.of_reject
      omega
    · rename_i hne
      split at h
      · rename_i hsemi
        obtain ⟨w, rfl, x, rfl⟩ := exists_of_longer hv (by omega)
        have hle := h.of_accept
        rw [List.length_append] at hle hshort
        obtain ⟨c, rfl⟩ : ∃ c, w = [c] := List.length_eq_one_iff.1 (by omega)
        obtain rfl : c = ';' := Option.some.inj hsemi
        exact .code (fun hnil => hne (by rw [hnil]; rfl)) hd
      · have hone : Text.oneMore rest ≤ 1 := Nat.min_le_left ..
        have := h.of_reject
        omega

theorem halfEscape_blanks {c : Char} (hq : isInlineWhitespace q = false) (hb : isInlineWhitespace c = true)
    (h : InOrder (escape q (c :: cs)) (v.length + 1)) : HalfEscape q (c :: v) := by
  obtain ⟨ws, rest, rfl, hw, -, hrun⟩ := Text.exists_run isInlineWhitespace cs
  have hcw : ∀ d ∈ c :: ws, isInlineWhitespace d = true := List.forall_mem_cons.2 ⟨hb, hw⟩
  by_cases hshort : v.length ≤ ws.length
  · exact .blanks (List.forall_mem_cons.2 ⟨hb, mem_of_part (part_of_shorter hv hshort) hw⟩)
  · obtain ⟨hx, hletter⟩ := not_letter_of_blank hb
    have hletter' : ¬ (isEscapeLetter c = true ∨ c = q) := by
      rintro (h | rfl)
      · rw [hletter] at h; cases h
      · rw [hq] at hb; cases hb
    simp only [escape, if_neg hx, if_neg hletter', if_pos hb, hrun, List.drop_left] at h
    obtain ⟨w, rfl, hw'⟩ := exists_of_longer hv (by omega)
    rw [List.length_append] at h hshort
    cases w with
    | nil => exact absurd (Nat.le_refl _) hshort
    | cons d w =>
      cases rest with
      | nil => cases List.prefix_nil.1 hw'
      | cons e rest =>
        obtain ⟨rfl, htail⟩ := List.cons_prefix_cons.1 hw'
        simp only at h
        split at h
        · rename_i hnl
          subst hnl
          obtain ⟨vs, rest, rfl, hvs, -, hrun'⟩ := Text.exists_run isInlineWhitespace rest
          have hle := h.of_accept
          rw [hrun', List.length_cons] at hle
          exact .line hcw (mem_of_part (part_of_shorter htail (by omega)) hvs)
        · have := h.of_reject
          rw [List.length_cons] at this
          omega

end

/-- **What is in order of an escape sequence** is half of one. -/
theorem halfEscape_of_inOrder (hq : isInlineWhitespace q = false) {u cs : List Char} (hu : u <+: cs)
    (h : InOrder (escape q cs) u.length) : HalfEscape q u := by
  cases u with
  | nil => exact .blanks fun _ h => by cases h
  | cons c v =>
    cases cs with
    | nil => cases List.prefix_nil.1 hu
    | cons d cs =>
      obtain ⟨rfl, hv⟩ := List.cons_prefix_cons.1 hu
      by_cases hx : c = 'x'
      · subst hx
        exact halfEscape_hex hv h
      · by_cases hl : isEscapeLetter c = true ∨ c = q
        · rw [escape_letter hx hl] at h
          have hle := h.of_accept
          obtain rfl : v = [] := List.length_eq_zero_iff.1 (by rw [List.length_cons] at hle; omega)
          exact .letter hx hl
        · by_cases hb : isInlineWhitespace c = true
          · exact halfEscape_blanks hv hq hb h
          · by_cases hnl : c = '\n'
            · subst hnl
              obtain ⟨vs, rest, rfl, hvs, -, hrun⟩ := Text.exists_run isInlineWhitespace cs
              simp only [escape, if_neg hx, if_neg hl, if_neg hb, if_true, hrun] at h
              have hle := h.of_accept
              rw [List.length_cons] at hle
              exact @HalfEscape.line q [] v (fun _ h => by cases h) (mem_of_part (part_of_shorter hv (by omega)) hvs)
            · simp only [escape, if_neg hx, if_neg hl, if_neg hb, if_neg hnl] at h
              have := h.of_reject
              rw [List.length_cons] at this
              omega

end

/-! ## Enclosed text -/

/-- Behind an escape sequence the text may be closed as it may by itself: the sequence looks at the character behind it,
and that is the same as before. -/
theorem enclosed_mends_behind {q : Char} (hbs : ¬ '\\' = q) {x w rest : List Char}
    (hx : ∀ t, t.head? = rest.head? → escape q (x ++ t) = .accept x.length) (hw : w <+: rest) (hne : w ≠ [])
    (h : ∃ s, IsAscii s ∧ enclosed q (w ++ s) = .accept (w ++ s).length) :
    ∃ s, IsAscii s ∧ enclosed q ('\\' :: (x ++ w) ++ s) = .accept ('\\' :: (x ++ w) ++ s).length := by
  obtain ⟨s, hs, hread⟩ := h
  have hhead : (w ++ s).head? = rest.head? := by
    cases w with
    | nil => exact absurd rfl hne
    | cons e w =>
      obtain ⟨t, rfl⟩ := hw
      rfl
  have hsplit : '\\' :: (x ++ w) ++ s = '\\' :: (x ++ (w ++ s)) := by simp
  refine ⟨s, hs, ?_⟩
  rw [hsplit, enclosed_escape hbs (hx _ hhead), hread, Reading.shift_accept]
  simp only [List.length_cons, List.length_append]
  exact congrArg Reading.accept (by omega)

section
variable {q : Char} (hq : isInlineWhitespace q = false) (hq' : q ≠ '\n') (hascii : q.toNat < 0x80) (hbs : q ≠ '\\')
include hq hq' hascii hbs

/-- An escape sequence that breaks off is completed, and the text closed behind it. -/
theorem enclosed_mends_half {v : List Char} (h : HalfEscape q v) :
    ∃ s, IsAscii s ∧ enclosed q ('\\' :: v ++ s) = .accept ('\\' :: v ++ s).length := by
  obtain ⟨s, hs, hread⟩ := h.mends hq hq'
  have hascii' : IsAscii [q] := by simpa [IsAscii] using hascii
  refine ⟨s ++ [q], List.forall_mem_append.2 ⟨hs, hascii'⟩, ?_⟩
  rw [List.cons_append, ← List.append_assoc, enclosed_escape (Ne.symm hbs) hread, enclosed_cons, if_pos rfl,
    Reading.shift_accept]
  simp only [List.length_cons, List.length_append, List.length_nil]
  exact congrArg Reading.accept (by omega)

/-- **What is taken of enclosed text that goes wrong** may be closed, without its last character or any that stand in
front of that. -/
theorem enclosed_mends : ∀ {cs u : List Char}, u <+: cs → u.length < (enclosed q cs).taken →
    ∃ s, IsAscii s ∧ enclosed q (u ++ s) = .accept (u ++ s).length
  | cs, [], _, _ => ⟨[q], by simpa [IsAscii] using hascii, by rw [List.nil_append, enclosed_cons, if_pos rfl]; rfl⟩
  | [], _ :: _, hu, _ => by cases List.prefix_nil.1 hu
  | d :: cs, c :: v, hu, hlt => by
    obtain ⟨rfl, hv⟩ := List.cons_prefix_cons.1 hu
    rw [enclosed_cons, List.length_cons] at hlt
    split at hlt
    · simp [Reading.accept] at hlt
    · rename_i hcq
      split at hlt
      · rename_i hc
        subst hc
        split at hlt
        · rename_i hok
          have herror : (escape q cs).error? = none := Option.isNone_iff_eq_none.1 hok
          by_cases hle : v.length ≤ (escape q cs).taken
          · have horder : InOrder (escape q cs) v.length := by
              rcases Nat.lt_or_eq_of_le hle with hlt | heq
              · exact Or.inl hlt
              · exact Or.inr ⟨heq, herror⟩
            exact enclosed_mends_half hq hq' hascii hbs (halfEscape_of_inOrder hq hv horder)
          · obtain ⟨x, rest, rfl, hx⟩ := settledEscape q cs herror
            have htaken : (escape q (x ++ rest)).taken = x.length := by
              rw [hx rest rfl]
              rfl
            rw [htaken, List.drop_left, Reading.taken_shift] at hlt
            rw [htaken] at hle
            obtain ⟨w, rfl, hw⟩ := exists_of_longer hv (by omega)
            rw [List.length_append] at hlt hle
            have hne : w ≠ [] := fun hnil => hle (by rw [hnil]; exact Nat.le_refl _)
            have hshorter : rest.length < ('\\' :: (x ++ rest)).length := by
              rw [List.length_cons, List.length_append]
              omega
            exact enclosed_mends_behind hcq hx hw hne (enclosed_mends hw (by omega))
        · rw [Reading.taken_shift] at hlt
          exact enclosed_mends_half hq hq' hascii hbs (halfEscape_of_inOrder hq hv (Or.inl (by omega)))
      · rename_i hc
        rw [Reading.taken_shift] at hlt
        obtain ⟨s, hs, hread⟩ := enclosed_mends hv (by omega)
        refine ⟨s, hs, ?_⟩
        rw [List.cons_append, enclosed_cons, if_neg hcq, if_neg hc, hread, List.length_cons, Nat.add_comm]
        rfl
termination_by cs => cs.length

end

/-! ## Text that scans -/

/-- A text that scans without an error.  Where a delimiter is owing, one stands at its head. -/
inductive Clean : Bool → List Char → Prop
  | done : Clean false []
  | skip {cs : List Char} {n : Nat} : first cs = .skip n → Clean false (cs.drop n) → Clean false cs
  | token {cs : List Char} {kind : Kind} {n : Nat} {owing : Bool} :
    first cs = .token kind n owing → Clean owing (cs.drop n) → Clean false cs
  | delimited {cs : List Char} : Delimited cs → Clean false cs → Clean true cs

theorem Clean.nil : ∀ owing : Bool, Clean owing []
  | false => .done
  | true => .delimited delimited_nil .done

theorem Clean.of_token {cs : List Char} {kind : Kind} {owing : Bool} (h : first cs = .token kind cs.length owing) :
    Clean false cs := .token h (by rw [List.drop_length]; exact .nil owing)

theorem Clean.of_skip {cs : List Char} (h : first cs = .skip cs.length) : Clean false cs :=
  .skip h (by rw [List.drop_length]; exact .done)

/-- A text that an ASCII text behind it makes one that scans. -/
def Completable (u : List Char) : Prop := ∃ s, IsAscii s ∧ Clean false (u ++ s)

theorem completable_nil : Completable [] := ⟨[], by decide, .done⟩

theorem completable_token {u : List Char} (s : List Char) {kind : Kind} {owing : Bool} (hs : IsAscii s)
    (h : first (u ++ s) = .token kind (u ++ s).length owing) : Completable u := ⟨s, hs, .of_token h⟩

theorem completable_hash : Completable ['#'] := completable_token ['t'] (by decide) (by decide : _ = word .boolean 2)

theorem completable_dot : Completable ['.'] := completable_token [] (by decide) (by decide : _ = closed .dot 1)

theorem completable_sign {s : Char} (hs : isSign s = true) : Completable [s] := by
  rcases (Number.isSign_iff s).1 hs with rfl | rfl
  · exact completable_token [] (by decide) (by decide : _ = closed .identifier 1)
  · exact completable_token [] (by decide) (by decide : _ = closed .identifier 1)

theorem completable_signDot {s : Char} (hs : isSign s = true) : Completable [s, '.'] := by
  rcases (Number.isSign_iff s).1 hs with rfl | rfl
  · exact completable_token ['a'] (by decide) (by decide : _ = word .identifier 3)
  · exact completable_token ['a'] (by decide) (by decide : _ = word .identifier 3)

end Lexeme

/-- How many of the last characters of an invalid text are to blame for the error. -/
def ScanError.overshoot : ScanError → Nat
  | .invalidPrefix => 2
  | _ => 1

namespace Lexeme

/-- What a rule finds at the head of `cs` is no error, or one that shows in the last character taken. -/
def Mends (cs : List Char) : Lexeme → Prop
  | .invalid e n => e = .invalidHashWord ∨ (n ≤ cs.length ∧ Completable (cs.take (n - e.overshoot)))
  | _ => True

section
variable {cs : List Char}

theorem mends_invalid {e : ScanError} {n : Nat} (he : e.overshoot = 1) (hn : n < cs.length)
    (h : Completable (cs.take n)) : Mends cs (.invalid e (n + 1)) :=
  Or.inr ⟨hn, by rwa [he, Nat.add_sub_cancel]⟩

end

/-! ## Numbers -/

theorem completable_number {w : List Char} (h : Number.Begins (Number.Grammar.Complex .decimal) w) : Completable w := by
  obtain ⟨t, ht⟩ := h
  have hascii : IsAscii t := fun c hc => ht.isAscii c (List.mem_append_right w hc)
  by_cases hlong : LongSpecial (w ++ t)
  · exact completable_token t hascii (first_of_longSpecial ht hlong)
  · obtain ⟨owing, hfirst⟩ := isNumber_first ht hlong
    exact completable_token t hascii hfirst

theorem overshoot_of_complex {r : Radix} {cs : List Char} {e : ScanError} (h : (Number.complex r cs).error? = some e) :
    e.overshoot = 1 := by
  rcases Number.complex_errors h with rfl | rfl | rfl | rfl <;> rfl

theorem mends_number (cs : List Char) : Mends cs (number cs) :=
  ofReading_induction (fun _ => trivial) fun e he => Or.inr ⟨Number.complex_le .decimal cs, by
    rw [overshoot_of_complex he]
    exact completable_number (Number.begins_complex he)⟩

/-! ## Words -/

theorem mends_dot : ∀ cs : List Char, Mends ('.' :: cs) (dot cs)
  | [] => trivial
  | _ :: _ =>
    iteInduction (fun _ => trivial) fun _ =>
    iteInduction (fun _ => trivial) fun _ =>
    iteInduction (fun _ => mends_number _) fun _ =>
    mends_invalid rfl (Nat.succ_lt_succ (Nat.succ_pos _)) completable_dot

section
variable {s : Char} (hs : isSign s = true)
include hs

theorem mends_signDot : ∀ cs : List Char, Mends (s :: '.' :: cs) (signDot s cs)
  | [] => mends_invalid rfl (Nat.lt_succ_self 1) (completable_sign hs)
  | _ :: _ =>
    iteInduction (fun _ => mends_number _) fun _ =>
    iteInduction (fun _ => trivial) fun _ =>
    mends_invalid rfl (Nat.succ_lt_succ (Nat.succ_lt_succ (Nat.succ_pos _))) (completable_signDot hs)

theorem mends_signed : ∀ cs : List Char, Mends (s :: cs) (signed s cs)
  | [] => trivial
  | _ :: cs =>
    iteInduction (fun _ => trivial) fun _ =>
    iteInduction (fun hdot => hdot ▸ mends_signDot hs cs) fun _ =>
    iteInduction (fun _ => mends_number _) fun _ =>
    iteInduction (fun _ => trivial) fun _ =>
    mends_invalid rfl (Nat.succ_lt_succ (Nat.succ_pos _)) (completable_sign hs)

end

/-! ## Block comments -/

/-- What closes comments one after the other. -/
def closers : Nat → List Char
  | 0 => []
  | d + 1 => '|' :: '#' :: closers d

theorem closes_closers : ∀ d : Nat, Closes d (closers d)
  | 0 => .done
  | d + 1 => .closing (closes_closers d)

theorem isAscii_closers : ∀ d : Nat, IsAscii (closers d)
  | 0 => by decide
  | d + 1 => List.forall_mem_cons.2 ⟨by decide, List.forall_mem_cons.2 ⟨by decide, isAscii_closers d⟩⟩

namespace Nesting

theorem closing?_eq_none_cons {s : Nesting} {c : Char} {cs : List Char} :
    s.closing? (c :: cs) = none ↔ s.depth ≠ 0 ∧ (s.step c).closing? cs = none := by
  by_cases h : s.depth = 0
  · simp [closing?, h]
  · simp [closing?, h]

theorem depth_of_closing? {s : Nesting} {cs : List Char} (h : s.closing? cs = none) : s.depth ≠ 0 := by
  intro hzero
  cases cs with
  | nil => simp [closing?, hzero] at h
  | cons c cs => exact (closing?_eq_none_cons.1 h).1 hzero

/-- Where comments are open at the end of a text, they are at the end of any part of it. -/
theorem closing?_part : ∀ {s : Nesting} {u v : List Char}, s.closing? (u ++ v) = none → s.closing? u = none
  | s, [], _, h => by simp [closing?, depth_of_closing? h]
  | _, c :: _, _, h => by
    rw [List.cons_append] at h
    exact closing?_eq_none_cons.2 ⟨(closing?_eq_none_cons.1 h).1, closing?_part (closing?_eq_none_cons.1 h).2⟩

/-- **Comments that are open may be closed.** -/
theorem closing?_mends : ∀ {s : Nesting} {u : List Char}, s.closing? u = none →
    ∃ t, IsAscii t ∧ s.closing? (u ++ t) = some (u ++ t).length
  | s, [], h => by
    have hdepth := depth_of_closing? h
    have hcloses := (closes_closers s.depth).closing? []
    -- a blank in front, so that no half of a pair is left over
    have hstep : s.step ' ' = ⟨s.depth, .neither⟩ := by simp [step]
    rw [List.append_nil] at hcloses
    refine ⟨' ' :: closers s.depth, List.forall_mem_cons.2 ⟨by decide, isAscii_closers s.depth⟩, ?_⟩
    rw [List.nil_append, closing?, if_neg hdepth, hstep, hcloses]
    rfl
  | s, c :: u, h => by
    obtain ⟨hdepth, htail⟩ := closing?_eq_none_cons.1 h
    obtain ⟨t, ht, hclosing⟩ := closing?_mends htail
    refine ⟨t, ht, ?_⟩
    rw [List.cons_append, closing?, if_neg hdepth, hclosing]
    rfl

end Nesting

theorem completable_block {u : List Char} (h : Nesting.opened.closing? u = none) : Completable ('#' :: '|' :: u) := by
  obtain ⟨t, ht, hclosing⟩ := Nesting.closing?_mends h
  refine ⟨t, ht, .of_skip ?_⟩
  have hfirst : first ('#' :: '|' :: u ++ t) = blockComment (u ++ t) := rfl
  rw [hfirst, blockComment, hclosing]
  rfl

theorem mends_blockComment (cs : List Char) : Mends ('#' :: '|' :: cs) (blockComment cs) := by
  unfold blockComment
  split
  · trivial
  · rename_i hnone
    refine mends_invalid rfl (Nat.lt_succ_self _) ?_
    cases cs with
    | nil => exact completable_hash
    | cons c cs =>
      refine completable_block (Nesting.closing?_part (v := ((c :: cs).drop cs.length)) ?_)
      rwa [List.take_append_drop]

/-! ## Behind a hash sign -/

theorem completable_bang : Completable ['#', '!'] := completable_token ['a'] (by decide) (by decide : _ = word .directive 3)

theorem mends_directive : ∀ cs : List Char, Mends ('#' :: '!' :: cs) (directive cs)
  | [] => mends_invalid rfl (Nat.lt_succ_self 1) completable_hash
  | _ :: _ =>
    iteInduction (fun _ => trivial) fun _ =>
    mends_invalid rfl (Nat.succ_lt_succ (Nat.succ_lt_succ (Nat.succ_pos _))) completable_bang

theorem mends_character : ∀ cs : List Char, Mends ('#' :: '\\' :: cs) (character cs)
  | [] => mends_invalid rfl (Nat.lt_succ_self 1) completable_hash
  | [_] => trivial
  | _ :: _ :: _ =>
    iteInduction (fun _ => trivial) fun _ =>
    iteInduction (fun _ => trivial) fun _ =>
    iteInduction (fun _ => trivial) fun _ =>
    mends_invalid rfl (Nat.succ_lt_succ (Nat.succ_lt_succ (Nat.succ_lt_succ (Nat.succ_pos _))))
      (completable_token [] (by decide) (rfl : _ = closed .character 3))

theorem eq_byteVector {w : List Char} (h : Caseless.sameWord w byteVector = true) : w = ['u', '8'] ∨ w = ['U', '8'] := by
  simp only [Caseless.sameWord, byteVector, List.map_cons, List.map_nil, decide_eq_true_eq] at h
  obtain ⟨a, v, rfl, ha, hv⟩ := List.map_eq_cons_iff.1 h
  obtain ⟨b, v, rfl, hb, hnil⟩ := List.map_eq_cons_iff.1 hv
  obtain rfl := List.map_eq_nil_iff.1 hnil
  have ha : a = 'u' ∨ a = 'U' := by
    have hfold : Caseless.fold a = 'u' := ha.trans (by decide)
    rw [Caseless.fold_eq_iff (by decide)] at hfold
    exact hfold.imp Char.toNat_inj.1 fun h => Char.toNat_inj.1 (Nat.add_right_cancel h)
  have hb : b = '8' := by
    have hfold : (Caseless.fold b).toNat = 56 := congrArg Char.toNat (hb.trans (by decide : _ = '8'))
    rw [Caseless.toNat_fold] at hfold
    refine Char.toNat_inj.1 (?_ : _ = 56)
    split at hfold <;> omega
  subst hb
  exact ha.imp (fun h => by rw [h]) fun h => by rw [h]

theorem mends_hashWord (cs : List Char) : Mends ('#' :: cs) (hashWord cs) := by
  obtain ⟨w, rest, rfl, -, -, hrun⟩ := Text.exists_run isSubsequent cs
  simp only [hashWord, hrun, List.take_left, List.drop_left]
  refine iteInduction (fun _ => trivial) fun _ => iteInduction (fun hword => ?_) fun _ => Or.inl rfl
  refine iteInduction (fun _ => trivial) fun _ => ?_
  cases rest with
  | nil =>
    rcases eq_byteVector hword with rfl | rfl
    · exact mends_invalid rfl (by decide) (completable_token ['8', '('] (by decide) (by decide : _ = closed .openByteVector 4))
    · exact mends_invalid rfl (by decide) (completable_token ['8', '('] (by decide) (by decide : _ = closed .openByteVector 4))
  | cons c rest =>
    rw [Text.oneMore_cons]
    refine mends_invalid rfl (by simp) ?_
    rw [List.take_succ_cons, List.take_left]
    rcases eq_byteVector hword with rfl | rfl
    · exact completable_token ['('] (by decide) (by decide : _ = closed .openByteVector 4)
    · exact completable_token ['('] (by decide) (by decide : _ = closed .openByteVector 4)

/-! ## Marked numbers -/

section
open Number (Marker Marks afterMarks afterMarks_cons afterMarks_hash complex toNat_lt_of_marker)
open Number.Grammar (Complex)

section
variable {m m' : Marks} {c : Char} (hm : (Marker.ofChar? c).bind m.add? = some m')
include hm

theorem afterMarks_number {w : List Char} (hw : Complex m'.radix w) : afterMarks m (c :: w) = .accept (c :: w).length := by
  cases w with
  | nil => exact absurd rfl hw.ne_nil
  | cons d w =>
    have hd : d ≠ '#' := by
      rintro rfl
      exact absurd (hw.subsequents '#' List.mem_cons_self) (by decide)
    rw [afterMarks_cons hm hd, Number.complex_eq_accept.2 hw, Reading.shift_accept, Nat.add_comm]
    rfl

end

theorem afterMarks_le : ∀ (m : Marks) (cs : List Char), (afterMarks m cs).taken ≤ cs.length
  | _, [] => Nat.le_refl _
  | m, c :: cs => by
    rw [afterMarks, List.length_cons]
    split
    · exact Nat.succ_le_succ (Nat.zero_le _)
    · rename_i m' hm
      split
      · exact Nat.le_refl _
      · rename_i d rest
        have hnumber := Number.complex_le m'.radix (d :: rest)
        have hmarks := afterMarks_le m' rest
        split
        · rw [Reading.taken_shift, List.length_cons]
          omega
        · rw [Reading.taken_shift]
          omega

theorem isSome_of_afterMarks {m : Marks} {c : Char} {cs : List Char} (h : (afterMarks m (c :: cs)).error? = none) :
    (Marker.ofChar? c).isSome = true := by
  cases hc : Marker.ofChar? c with
  | none => simp [afterMarks, hc, Reading.reject] at h
  | some k => rfl

/-- What is taken for the error `e` behind the marks `m` may be completed, but for the characters that show the error. -/
def MarksMend (m : Marks) (cs : List Char) (e : ScanError) : Prop :=
  e.overshoot ≤ (afterMarks m cs).taken ∧ ∃ s, IsAscii s ∧
    afterMarks m (cs.take ((afterMarks m cs).taken - e.overshoot) ++ s) =
      .accept (cs.take ((afterMarks m cs).taken - e.overshoot) ++ s).length

section
variable {m m' : Marks} {c : Char} {e : ScanError} (hm : (Marker.ofChar? c).bind m.add? = some m')
include hm

theorem afterMarks_one : afterMarks m [c, '1'] = .accept 2 :=
  afterMarks_number hm (.real (.unsigned (.integer (Number.uInteger_one m'.radix))))

theorem isAscii_marker : IsAscii [c, '1'] :=
  List.forall_mem_cons.2 ⟨toNat_lt_of_marker hm, (by decide : IsAscii ['1'])⟩

/-- No further marker is begun: what goes wrong is the number. -/
theorem marksMend_number {d : Char} (hd : d ≠ '#') {rest : List Char}
    (h : (afterMarks m (c :: d :: rest)).error? = some e) : MarksMend m (c :: d :: rest) e := by
  rw [afterMarks_cons hm hd, Reading.error?_shift] at h
  rw [MarksMend, afterMarks_cons hm hd, Reading.taken_shift, overshoot_of_complex h, Nat.add_comm, Nat.add_sub_cancel]
  refine ⟨Nat.succ_pos _, ?_⟩
  have hbegins := Number.begins_complex h
  cases htaken : (complex m'.radix (d :: rest)).taken with
  | zero => exact ⟨[c, '1'], isAscii_marker hm, afterMarks_one hm⟩
  | succ k =>
    rw [htaken, Nat.add_sub_cancel] at hbegins
    obtain ⟨s, hs⟩ := hbegins
    exact ⟨s, fun c hc => hs.isAscii c (List.mem_append_right _ hc), afterMarks_number hm hs⟩

/-- A further marker that may not stand there: the hash sign in front of it is left out, too. -/
theorem marksMend_unknown {d : Char} (hd : (Marker.ofChar? d).bind m'.add? = none) {rest : List Char}
    (h : (afterMarks m (c :: '#' :: d :: rest)).error? = some e) : MarksMend m (c :: '#' :: d :: rest) e := by
  have heq : afterMarks m' (d :: rest) = .reject .invalidPrefix 1 := by rw [afterMarks, hd]
  rw [afterMarks_hash hm, heq] at h
  rw [MarksMend, afterMarks_hash hm, heq]
  cases h
  exact ⟨Nat.le_succ _, ['1'], by decide, afterMarks_one hm⟩

/-- A further marker: what goes wrong, goes wrong behind it. -/
theorem MarksMend.behind {cs : List Char} (h : MarksMend m' cs e) : MarksMend m (c :: '#' :: cs) e := by
  obtain ⟨hle, s, hs, hread⟩ := h
  have hsub : 2 + (afterMarks m' cs).taken - e.overshoot = (afterMarks m' cs).taken - e.overshoot + 1 + 1 := by omega
  rw [MarksMend, afterMarks_hash hm, Reading.taken_shift]
  refine ⟨by omega, s, hs, ?_⟩
  rw [hsub, List.take_succ_cons, List.take_succ_cons, List.cons_append, List.cons_append, afterMarks_hash hm, hread,
    Reading.shift_accept, List.length_cons, List.length_cons]
  exact congrArg Reading.accept (Nat.add_comm ..)

end

/-- **Behind a marker that may stand there**, what is taken for an error goes wrong in its last character; or, if the
next marker may not stand there, with the hash sign in front of it. -/
theorem afterMarks_mends : ∀ {cs : List Char} {m m' : Marks} {c : Char} {e : ScanError},
    (Marker.ofChar? c).bind m.add? = some m' → (afterMarks m (c :: cs)).error? = some e → MarksMend m (c :: cs) e
  | [], m, m', c, e, hm, h => by
    have heq : afterMarks m [c] = .reject .invalidNumber 1 := by rw [afterMarks, hm]; rfl
    rw [heq] at h
    rw [MarksMend, heq]
    cases h
    exact ⟨Nat.le_refl _, [c, '1'], isAscii_marker hm, afterMarks_one hm⟩
  | [d], m, m', c, e, hm, h => by
    by_cases hd : d = '#'
    · subst hd
      rw [afterMarks_hash hm] at h
      rw [MarksMend, afterMarks_hash hm]
      cases h
      exact ⟨Nat.le_refl _, [c, '1'], isAscii_marker hm, afterMarks_one hm⟩
    · exact marksMend_number hm hd h
  | d :: d' :: rest, m, m', c, e, hm, h => by
    by_cases hd : d = '#'
    · subst hd
      cases hm' : (Marker.ofChar? d').bind m'.add? with
      | none => exact marksMend_unknown hm hm' h
      | some m₂ =>
        rw [afterMarks_hash hm, Reading.error?_shift] at h
        exact (afterMarks_mends hm' h).behind hm
    · exact marksMend_number hm hd h

/-- **The number behind a hash sign.** -/
theorem mends_markedNumber {c : Char} (hc : (Marker.ofChar? c).isSome = true) (cs : List Char) :
    Mends ('#' :: c :: cs) (markedNumber (c :: cs)) := by
  refine ofReading_induction (fun _ => trivial) fun e he => Or.inr ?_
  have hm : ∃ m', (Marker.ofChar? c).bind (Marks.add? ⟨none, false⟩) = some m' := by
    obtain ⟨k, hk⟩ := Option.isSome_iff_exists.1 hc
    rw [hk]
    cases k with
    | radix r => exact ⟨_, rfl⟩
    | exactness => exact ⟨_, rfl⟩
  obtain ⟨m', hm⟩ := hm
  obtain ⟨hle, s, hs, hread⟩ := afterMarks_mends hm he
  have hlen := afterMarks_le ⟨none, false⟩ (c :: cs)
  have hsub : 1 + (afterMarks ⟨none, false⟩ (c :: cs)).taken - e.overshoot =
      (afterMarks ⟨none, false⟩ (c :: cs)).taken - e.overshoot + 1 := by omega
  have htaken : ((Number.marked (c :: cs)).shift 1).taken = 1 + (afterMarks ⟨none, false⟩ (c :: cs)).taken := rfl
  rw [htaken, hsub, List.take_succ_cons]
  refine ⟨by rw [List.length_cons]; omega, ?_⟩
  generalize (c :: cs).take _ = u at hread ⊢
  refine @completable_token _ s .number true hs ?_
  rw [List.cons_append]
  cases hus : u ++ s with
  | nil =>
    rw [hus] at hread
    cases hread
  | cons d t =>
    rw [hus] at hread
    have hd := isSome_of_afterMarks (congrArg Reading.error? hread)
    have hfirst : first ('#' :: d :: t) = markedNumber (d :: t) := hash_marker hd t
    rw [hfirst, markedNumber, Number.marked, hread, Reading.shift_accept, List.length_cons, Nat.add_comm]
    rfl

end

/-! ## Any lexeme -/

theorem mends_hash : ∀ cs : List Char, Mends ('#' :: cs) (hash cs)
  | [] => mends_invalid rfl (Nat.succ_pos 0) completable_nil
  | c :: cs => by
    obtain ⟨rule, hrule, heq⟩ := exists_hashLeads c
    rw [heq]
    cases hrule with
    | bar hc => subst hc; exact mends_blockComment cs
    | bang hc => subst hc; exact mends_directive cs
    | backslash hc => subst hc; exact mends_character cs
    | openParen => trivial
    | semicolon => trivial
    | marker hc => exact mends_markedNumber hc cs
    | word => exact mends_hashWord (c :: cs)
    | other => exact mends_invalid rfl (Nat.succ_lt_succ (Nat.succ_pos _)) completable_hash

theorem escape_le (q : Char) (cs : List Char) : (escape q cs).taken ≤ cs.length := by
  cases cs with
  | nil => exact Nat.le_refl _
  | cons c cs =>
    have hhex := Text.run_le isHexDigit cs
    have hblank := Text.run_le isInlineWhitespace cs
    have hmore := Text.oneMore_le (cs.drop (run isHexDigit cs))
    rw [List.length_drop] at hmore
    simp only [escape, List.length_cons]
    split
    · split
      · exact Nat.succ_le_succ (Nat.zero_le _)
      · split
        · rename_i hsemi
          have hlt : run isHexDigit cs < cs.length := by
            rw [List.head?_drop] at hsemi
            exact (List.getElem?_eq_some_iff.1 hsemi).1
          exact Nat.succ_le_succ hlt
        · simp only [Reading.reject]
          omega
    · split
      · exact Nat.succ_le_succ (Nat.zero_le _)
      · split
        · split
          · exact Nat.succ_le_succ hblank
          · rename_i d rest hdrop
            have hlen := congrArg List.length hdrop
            have hrest := Text.run_le isInlineWhitespace rest
            rw [List.length_drop, List.length_cons] at hlen
            split
            · simp only [Reading.accept]
              omega
            · simp only [Reading.reject]
              omega
        · split
          · simp only [Reading.accept]
            omega
          · exact Nat.succ_le_succ (Nat.zero_le _)

theorem enclosed_le (q : Char) : ∀ cs : List Char, (enclosed q cs).taken ≤ cs.length
  | [] => by rw [enclosed_nil]; exact Nat.le_refl _
  | c :: cs => by
    have hescape := escape_le q cs
    have hlen : (cs.drop (escape q cs).taken).length < (c :: cs).length := by
      rw [List.length_drop, List.length_cons]
      omega
    have hbehind := enclosed_le q (cs.drop (escape q cs).taken)
    have hnext := enclosed_le q cs
    rw [List.length_drop] at hbehind
    rw [enclosed_cons, List.length_cons]
    split
    · exact Nat.succ_le_succ (Nat.zero_le _)
    · split
      · split
        · rw [Reading.taken_shift]
          omega
        · rw [Reading.taken_shift]
          omega
      · rw [Reading.taken_shift]
        omega
termination_by cs => cs.length

theorem mends_enclosed {kind : Kind} {q : Char} (hq : isInlineWhitespace q = false) (hq' : q ≠ '\n')
    (hascii : q.toNat < 0x80) (hbs : q ≠ '\\')
    (hrule : ∀ t, first (q :: t) = ofReading kind false ((enclosed q t).shift 1)) (cs : List Char) :
    Mends (q :: cs) (ofReading kind false ((enclosed q cs).shift 1)) := by
  refine ofReading_induction (fun _ => trivial) fun e he => Or.inr ?_
  have hle := enclosed_le q cs
  have hover : e.overshoot = 1 := by rcases enclosed_errors cs e he with rfl | rfl <;> rfl
  rw [Reading.taken_shift, hover, Nat.add_comm, Nat.add_sub_cancel]
  refine ⟨Nat.succ_le_succ hle, ?_⟩
  cases htaken : (enclosed q cs).taken with
  | zero => exact completable_nil
  | succ k =>
    have hshort : (cs.take k).length < (enclosed q cs).taken := by
      rw [List.length_take]
      omega
    obtain ⟨s, hs, hread⟩ := enclosed_mends hq hq' hascii hbs (List.take_prefix k cs) hshort
    refine @completable_token _ s kind false hs ?_
    rw [List.take_succ_cons, List.cons_append, hrule, hread, Reading.shift_accept, List.length_cons, Nat.add_comm]
    rfl

theorem mends_punctuation (c : Char) (cs : List Char) : Mends (c :: cs) (punctuation c) := by
  unfold punctuation
  split
  · trivial
  · exact mends_invalid rfl (Nat.succ_pos _) completable_nil

/-- **An error shows in the last character taken**: without it, or without the last two where the error is about a
marker, the text may be completed. -/
theorem mends_first (c : Char) (cs : List Char) : Mends (c :: cs) (first (c :: cs)) := by
  obtain ⟨rule, hrule, heq⟩ := exists_leads c
  rw [heq]
  cases hrule with
  | initial => trivial
  | whitespace => trivial
  | digit => exact mends_number _
  | bar hc =>
    subst hc
    exact mends_enclosed (by decide) (by decide) (by decide) (by decide) heq cs
  | doubleQuote hc =>
    subst hc
    exact mends_enclosed (by decide) (by decide) (by decide) (by decide) heq cs
  | comma => exact iteInduction (fun _ => trivial) fun _ => trivial
  | semicolon => trivial
  | hash hc => subst hc; exact mends_hash cs
  | dot hc => subst hc; exact mends_dot cs
  | sign hs => exact mends_signed hs cs
  | punctuation => exact mends_punctuation c cs

end Lexeme
end SchemeLexer
