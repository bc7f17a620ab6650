import SchemeLexer.Checked.Lexeme
import SchemeLexer.Proofs.Checked.Number
/-!
# Checked/Lexeme — lexemes read without a fault

`Makes` compares a rule run on a cursor with a lexeme: the step it comes to, how far it has read and where the mark is.
`makes_scanToken` is the comparison for all rules: run on the cursor, they find the lexeme at the head of the text ahead,
and no operation faults.
-/
namespace SchemeLexer

open Text (run oneMore)

namespace Checked

/-! ## Steps and lexemes -/

/-- The state behind a token. -/
def State.after (owing : Bool) : State := if owing then .delimiter else .start

/-- The step that a lexeme comes to. -/
def Step.ofLexeme : Lexeme → Step
  | .skip _ => .skip .start
  | .token kind _ owing => .emit kind (.after owing)
  | .invalid e _ => .fail e
  | .done => .emit .endOfInput .exhausted

/-- Where the mark is behind a lexeme that stands at `p`: only what is skipped is given up. -/
def markBehind (p : Place) : Lexeme → Place
  | .skip n => p.advance n
  | _ => p

/-- The run makes this lexeme of the text at `p`. -/
def Makes (x : Except Fault (Step × Cursor)) (p : Place) (l : Lexeme) : Prop :=
  ∃ d, x = .ok (.ofLexeme l, d) ∧ d.pos = p.advance l.length ∧ d.mark = markBehind p l

variable {source : List UInt8} {p : Place} {k n : Nat} {cs ds : List Char} {c d : Cursor}

namespace Makes

theorem closed (h : At p k cs c) (kind : Kind) (hn : k = n) : Makes (.ok (.emit kind .start, c)) p (.closed kind n) :=
  ⟨c, rfl, hn ▸ h.pos, h.mark⟩

theorem word (h : At p k cs c) (kind : Kind) (hn : k = n) : Makes (.ok (.emit kind .delimiter, c)) p (.word kind n) :=
  ⟨c, rfl, hn ▸ h.pos, h.mark⟩

theorem invalid (h : At p k cs c) (e : ScanError) (hn : k = n) : Makes (.ok (.fail e, c)) p (.invalid e n) :=
  ⟨c, rfl, hn ▸ h.pos, h.mark⟩

theorem skip (h : At p k cs c) (hn : k = n) : Makes (.ok (.skip .start, c.ignore)) p (.skip n) :=
  ⟨c.ignore, rfl, hn ▸ h.pos, hn ▸ h.pos⟩

/-- A rule that looks at what the grammar looks at. -/
theorem ite {q : Prop} [Decidable q] {x y : Except Fault (Step × Cursor)} {l m : Lexeme} (hx : q → Makes x p l)
    (hy : ¬ q → Makes y p m) : Makes (if q then x else y) p (if q then l else m) := by
  by_cases h : q
  · rw [if_pos h, if_pos h]
    exact hx h
  · rw [if_neg h, if_neg h]
    exact hy h

/-- A rule that answers with a reading. -/
theorem of_reads {x : Except Fault (Step × Cursor)} {kind : Kind} {r : Reading} (owing : Bool)
    (h : Reads x p k cs r.taken (.ofError? kind (.after owing) r.error?)) :
    Makes x p (.ofReading kind owing (r.shift k)) := by
  obtain ⟨d, hx, hd⟩ := h
  obtain ⟨taken, e?⟩ := r
  cases e? with
  | none => exact ⟨d, hx, hd.pos, hd.mark⟩
  | some e => exact ⟨d, hx, hd.pos, hd.mark⟩

end Makes

theorem reads_ofError? {x : Except Fault (Option ScanError × Cursor)} {e? : Option ScanError} (h : Reads x p k cs n e?)
    (kind : Kind) (next : State) :
    Reads (do
      let (e?, d) ← x
      .ok (Step.ofError? kind next e?, d)) p k cs n (.ofError? kind next e?) := by
  obtain ⟨d, rfl, hd⟩ := h
  exact ⟨d, rfl, hd⟩

/-! ## Words -/

theorem wordKind_eq {text : List UInt8} {x : Char} {w : List Char} (h : Utf8.chars text = x :: w) :
    wordKind text = if isSign x ∧ Lexeme.isSignedNumber w then .number else .identifier := by
  cases hx : isSign x with
  | true =>
    have hcases : x = '+' ∨ x = '-' := by simpa [isSign] using hx
    rcases hcases with rfl | rfl
    · obtain ⟨word, rfl, rfl⟩ := Utf8.exists_cons_of_chars (by decide) h
      simp [wordKind]
    · obtain ⟨word, rfl, rfl⟩ := Utf8.exists_cons_of_chars (by decide) h
      simp [wordKind]
  | false =>
    cases text with
    | nil => cases h
    | cons b bs =>
      have hb : ¬ (b = 0x2B ∨ b = 0x2D) := by
        rintro (rfl | rfl)
        · obtain rfl : '+' = x := (List.cons.inj (h.symm.trans (Utf8.chars_cons ..))).1.symm
          cases hx
        · obtain rfl : '-' = x := (List.cons.inj (h.symm.trans (Utf8.chars_cons ..))).1.symm
          cases hx
      simp [wordKind, hb]

/-- The rest of a word of which `k` characters have been read. -/
theorem makes_identifier (hp : p.Within source) (h : At p k cs c) {x : Char} {w : List Char}
    (hw : p.ahead.take (k + run isSubsequent cs) = x :: w) :
    Makes (identifier source c) p
      (.word (if isSign x ∧ Lexeme.isSignedNumber w then .number else .identifier) (k + run isSubsequent cs)) := by
  obtain ⟨d, hd, hrun⟩ := h.acceptWhile isSubsequent
  have hchars : Utf8.chars (p.slice (p.advance (k + run isSubsequent cs))) = x :: w := (Place.chars_slice _ p).trans hw
  simp only [identifier, hd, hrun.lit hp, ok_bind, wordKind_eq hchars]
  exact .word hrun _ rfl

/-- A word that is no signed number. -/
theorem makes_identifier_of (hp : p.Within source) (h : At p (k + 1) cs c) {x : Char} {w : List Char}
    (hahead : p.ahead = x :: w)
    (hw : ¬ (isSign x = true ∧ Lexeme.isSignedNumber (w.take (k + run isSubsequent cs)) = true)) :
    Makes (identifier source c) p (Lexeme.identifier (k + 1) cs) := by
  have htake : p.ahead.take (k + 1 + run isSubsequent cs) = x :: w.take (k + run isSubsequent cs) := by
    rw [hahead, Nat.add_right_comm, List.take_succ_cons]
  have hmakes := makes_identifier hp h htake
  rwa [if_neg hw] at hmakes

theorem makes_number (h : At p 0 p.ahead c) : Makes (number c) p (Lexeme.number p.ahead) := by
  have hreads := reads_ofError? (reads_scanComplex (r := .decimal) h) .number .delimiter
  have hmakes := Makes.of_reads true hreads
  rwa [Reading.shift, Nat.zero_add] at hmakes

theorem makes_dot (hp : p.Within source) (hahead : p.ahead = '.' :: cs) (h : At p 1 cs c) :
    Makes (dot source c) p (Lexeme.dot cs) := by
  cases cs with
  | nil =>
    obtain ⟨d, hd, -, hback⟩ := h.next_nil
    simp only [dot, hd]
    exact .closed hback .dot rfl
  | cons y cs =>
    obtain ⟨d, hd, hnext, hback⟩ := h.next_cons
    simp only [dot, hd, Lexeme.dot]
    exact .ite (fun _ => .closed hback .dot rfl) fun _ =>
      .ite (fun _ => makes_identifier_of (k := 1) hp hnext hahead (by simp [isSign])) fun _ =>
      .ite (fun _ => hahead ▸ makes_number hnext.rewind) fun _ => .invalid hnext .invalidAfterDot rfl

theorem not_isSignedNumber_dot (w : List Char) : Lexeme.isSignedNumber ('.' :: w) = false := by
  have hi : Caseless.fold '.' ≠ Caseless.fold 'i' := by decide
  have hn : Caseless.fold '.' ≠ Caseless.fold 'n' := by decide
  simp [Lexeme.isSignedNumber, Lexeme.signedNumbers, Caseless.sameWord, Number.infinity, Number.notANumber, hi, hn]

theorem makes_signDot (hp : p.Within source) {x : Char} (hahead : p.ahead = x :: '.' :: cs) (h : At p 2 cs c) :
    Makes (signDot source c) p (Lexeme.signDot x cs) := by
  cases cs with
  | nil =>
    obtain ⟨d, hd, hat, -⟩ := h.next_nil
    simp only [signDot, hd]
    exact .invalid hat .invalidAfterDot rfl
  | cons y cs =>
    obtain ⟨d, hd, hnext, -⟩ := h.next_cons
    have hword : ¬ (isSign x = true ∧
        Lexeme.isSignedNumber (('.' :: y :: cs).take (2 + run isSubsequent cs)) = true) := by
      rw [Nat.add_comm, List.take_succ_cons, not_isSignedNumber_dot]
      exact fun hw => Bool.false_ne_true hw.2
    simp only [signDot, hd, Lexeme.signDot]
    exact .ite (fun _ => hahead ▸ makes_number hnext.rewind) fun _ =>
      .ite (fun _ => makes_identifier_of (k := 2) hp hnext hahead hword) fun _ => .invalid hnext .invalidAfterDot rfl

/-- A word behind a sign, its first character read. -/
theorem makes_signedWord (hp : p.Within source) {x y : Char} (hx : isSign x = true) (hy : isSignSubsequent y = true)
    (hahead : p.ahead = x :: y :: cs) (h : At p 2 cs c) :
    Makes (identifier source c) p (Lexeme.signedWord (y :: cs)) := by
  have hrun : run isSubsequent (y :: cs) = run isSubsequent cs + 1 := by
    rw [Text.run_cons, if_pos (Lexeme.isSubsequent_of_isSignSubsequent hy)]
  have htake : p.ahead.take (2 + run isSubsequent cs) = x :: (y :: cs).take (run isSubsequent (y :: cs)) := by
    rw [hahead, hrun, Nat.add_comm, List.take_succ_cons]
  have hmakes := makes_identifier hp h htake
  rw [hrun, Nat.add_comm 2] at hmakes
  simpa only [hx, true_and, Lexeme.signedWord, hrun] using hmakes

theorem makes_sign (hp : p.Within source) {x : Char} (hx : isSign x = true) (hahead : p.ahead = x :: cs)
    (h : At p 1 cs c) : Makes (sign source x c) p (Lexeme.signed x cs) := by
  cases cs with
  | nil =>
    obtain ⟨d, hd, -, hback⟩ := h.next_nil
    simp only [sign, hd]
    exact .closed hback .identifier rfl
  | cons y cs =>
    obtain ⟨d, hd, hnext, hback⟩ := h.next_cons
    simp only [sign, hd, Lexeme.signed]
    exact .ite (fun _ => .closed hback .identifier rfl) fun _ =>
      .ite (fun hy => makes_signDot hp (hy ▸ hahead) hnext) fun _ =>
      .ite (fun _ => hahead ▸ makes_number hnext.rewind) fun _ =>
      .ite (fun hy => makes_signedWord hp hx hy hahead hnext) fun _ => .invalid hnext _ rfl

/-! ## Enclosed text -/

theorem reads_escape_hex (q : Char) (h : At p k ('x' :: cs) c) : Reads (.ok (escape q c)) p k ('x' :: cs)
    (Lexeme.escape q ('x' :: cs)).taken (Lexeme.escape q ('x' :: cs)).isOk := by
  obtain ⟨d, hd, hnext, -⟩ := h.next_cons
  obtain ⟨e, he, hrun⟩ := hnext.acceptWhile isHexDigit
  obtain ⟨f, hf, hend, -⟩ := hrun.next
  simp only [escape, hd, he, hf, Lexeme.escape, if_true]
  by_cases hzero : run isHexDigit cs = 0
  · rw [if_pos hzero, if_pos hzero]
    exact .of_at h.rest hrun (by rw [hzero]; rfl)
  · rw [if_neg hzero, if_neg hzero]
    by_cases hsemicolon : (cs.drop (run isHexDigit cs)).head? = some ';'
    · obtain ⟨rest, hrest⟩ := List.head?_eq_some_iff.1 hsemicolon
      simp only [hrest, Text.oneMore_cons, List.head?_cons, if_true] at hend ⊢
      exact .of_at h.rest hend (by simp only [Reading.accept]; omega)
    · simp only [hsemicolon, if_false]
      exact .of_at h.rest hend (by simp only [Reading.reject]; omega)

/-- A line end inside enclosed text, with blanks in front of it. -/
theorem reads_escape_blanks {q x : Char} (hx : x ≠ 'x') (hl : ¬ (Lexeme.isEscapeLetter x = true ∨ x = q))
    (hb : isInlineWhitespace x = true) (h : At p k (x :: cs) c) : Reads (.ok (escape q c)) p k (x :: cs)
      (Lexeme.escape q (x :: cs)).taken (Lexeme.escape q (x :: cs)).isOk := by
  obtain ⟨d, hd, hnext, -⟩ := h.next_cons
  obtain ⟨e, he, hrun⟩ := hnext.acceptWhile isInlineWhitespace
  simp only [escape, hd, he, Lexeme.escape, if_neg hx, if_neg hl, if_pos hb]
  cases hrest : cs.drop (run isInlineWhitespace cs) with
  | nil =>
    rw [hrest] at hrun
    obtain ⟨f, hf, hat, -⟩ := hrun.next_nil
    simp only [hf]
    exact .of_at h.rest hat (by simp only [Reading.reject]; omega)
  | cons y rest =>
    rw [hrest] at hrun
    obtain ⟨f, hf, hend, -⟩ := hrun.next_cons
    simp only [hf, Option.some.injEq]
    split
    · obtain ⟨g, hg, hblanks⟩ := hend.acceptWhile isInlineWhitespace
      simp only [hg]
      exact .of_at h.rest hblanks (by simp only [Reading.accept]; omega)
    · exact .of_at h.rest hend (by simp only [Reading.reject]; omega)

theorem reads_escape (q : Char) (h : At p k cs c) :
    Reads (.ok (escape q c)) p k cs (Lexeme.escape q cs).taken (Lexeme.escape q cs).isOk := by
  cases cs with
  | nil =>
    obtain ⟨d, hd, hat, -⟩ := h.next_nil
    simp only [escape, hd]
    exact .of_at h.rest hat rfl
  | cons x cs =>
    by_cases hx : x = 'x'
    · subst hx
      exact reads_escape_hex q h
    · by_cases hl : Lexeme.isEscapeLetter x = true ∨ x = q
      · obtain ⟨d, hd, hnext, -⟩ := h.next_cons
        simp only [escape, hd, Lexeme.escape, if_neg hx, if_pos hl]
        exact .of_at h.rest hnext rfl
      · by_cases hb : isInlineWhitespace x = true
        · exact reads_escape_blanks hx hl hb h
        · obtain ⟨d, hd, hnext, -⟩ := h.next_cons
          obtain ⟨e, he, hrun⟩ := hnext.acceptWhile isInlineWhitespace
          simp only [escape, hd, he, Lexeme.escape, if_neg hx, if_neg hl, if_neg hb]
          split
          · exact .of_at h.rest hrun (by simp only [Reading.accept]; omega)
          · exact .of_at h.rest hnext rfl

theorem error?_of_not_isOk {q : Char} (h : (Lexeme.escape q cs).isOk = false) :
    (Lexeme.escape q cs).error? = some .invalidEscape := by
  rcases Lexeme.error?_escape q cs with hnone | hsome
  · rw [Reading.isOk, hnone] at h
    cases h
  · exact hsome

/-- **Enclosed text is read as far as its rule says.** -/
theorem reads_quoted (q : Char) (kind : Kind) {k : Nat} {cs : List Char} {c : Cursor} (h : At p k cs c) :
    Reads (quoted q kind c) p k cs (Lexeme.enclosed q cs).taken
      (.ofError? kind .start (Lexeme.enclosed q cs).error?) := by
  match cs, h with
  | [], h =>
    obtain ⟨d, hd, hat, -⟩ := h.next_nil
    rw [quoted, hd, Lexeme.enclosed_nil]
    exact .of_at h.rest hat rfl
  | x :: cs, h =>
    obtain ⟨d, hd, hnext, -⟩ := h.next_cons
    rw [quoted, hd, Lexeme.enclosed_cons]
    simp only
    split
    · exact .of_at h.rest hnext rfl
    · split
      · obtain ⟨e, he, hescape⟩ := reads_escape q hnext
        rw [Except.ok.inj he]
        cases hok : (Lexeme.escape q cs).isOk with
        | true =>
          simp only [if_true]
          rw [h.again hescape, Reading.taken_shift, Nat.add_assoc]
          exact (reads_quoted q kind hescape).behind.behind
        | false =>
          simp only [Bool.false_eq_true, if_false, Reading.error?_shift, error?_of_not_isOk hok]
          exact .of_at h.rest hescape (by simp only [Reading.taken_shift]; omega)
      · rw [h.again (n := 0) hnext]
        exact (reads_quoted q kind hnext).behind
termination_by cs.length
decreasing_by all_goals simp only [List.length_cons, List.length_drop]; omega

/-! ## Comments -/

theorem makes_lineComment (h : At p k cs c) : Makes (lineComment c) p (.skip (k + Lexeme.lineComment cs)) := by
  induction cs generalizing k c with
  | nil =>
    obtain ⟨d, hd, hat, -⟩ := h.next_nil
    rw [lineComment, hd]
    exact .skip hat rfl
  | cons x cs ih =>
    obtain ⟨d, hd, hnext, -⟩ := h.next_cons
    rw [lineComment, hd]
    by_cases hx : x = '\n'
    · simp only [if_pos hx]
      exact .skip hnext (by simp [Lexeme.lineComment, Text.run_cons, hx])
    · have hlength : k + Lexeme.lineComment (x :: cs) = k + 1 + Lexeme.lineComment cs := by
        simp [Lexeme.lineComment, Text.run_cons, hx]
        omega
      simp only [if_neg hx]
      rw [h.again (n := 0) hnext, hlength]
      exact ih hnext

/-- How many comments can be open where `n` characters have been read: each took two to open, and half of another
pair is a character too. -/
def Bounded (s : Lexeme.Nesting) (n : Nat) : Prop := 2 * s.depth + (if s.half = .neither then 0 else 1) ≤ 2 + n

theorem Bounded.step {s : Lexeme.Nesting} (h : Bounded s n) (x : Char) : Bounded (s.step x) (n + 1) := by
  obtain ⟨depth, half⟩ := s
  unfold Bounded at h ⊢
  unfold Lexeme.Nesting.step
  by_cases hhash : x = '#'
  · cases half <;> simp [hhash] at h ⊢ <;> omega
  · by_cases hbar : x = '|'
    · cases half <;> simp [hbar] at h ⊢ <;> omega
    · cases half <;> simp [hhash, hbar] at h ⊢ <;> omega

theorem Bounded.depth_le {s : Lexeme.Nesting} (h : Bounded s n) : s.depth ≤ 1 + n / 2 := by
  unfold Bounded at h
  omega

/-- **What is closed is open.** -/
theorem turn_eq_step {s : Lexeme.Nesting} (h : s.depth ≠ 0) (x : Char) : turn s x = .ok (s.step x) := by
  unfold turn Lexeme.Nesting.step
  rw [if_neg h]
  repeat' split
  all_goals rfl

theorem makes_nestedComment {s : Lexeme.Nesting} (hs : Bounded s n) (h : At p k cs c) :
    Makes (nestedComment s n c) p
      (match s.closing? cs with
        | some m => .skip (m + k)
        | none => .invalid .unexpectedEof (cs.length + k)) := by
  induction cs generalizing k c s n with
  | nil =>
    obtain ⟨d, hd, hat, -⟩ := h.next_nil
    rw [nestedComment, Lexeme.Nesting.closing?]
    by_cases hdepth : s.depth = 0
    · simp only [if_pos hdepth]
      exact .skip h (Nat.zero_add k).symm
    · simp only [if_neg hdepth, hd]
      exact .invalid hat .unexpectedEof (Nat.zero_add k).symm
  | cons x cs ih =>
    obtain ⟨d, hd, hnext, -⟩ := h.next_cons
    rw [nestedComment, Lexeme.Nesting.closing?]
    by_cases hdepth : s.depth = 0
    · simp only [if_pos hdepth]
      exact .skip h (Nat.zero_add k).symm
    · have hmakes := ih (hs.step x) hnext
      simp only [if_neg hdepth, hd, turn_eq_step hdepth, if_pos (hs.step x).depth_le]
      rw [h.again (n := 0) hnext]
      cases hclose : (s.step x).closing? cs with
      | none => simpa [hclose, Nat.add_assoc, Nat.add_comm 1] using hmakes
      | some m => simpa [hclose, Nat.add_assoc, Nat.add_comm 1] using hmakes

theorem makes_blockComment (h : At p 2 cs c) : Makes (nestedComment .opened 0 c) p (Lexeme.blockComment cs) :=
  makes_nestedComment (by simp [Bounded, Lexeme.Nesting.opened]) h

/-! ## What a hash sign begins -/

theorem makes_directive (h : At p 2 cs c) : Makes (.ok (directive c)) p (Lexeme.directive cs) := by
  cases cs with
  | nil =>
    obtain ⟨d, hd, hat, -⟩ := h.next_nil
    simp only [directive, hd]
    exact .invalid hat .invalidDirective rfl
  | cons x cs =>
    obtain ⟨d, hd, hnext, -⟩ := h.next_cons
    simp only [directive, hd, Lexeme.directive]
    split
    · obtain ⟨e, he, hrun⟩ := hnext.acceptWhile isSubsequent
      simp only [he]
      exact .word hrun .directive rfl
    · exact .invalid hnext .invalidDirective rfl

theorem makes_character (h : At p 2 cs c) : Makes (.ok (character c)) p (Lexeme.character cs) := by
  cases cs with
  | nil =>
    obtain ⟨d, hd, hat, -⟩ := h.next_nil
    simp only [character, hd]
    exact .invalid hat .unexpectedEof rfl
  | cons x cs =>
    obtain ⟨d, hd, hnext, -⟩ := h.next_cons
    cases cs with
    | nil =>
      obtain ⟨e, he, -, hback⟩ := hnext.next_nil
      simp only [character, hd, he]
      exact .closed hback .character rfl
    | cons y cs =>
      obtain ⟨e, he, hnext', hback⟩ := hnext.next_cons
      simp only [character, hd, he, Lexeme.character]
      split
      · exact .closed hback .character rfl
      · split
        · obtain ⟨f, hf, hrun⟩ := hnext'.acceptWhile isHexDigit
          simp only [hf]
          exact .word hrun .character rfl
        · split
          · obtain ⟨f, hf, hrun⟩ := hnext'.acceptWhile isSubsequent
            simp only [hf]
            exact .word hrun .character rfl
          · exact .invalid hnext' .invalidCharacter rfl

/-- **The word behind a hash sign is what follows the first byte.** -/
theorem makes_hashWord (hp : p.Within source) {x : Char} (hx : isInitial x = true) (hahead : p.ahead = '#' :: x :: cs)
    (h : At p 2 cs c) : Makes (hashWord source c) p (Lexeme.hashWord (x :: cs)) := by
  obtain ⟨d, hd, hrun⟩ := h.acceptWhile isSubsequent
  have hlength : run isSubsequent (x :: cs) = run isSubsequent cs + 1 := by
    rw [Text.run_cons, if_pos (isSubsequent_of_isInitial hx)]
  have htext : Utf8.chars (p.slice (p.advance (2 + run isSubsequent cs))) =
      '#' :: (x :: cs).take (run isSubsequent (x :: cs)) := by
    rw [Place.chars_slice, hahead, hlength, Nat.add_comm, List.take_succ_cons]
  obtain ⟨word, hslice, hword⟩ := Utf8.exists_cons_of_chars (by decide) htext
  rw [hlength] at hword
  simp only [hashWord, hd, hrun.lit hp, ok_bind, hslice, dropFirst, hword, Lexeme.hashWord, hlength, List.drop_succ_cons]
  split
  · exact .word hrun .boolean (by omega)
  · split
    · obtain ⟨e, he, hparen, -⟩ := hrun.next
      simp only [he]
      by_cases hopen : (cs.drop (run isSubsequent cs)).head? = some '('
      · obtain ⟨rest, hrest⟩ := List.head?_eq_some_iff.1 hopen
        simp only [hrest, Text.oneMore_cons, List.head?_cons, if_true] at hparen ⊢
        exact .closed hparen .openByteVector (by omega)
      · simp only [if_neg hopen]
        exact .invalid hparen .expectedOpenParen (by omega)
    · exact .invalid hrun .invalidHashWord (by omega)

theorem isSome_ofChar? (x : Char) : (Number.Marker.ofChar? x).isSome = true ↔
    isDesignator (Caseless.fold x) = true ∨ Caseless.fold x = 'e' ∨ Caseless.fold x = 'i' := by
  rw [← isSome_ofDesignator?]
  unfold Number.Marker.ofChar?
  cases Radix.ofDesignator? x with
  | some r => simp
  | none => by_cases h : Caseless.fold x = 'e' ∨ Caseless.fold x = 'i' <;> simp [h]

/-- **Every letter that is taken for a marker is one**, the capitals included. -/
theorem contains_markerLetters (x : Char) : markerLetters.contains x = (Number.Marker.ofChar? x).isSome := by
  have hfold : ∀ {d : Char}, 97 ≤ d.toNat ∧ d.toNat ≤ 122 →
      (Caseless.fold x = d ↔ x.toNat = d.toNat ∨ x.toNat + 32 = d.toNat) := Caseless.fold_eq_iff
  rw [Bool.eq_iff_iff, isSome_ofChar?]
  simp only [isDesignator, Bool.or_eq_true, decide_eq_true_eq]
  rw [hfold (d := 'b') (by decide),
    hfold (d := 'o') (by decide), hfold (d := 'd') (by decide), hfold (d := 'x') (by decide),
    hfold (d := 'e') (by decide), hfold (d := 'i') (by decide)]
  simp only [markerLetters, List.contains_iff_mem, List.mem_cons, List.not_mem_nil, or_false, ← Char.toNat_inj]
  simp
  omega

theorem makes_markedNumber (h : At p 1 cs c) :
    Makes (do
      let (e?, d) ← scanPrefixed ⟨none, false⟩ c
      .ok (.ofError? .number .delimiter e?, d)) p (Lexeme.markedNumber cs) :=
  Makes.of_reads true (reads_ofError? (reads_scanPrefixed h .nil) .number .delimiter)

theorem makes_hash (hp : p.Within source) (hahead : p.ahead = '#' :: cs) (h : At p 1 cs c) :
    Makes (hash source c) p (Lexeme.hash cs) := by
  cases cs with
  | nil =>
    obtain ⟨d, hd, hat, -⟩ := h.next_nil
    simp only [hash, hd]
    exact .invalid hat .unexpectedEof rfl
  | cons x cs =>
    obtain ⟨d, hd, hnext, hback⟩ := h.next_cons
    simp only [hash, hd, Lexeme.hash]
    rw [contains_markerLetters]
    exact .ite (fun _ => makes_blockComment hnext) fun _ =>
      .ite (fun _ => makes_directive hnext) fun _ =>
      .ite (fun _ => makes_character hnext) fun _ =>
      .ite (fun _ => .closed hnext .openVector rfl) fun _ =>
      .ite (fun _ => .closed hnext .commentDatum rfl) fun _ =>
      .ite (fun _ => makes_markedNumber hback) fun _ =>
      .ite (fun hx => makes_hashWord hp hx hahead hnext) fun _ => .invalid hnext .invalidAfterHash rfl

/-! ## The first character -/

theorem not_isSign_of_isInitial {x : Char} (h : isInitial x = true) : ¬ isSign x = true := by
  intro hx
  have hcases : x = '+' ∨ x = '-' := by simpa [isSign] using hx
  rcases hcases with rfl | rfl
  · exact absurd h (by decide)
  · exact absurd h (by decide)

theorem makes_comma (h : At p 1 cs c) : Makes (.ok (comma c)) p (Lexeme.comma cs) := by
  cases cs with
  | nil =>
    obtain ⟨d, hd, hat⟩ := h.accept_nil ['@']
    simp only [comma, hd]
    exact .closed hat .comma rfl
  | cons x cs =>
    by_cases hx : x = '@'
    · obtain ⟨d, hd, hnext⟩ := h.accept_pos ['@'] (by simp [hx])
      simp only [comma, hd, Lexeme.comma, hx]
      exact .closed hnext .commaAt rfl
    · obtain ⟨d, hd, hat⟩ := h.accept_neg ['@'] (by simp [hx])
      simp only [comma, hd, Lexeme.comma, List.head?_cons, Option.some.injEq, hx]
      exact .closed hat .comma rfl

theorem makes_punctuation (h : At p 1 cs c) (x : Char) :
    Makes (match Lexeme.punctuation? x with
      | some kind => .ok (.emit kind .start, c)
      | none => .ok (.fail .illegalCharacter, c)) p (Lexeme.punctuation x) := by
  unfold Lexeme.punctuation
  cases Lexeme.punctuation? x with
  | some kind => exact .closed h kind rfl
  | none => exact .invalid h .illegalCharacter rfl

/-- **The rules run on a cursor make the lexeme at the head of the text**, and no operation faults. -/
theorem makes_scanToken (hp : p.Within source) (h : At p 0 cs c) : Makes (scanToken source c) p (Lexeme.first cs) := by
  have hahead : p.ahead = cs := h.rest
  cases cs with
  | nil =>
    obtain ⟨d, hd, hat, -⟩ := h.next_nil
    simp only [scanToken, hd]
    exact ⟨d, rfl, hat.pos, hat.mark⟩
  | cons x cs =>
    obtain ⟨d, hd, hnext, hback⟩ := h.next_cons
    have hinitial : isInitial x = true → Makes (identifier source d) p (Lexeme.identifier 1 cs) := fun hx =>
      makes_identifier_of (k := 0) hp hnext hahead fun hw => not_isSign_of_isInitial hx hw.1
    have hline := makes_lineComment hnext
    rw [Nat.zero_add, Nat.add_comm] at hline
    simp only [scanToken, hd, Lexeme.first]
    exact .ite hinitial fun _ =>
      .ite (fun _ => .skip hnext rfl) fun _ =>
      .ite (fun _ => hahead ▸ makes_number (hahead ▸ hback)) fun _ =>
      .ite (fun _ => .of_reads false (reads_quoted '|' .identifier hnext)) fun _ =>
      .ite (fun _ => .of_reads false (reads_quoted '"' .string hnext)) fun _ =>
      .ite (fun _ => makes_comma hnext) fun _ =>
      .ite (fun _ => hline) fun _ =>
      .ite (fun hx => makes_hash hp (hx ▸ hahead) hnext) fun _ =>
      .ite (fun hx => makes_dot hp (hx ▸ hahead) hnext) fun _ =>
      .ite (fun hx => makes_sign hp hx hahead hnext) fun _ => makes_punctuation hnext x

end Checked
end SchemeLexer
