import SchemeLexer.Proofs.Extent
import SchemeLexer.Proofs.Number.Folding
import SchemeLexer.Proofs.Tiling
/-!
# Folding — a source whatever the case of its letters

Two sources that differ in the case of letters have the same tokens, but for what the tokens say: kinds, places and
error are the same.  Behind a backslash the case of a letter matters, and there the sources have to agree (`Alike`).

Every rule but the one for enclosed text is blind to case in all of its text.  `first_alike` says that the lexemes of
two texts that are alike are the same, and `Scans.alike` carries it from place to place.
-/
namespace SchemeLexer

open Caseless (fold sameWord)
open Text (run)
open Utf8 (Glyph)

/-- Two texts that differ in the case of letters at most, and not behind a backslash. -/
structure Alike (cs ds : List Char) : Prop where
  folded  : cs.map fold = ds.map fold
  escaped : ∀ i : Nat, cs[i]? = some '\\' → cs[i + 1]? = ds[i + 1]?

theorem Alike.drop {cs ds : List Char} (h : Alike cs ds) (n : Nat) : Alike (cs.drop n) (ds.drop n) where
  folded := by rw [List.map_drop, List.map_drop, h.folded]
  escaped := by
    intro i hi
    rw [List.getElem?_drop] at hi ⊢
    rw [List.getElem?_drop]
    exact h.escaped (n + i) hi

theorem Alike.head {c d : Char} {cs ds : List Char} (h : Alike (c :: cs) (d :: ds)) : fold c = fold d :=
  (List.cons.inj h.folded).1

theorem Alike.tail {c d : Char} {cs ds : List Char} (h : Alike (c :: cs) (d :: ds)) : Alike cs ds := h.drop 1

theorem Alike.behind {d : Char} {cs ds : List Char} (h : Alike ('\\' :: cs) (d :: ds)) : cs.head? = ds.head? := by
  have hnext := h.escaped 0 rfl
  rw [List.head?_eq_getElem?, List.head?_eq_getElem?]
  exact hnext

theorem fold_of_mark {d : Char} (hd : isLetter d = false) : fold d = d := (fold_eq_mark hd d).2 rfl

/-- Only letters differ in case. -/
theorem isLetter_of_fold_eq {c d : Char} (h : fold c = fold d) (hne : c ≠ d) : isLetter c = true := by
  rw [← Char.toNat_inj, Caseless.toNat_fold, Caseless.toNat_fold] at h
  rw [ne_eq, ← Char.toNat_inj] at hne
  rw [isLetter_iff]
  split at h <;> split at h <;> omega

theorem head?_fold_mark {d : Char} (hd : isLetter d = false) : ∀ cs : List Char,
    (cs.map fold).head? = some d ↔ cs.head? = some d
  | [] => Iff.rfl
  | c :: cs => by
    rw [List.map_cons, List.head?_cons, List.head?_cons, Option.some_inj, Option.some_inj, fold_eq_mark hd]

theorem sameWord_fold (w : List Char) : sameWord (w.map fold) = sameWord w := funext fun word => blind_sameWord word w

namespace Lexeme

/-! ## Words -/

theorem blindClass_subsequent : BlindClass isSubsequent := blindClass (by decide)

theorem blindClass_initial : BlindClass isInitial := blindClass (by decide)

theorem blindClass_delimiter : BlindClass isDelimiter := blindClass (by decide)

theorem blindClass_dotSubsequent : BlindClass isDotSubsequent := blindClass (by decide)

theorem blindClass_signSubsequent : BlindClass isSignSubsequent := blindClass (by decide)

theorem blindClass_digit : BlindClass isDigit := Number.blindClass_digit .decimal

theorem blindClass_hexDigit : BlindClass isHexDigit := Number.blindClass_digit .hexadecimal

theorem blindClass_blank : BlindClass isInlineWhitespace := blindClass (by decide)

theorem blind_number : Blind number := by
  intro cs
  rw [number, number, Number.blind_complex]

theorem blind_identifier (n : Nat) : Blind (identifier n) := by
  intro cs
  rw [identifier, identifier, blind_run blindClass_subsequent]

theorem blind_dot : Blind dot
  | [] => rfl
  | c :: cs => by
    have hnumber := blind_number ('.' :: c :: cs)
    rw [List.map_cons, List.map_cons, fold_of_mark (by decide)] at hnumber
    simp only [dot, List.map_cons, blindClass_delimiter c, blindClass_dotSubsequent c, blindClass_digit c,
      blind_identifier 2 cs, hnumber]

theorem blind_isSignedNumber : Blind isSignedNumber := by
  intro w
  rw [isSignedNumber, isSignedNumber, sameWord_fold]

theorem blind_signedWord : Blind signedWord := by
  intro cs
  simp only [signedWord, blind_run blindClass_subsequent cs, ← List.map_take, blind_isSignedNumber (cs.take _)]

section
variable {s : Char} (hs : isSign s = true)
include hs

theorem not_letter_of_sign : isLetter s = false := by
  rcases (Number.isSign_iff s).1 hs with rfl | rfl <;> decide

theorem blind_signDot : Blind (signDot s)
  | [] => rfl
  | c :: cs => by
    have hnumber := blind_number (s :: '.' :: c :: cs)
    rw [List.map_cons, List.map_cons, List.map_cons, fold_of_mark (not_letter_of_sign hs), fold_of_mark (by decide)]
      at hnumber
    simp only [signDot, List.map_cons, blindClass_digit c, blindClass_dotSubsequent c, blind_identifier 3 cs, hnumber]

theorem blind_signed : Blind (signed s)
  | [] => rfl
  | c :: cs => by
    have hnumber := blind_number (s :: c :: cs)
    have hword := blind_signedWord (c :: cs)
    rw [List.map_cons, List.map_cons, fold_of_mark (not_letter_of_sign hs)] at hnumber
    rw [List.map_cons] at hword
    simp only [signed, List.map_cons, blindClass_delimiter c, fold_eq_mark (d := '.') (by decide), blindClass_digit c,
      blindClass_signSubsequent c, blind_signDot hs cs, hnumber, hword]

end

theorem blind_comma : Blind comma := by
  intro cs
  simp only [comma, head?_fold_mark (d := '@') (by decide) cs]

/-! ## Comments -/

theorem blind_lineComment : Blind lineComment := by
  have hline : BlindClass (fun c => decide (c ≠ '\n')) := blindClass (by decide)
  intro cs
  simp only [lineComment, blind_run hline cs, ← List.map_drop, blind_oneMore (cs.drop _)]

theorem step_fold (s : Nesting) (c : Char) : s.step (fold c) = s.step c := by
  simp only [Nesting.step, fold_eq_mark (d := '#') (by decide), fold_eq_mark (d := '|') (by decide)]

theorem blind_closing? : ∀ s : Nesting, Blind s.closing?
  | _, [] => rfl
  | s, c :: cs => by
    simp only [Nesting.closing?, List.map_cons, step_fold, blind_closing? (s.step c) cs]

theorem blind_blockComment : Blind blockComment := by
  intro cs
  simp only [blockComment, blind_closing? .opened cs, List.length_map]

/-! ## Behind a hash sign -/

theorem blind_directive : Blind directive
  | [] => rfl
  | c :: cs => by
    simp only [directive, List.map_cons, blindClass_initial c, blind_run blindClass_subsequent cs]

theorem blind_character : Blind character
  | [] => rfl
  | [_] => rfl
  | c :: d :: cs => by
    have hx : BlindClass (fun c => decide (c = 'x' ∨ c = 'X')) := blindClass (by decide)
    have hx' : (fold c = 'x' ∨ fold c = 'X') ↔ (c = 'x' ∨ c = 'X') := decide_eq_decide.1 (hx c)
    simp only [character, List.map_cons, blindClass_delimiter d, hx', blindClass_hexDigit d, blindClass_initial c,
      blindClass_subsequent d, blind_run blindClass_hexDigit cs, blind_run blindClass_subsequent cs]

theorem blind_hashWord : Blind hashWord := by
  intro cs
  simp only [hashWord, blind_run blindClass_subsequent cs, ← List.map_take, ← List.map_drop, sameWord_fold,
    head?_fold_mark (d := '(') (by decide), blind_oneMore (cs.drop _)]

theorem blind_markedNumber : Blind markedNumber := by
  intro cs
  rw [markedNumber, markedNumber, Number.marked, Number.marked, Number.blind_afterMarks]

theorem blind_hash : Blind hash
  | [] => rfl
  | c :: cs => by
    have hmarked := blind_markedNumber (c :: cs)
    have hword := blind_hashWord (c :: cs)
    rw [List.map_cons] at hmarked hword
    simp only [hash, List.map_cons, fold_eq_mark (d := '|') (by decide), fold_eq_mark (d := '!') (by decide),
      fold_eq_mark (d := '\\') (by decide), fold_eq_mark (d := '(') (by decide), fold_eq_mark (d := ';') (by decide),
      Number.ofChar?_fold, blindClass_initial c, blind_blockComment cs, blind_directive cs, blind_character cs,
      hmarked, hword]

/-! ## Between marks -/

/-- Behind the letter that says what it stands for, an escape sequence is blind to case. -/
theorem blind_escape (q c : Char) : Blind fun cs => escape q (c :: cs) := by
  intro cs
  simp only [escape, blind_run blindClass_hexDigit cs, blind_run blindClass_blank cs, ← List.map_drop,
    head?_fold_mark (d := ';') (by decide), blind_oneMore (cs.drop _)]
  cases cs.drop (run isInlineWhitespace cs) with
  | nil => rfl
  | cons d rest =>
    simp only [List.map_cons, fold_eq_mark (d := '\n') (by decide), blind_run blindClass_blank rest]

theorem escape_alike {q : Char} {cs ds : List Char} (h : Alike cs ds) (hhead : cs.head? = ds.head?) :
    escape q cs = escape q ds := by
  cases cs with
  | nil =>
    cases ds with
    | nil => rfl
    | cons d ds => cases hhead
  | cons c cs =>
    cases ds with
    | nil => cases hhead
    | cons d ds =>
      obtain rfl : c = d := Option.some.inj hhead
      exact (blind_escape q c).eq h.tail.folded

/-- **Enclosed text** is read alike. -/
theorem enclosed_alike {q : Char} (hq : isLetter q = false) : ∀ {cs ds : List Char}, Alike cs ds →
    enclosed q cs = enclosed q ds
  | [], [], _ => rfl
  | [], _ :: _, h => by cases h.folded
  | _ :: _, [], h => by cases h.folded
  | c :: cs, d :: ds, h => by
    have hmark : ∀ {m : Char}, isLetter m = false → (c = m ↔ d = m) := fun hm => by
      rw [← fold_eq_mark hm c, h.head, fold_eq_mark hm d]
    rw [enclosed_cons, enclosed_cons]
    simp only [hmark hq, hmark (m := '\\') (by decide)]
    by_cases hbs : d = '\\'
    · obtain rfl : c = '\\' := (hmark (by decide)).2 hbs
      have hescape := escape_alike (q := q) h.tail h.behind
      have hlen : (cs.drop (escape q ds).taken).length < ('\\' :: cs).length := by
        rw [List.length_drop, List.length_cons]
        omega
      rw [if_pos hbs, if_pos hbs, hescape, enclosed_alike hq (h.tail.drop (escape q ds).taken)]
    · rw [if_neg hbs, if_neg hbs, enclosed_alike hq h.tail]
termination_by cs => cs.length

/-- **Texts that are alike begin with the same lexeme.** -/
theorem first_alike : ∀ {cs ds : List Char}, Alike cs ds → first cs = first ds
  | [], [], _ => rfl
  | [], _ :: _, h => by cases h.folded
  | _ :: _, [], h => by cases h.folded
  | c :: cs, d :: ds, h => by
    have htail := h.tail.folded
    by_cases hcd : c = d
    · subst hcd
      obtain ⟨rule, hrule, heq⟩ := exists_leads c
      rw [heq, heq]
      cases hrule with
      | initial => exact (blind_identifier 1).eq htail
      | whitespace => rfl
      | digit => exact blind_number.eq h.folded
      | bar => simp only [enclosed_alike (q := '|') (by decide) h.tail]
      | doubleQuote => simp only [enclosed_alike (q := '"') (by decide) h.tail]
      | comma => exact blind_comma.eq htail
      | semicolon => simp only [blind_lineComment.eq htail]
      | hash => exact blind_hash.eq htail
      | dot => exact blind_dot.eq htail
      | sign hs => exact (blind_signed hs).eq htail
      | punctuation => rfl
    · -- letters: whatever the case, they begin an identifier
      have hinitial : ∀ {c d : Char}, fold c = fold d → c ≠ d → isInitial c = true := fun hfold hne => by
        rw [isInitial, isLetter_of_fold_eq hfold hne, Bool.true_or]
      rw [first, first, if_pos (hinitial h.head hcd), if_pos (hinitial h.head.symm (Ne.symm hcd))]
      exact (blind_identifier 1).eq htail

end Lexeme

theorem Alike.nil : Alike [] [] := ⟨rfl, fun _ h => by cases h⟩

theorem Alike.cons {c d : Char} {cs ds : List Char} (hfold : fold c = fold d) (h : Alike cs ds)
    (hhead : c = '\\' → cs.head? = ds.head?) : Alike (c :: cs) (d :: ds) where
  folded := by rw [List.map_cons, List.map_cons, hfold, h.folded]
  escaped := by
    intro i hi
    cases i with
    | zero =>
      rw [List.getElem?_cons_succ, List.getElem?_cons_succ, ← List.head?_eq_getElem?, ← List.head?_eq_getElem?]
      exact hhead (Option.some.inj hi)
    | succ i => exact h.escaped i hi

theorem blind_endsToken : Blind fun cs => endsToken cs.head?
  | [] => rfl
  | c :: _ => Lexeme.blindClass_delimiter c

/-! ## Bytes -/

namespace Utf8

/-- A byte with an ASCII capital made small. -/
def lower (b : UInt8) : UInt8 := if 0x41 ≤ b ∧ b ≤ 0x5A then b + 0x20 else b

theorem toNat_lower (b : UInt8) : (lower b).toNat = if 65 ≤ b.toNat ∧ b.toNat ≤ 90 then b.toNat + 32 else b.toNat := by
  have hb : (0x41 ≤ b ∧ b ≤ 0x5A) ↔ (65 ≤ b.toNat ∧ b.toNat ≤ 90) := by
    rw [UInt8.le_iff_toNat_le, UInt8.le_iff_toNat_le]
    exact Iff.rfl
  unfold lower
  by_cases h : 65 ≤ b.toNat ∧ b.toNat ≤ 90
  · rw [if_pos h, if_pos (hb.2 h), UInt8.toNat_add]
    simp only [UInt8.reduceToNat]
    omega
  · rw [if_neg h, if_neg fun h' => h (hb.1 h')]

theorem fold_ofNat {b : UInt8} (hb : b < 0x80) : fold (Char.ofNat b.toNat) = Char.ofNat (lower b).toNat := by
  have hlt : b.toNat < 128 := hb
  have hlower := toNat_lower b
  have hle : (lower b).toNat < 128 := by
    rw [hlower]
    split <;> omega
  rw [← Char.toNat_inj, Caseless.toNat_fold, toNat_ofNat_of_isValidChar (Or.inl (by omega)),
    toNat_ofNat_of_isValidChar (Or.inl (by omega)), hlower]

/-- Bytes outside ASCII have no case. -/
theorem eq_of_lower {b c : UInt8} (h : lower b = lower c) : b = c ∨ (b < 0x80 ∧ c < 0x80) := by
  have hn := congrArg UInt8.toNat h
  rw [toNat_lower, toNat_lower] at hn
  rw [← UInt8.toNat_inj, UInt8.lt_iff_toNat_lt, UInt8.lt_iff_toNat_lt]
  simp only [UInt8.reduceToNat]
  split at hn <;> split at hn <;> omega

theorem readTrail_lower : ∀ {code : Nat} {ranges : List (UInt8 × UInt8)} {bs cs : List UInt8},
    (∀ r ∈ ranges, 0x80 ≤ r.1 ∧ r.2 ≤ 0xBF) → bs.map lower = cs.map lower → readTrail code ranges bs = readTrail code ranges cs
  | _, [], _, _, _, _ => by simp [readTrail]
  | _, _ :: _, [], [], _, _ => rfl
  | _, _ :: _, [], _ :: _, _, h => by cases h
  | _, _ :: _, _ :: _, [], _, h => by cases h
  | code, (lo, hi) :: ranges, b :: bs, c :: cs, hr, h => by
    obtain ⟨hbc, htail⟩ := List.cons.inj h
    have hr' : ∀ r ∈ ranges, 0x80 ≤ r.1 ∧ r.2 ≤ 0xBF := fun r hmem => hr r (List.mem_cons_of_mem _ hmem)
    have ih := @readTrail_lower (code * 64 + (b.toNat - 0x80)) ranges bs cs hr' htail
    rcases eq_of_lower hbc with rfl | ⟨hb, hc⟩
    · simp only [readTrail, ih]
    · have hlo : 0x80 ≤ lo := (hr _ List.mem_cons_self).1
      have hout : ∀ {x : UInt8}, x < 0x80 → ¬ (lo ≤ x ∧ x ≤ hi) := fun hx => by
        simp only [UInt8.lt_iff_toNat_lt, UInt8.le_iff_toNat_le] at *
        omega
      simp only [readTrail, if_neg (hout hb), if_neg (hout hc)]

section
variable {b c : UInt8} {bs cs : List UInt8} (htail : bs.map lower = cs.map lower)
include htail

theorem read_lower : Glyph.read b bs = Glyph.read b cs := by
  unfold Glyph.read
  cases h : Lead.ofByte? b with
  | none => rfl
  | some lead => simp only [readTrail_lower (Lead.trail_range h) htail]

/-- **A glyph is as long as before, and the same letter if it is one.** -/
theorem read_fold (h : lower b = lower c) :
    (Glyph.read b bs).trail = (Glyph.read c cs).trail ∧ fold (Glyph.read b bs).char = fold (Glyph.read c cs).char := by
  rcases eq_of_lower h with rfl | ⟨hb, hc⟩
  · rw [read_lower htail]
    exact ⟨rfl, rfl⟩
  · rw [Glyph.read_ascii hb, Glyph.read_ascii hc, fold_ofNat hb, fold_ofNat hc, h]
    exact ⟨rfl, rfl⟩

theorem head?_chars_lower (h : bs.head? = cs.head?) : (chars bs).head? = (chars cs).head? := by
  cases bs with
  | nil =>
    cases cs with
    | nil => rfl
    | cons c cs => cases h
  | cons b bs =>
    cases cs with
    | nil => cases h
    | cons c cs =>
      obtain rfl : b = c := Option.some.inj h
      rw [chars_cons, chars_cons, List.head?_cons, List.head?_cons, read_lower (List.cons.inj htail).2]

end

end Utf8

/-- Two sources that differ in the case of letters at most, and not behind a backslash. -/
structure SameButCase (s t : List UInt8) : Prop where
  letters : s.map Utf8.lower = t.map Utf8.lower
  escaped : ∀ i : Nat, s[i]? = some 0x5C → s[i + 1]? = t[i + 1]?

theorem sameButCase_iff (s t : List UInt8) : SameButCase s t ↔
    s.map Utf8.lower = t.map Utf8.lower ∧ ∀ i < s.length, s[i]? = some 0x5C → s[i + 1]? = t[i + 1]? := by
  constructor
  · exact fun h => ⟨h.letters, fun i _ => h.escaped i⟩
  · rintro ⟨hletters, hescaped⟩
    exact ⟨hletters, fun i hi => hescaped i (List.getElem?_eq_some_iff.1 hi).1 hi⟩

instance (s t : List UInt8) : Decidable (SameButCase s t) := decidable_of_iff' _ (sameButCase_iff s t)

namespace SameButCase

theorem drop {s t : List UInt8} (h : SameButCase s t) (n : Nat) : SameButCase (s.drop n) (t.drop n) where
  letters := by rw [List.map_drop, List.map_drop, h.letters]
  escaped := by
    intro i hi
    rw [List.getElem?_drop] at hi ⊢
    rw [List.getElem?_drop]
    exact h.escaped (n + i) hi

section
variable {b c : UInt8} {bs cs : List UInt8} (h : SameButCase (b :: bs) (c :: cs))
include h

theorem head : Utf8.lower b = Utf8.lower c := (List.cons.inj h.letters).1

theorem tail : bs.map Utf8.lower = cs.map Utf8.lower := (List.cons.inj h.letters).2

/-- Behind a backslash the sources agree in a byte, and so in a character. -/
theorem behind (hchar : (Glyph.read b bs).char = '\\') :
    (Utf8.chars (bs.drop (Glyph.read b bs).trail)).head? = (Utf8.chars (cs.drop (Glyph.read c cs).trail)).head? := by
  have hascii : (Glyph.read b bs).char.toNat < 0x80 := by
    rw [hchar]
    decide
  have hb := Utf8.read_of_ascii hascii
  have htrail := (Utf8.read_fold h.tail h.head).1
  rw [Glyph.read_ascii hb] at hchar htrail
  obtain rfl : b = 0x5C := by
    simp only at hchar
    rw [← Utf8.ofNat_toNat_char hb, hchar]
    rfl
  have hnext := h.escaped 0 rfl
  rw [List.getElem?_cons_succ, List.getElem?_cons_succ, ← List.head?_eq_getElem?, ← List.head?_eq_getElem?] at hnext
  rw [← htrail, Glyph.read_ascii hb, List.drop_zero, List.drop_zero]
  exact Utf8.head?_chars_lower h.tail hnext

end

/-- **Sources that differ in case alone read as texts that do.** -/
theorem alike : ∀ {s t : List UInt8}, SameButCase s t → Alike (Utf8.chars s) (Utf8.chars t)
  | [], [], _ => .nil
  | [], _ :: _, h => by cases h.letters
  | _ :: _, [], h => by cases h.letters
  | b :: bs, c :: cs, h => by
    obtain ⟨htrail, hfold⟩ := Utf8.read_fold h.tail h.head
    have hdrop : SameButCase (bs.drop (Glyph.read b bs).trail) (cs.drop (Glyph.read b bs).trail) :=
      h.drop ((Glyph.read b bs).trail + 1)
    have hlen : (bs.drop (Glyph.read b bs).trail).length < (b :: bs).length := by
      rw [List.length_drop, List.length_cons]
      omega
    rw [Utf8.chars_cons, Utf8.chars_cons]
    refine .cons hfold ?_ h.behind
    rw [← htrail]
    exact alike hdrop
termination_by s => s.length

end SameButCase

/-! ## The scan -/

theorem Position.after_fold {g g' : Glyph} (htrail : g.trail = g'.trail) (hfold : fold g.char = fold g'.char)
    (q : Position) : q.after g = q.after g' := by
  have hnewline : g.char = '\n' ↔ g'.char = '\n' := by
    rw [← fold_eq_mark (d := '\n') (by decide), hfold, fold_eq_mark (by decide)]
  simp only [Position.after, Glyph.width, htrail, hnewline]

/-- **Reading leads to the same place**, with sources ahead that differ in case alone. -/
theorem Place.advance_sameButCase : ∀ (n : Nat) (q : Position) {s t : List UInt8}, SameButCase s t →
    ∃ r s' t', advance n ⟨q, s⟩ = ⟨r, s'⟩ ∧ advance n ⟨q, t⟩ = ⟨r, t'⟩ ∧ SameButCase s' t'
  | 0, q, s, t, h => ⟨q, s, t, rfl, rfl, h⟩
  | n + 1, q, [], [], h => ⟨q, [], [], rfl, rfl, h⟩
  | n + 1, _, [], _ :: _, h => by cases h.letters
  | n + 1, _, _ :: _, [], h => by cases h.letters
  | n + 1, q, b :: bs, c :: cs, h => by
    obtain ⟨htrail, hfold⟩ := Utf8.read_fold h.tail h.head
    rw [advance_succ_cons, advance_succ_cons, ← Position.after_fold htrail hfold, ← htrail]
    exact advance_sameButCase n _ (h.drop ((Glyph.read b bs).trail + 1))

/-- What does not depend on how a token is written: its kind, where it begins, and where it ends. -/
def Token.outline (t : Token) : Kind × Position × Nat := (t.kind, t.position, t.stop)

theorem Place.outline_token (p : Place) (kind : Kind) (n : Nat) :
    (p.token kind n).outline = (kind, p.position, (p.advance n).position.offset) := by
  rw [Token.outline, Place.stop_token]
  rfl

theorem Place.outline_sameButCase (q : Position) {s t : List UInt8} (h : SameButCase s t) (kind : Kind) (n : Nat) :
    (Place.token ⟨q, s⟩ kind n).outline = (Place.token ⟨q, t⟩ kind n).outline := by
  obtain ⟨r, s', t', hs, ht, -⟩ := advance_sameButCase n q h
  rw [outline_token, outline_token, hs, ht]

/-- **A scan goes the same way** over a source that differs in case alone. -/
theorem Scans.sameButCase {owing : Bool} {p : Place} {ts : List Token} {e? : Option ScanError} (h : Scans owing p ts e?) :
    ∀ {t : List UInt8}, SameButCase p.rest t →
      ∃ us, Scans owing ⟨p.position, t⟩ us e? ∧ us.map Token.outline = ts.map Token.outline := by
  have hfirst : ∀ {p : Place} {t : List UInt8}, SameButCase p.rest t →
      Lexeme.first p.ahead = Lexeme.first (Place.ahead ⟨p.position, t⟩) := fun hs => Lexeme.first_alike hs.alike
  induction h with
  | @skip p n ts e? hf _ ih =>
    intro t hs
    obtain ⟨r, s', t', hp, ht, hs'⟩ := Place.advance_sameButCase n p.position hs
    rw [hp] at ih
    obtain ⟨us, hus, hmap⟩ := ih hs'
    exact ⟨us, .skip (hfirst hs ▸ hf) (ht ▸ hus), hmap⟩
  | @token p kind n owing ts e? hf _ ih =>
    intro t hs
    obtain ⟨r, s', t', hp, ht, hs'⟩ := Place.advance_sameButCase n p.position hs
    rw [hp] at ih
    obtain ⟨us, hus, hmap⟩ := ih hs'
    refine ⟨_, .token (hfirst hs ▸ hf) (ht ▸ hus), ?_⟩
    rw [List.map_cons, List.map_cons, hmap, Place.outline_sameButCase p.position hs]
  | @invalid p e n hf =>
    intro t hs
    refine ⟨_, .invalid (hfirst hs ▸ hf), ?_⟩
    rw [List.map_singleton, List.map_singleton, Place.outline_sameButCase p.position hs]
  | @done p hf =>
    intro t hs
    refine ⟨_, .done (hfirst hs ▸ hf), ?_⟩
    rw [List.map_singleton, List.map_singleton, Place.outline_sameButCase p.position hs]
  | @delimited p ts e? hd _ ih =>
    intro t hs
    obtain ⟨us, hus, hmap⟩ := ih hs
    exact ⟨us, .delimited ((blind_endsToken.eq hs.alike.folded).symm.trans hd) hus, hmap⟩
  | @undelimited p hd =>
    intro t hs
    refine ⟨_, .undelimited fun hd' => hd ((blind_endsToken.eq hs.alike.folded).trans hd'), ?_⟩
    rw [List.map_singleton, List.map_singleton, Place.outline_sameButCase p.position hs]

/-- **The case of letters changes nothing but the texts of tokens.** -/
theorem outlines_eq (name : String) {s t : List UInt8} (h : SameButCase s t) :
    (Scanner.ofBytes name s).tokens.map Token.outline = (Scanner.ofBytes name t).tokens.map Token.outline ∧
      (Scanner.ofBytes name s).finish.error? = (Scanner.ofBytes name t).finish.error? := by
  have hscan := (Scanner.scans_iff name s).2 ⟨rfl, rfl⟩
  obtain ⟨us, hus, hmap⟩ := hscan.sameButCase h
  obtain ⟨htokens, herror⟩ := (Scanner.scans_iff name t).1 hus
  rw [htokens, herror]
  exact ⟨hmap.symm, rfl⟩

/-- A marker, an exponent and a code point in capitals, and a letter behind a backslash. -/
theorem outlines_eq_capitals :
    let s := Utf8.ascii ['#', 'D', '1', 'E', '2', ' ', '|', '\\', 'x', '4', 'A', ';', '|']
    let t := Utf8.ascii ['#', 'd', '1', 'e', '2', ' ', '|', '\\', 'x', '4', 'a', ';', '|']
    SameButCase s t ∧
      (Scanner.ofBytes "" s).tokens.map Token.outline = (Scanner.ofBytes "" t).tokens.map Token.outline ∧
      (Scanner.ofBytes "" s).finish.error? = (Scanner.ofBytes "" t).finish.error? := by
  intro s t
  have hsame : SameButCase (Utf8.ascii ['#', 'D', '1', 'E', '2', ' ', '|', '\\', 'x', '4', 'A', ';', '|'])
      (Utf8.ascii ['#', 'd', '1', 'e', '2', ' ', '|', '\\', 'x', '4', 'a', ';', '|']) := by decide
  exact ⟨hsame, outlines_eq "" hsame⟩

end SchemeLexer
