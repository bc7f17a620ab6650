import SchemeLexer.Proofs.Checked.Lexeme
import SchemeLexer.Proofs.Opening
import SchemeLexer.Proofs.Routes
/-!
# Identifiers — identifiers without bars as their grammar has them

A bare identifier has one of four shapes (`Word`), and goes on as far as there are subsequents: what is read for one is
the longest word at the head of the text (`first_word`).  Ten words of them are numbers, in any case of their letters:
those that a sign and one of five words make up.  A sign by itself is an identifier too, where a delimiter follows it.
-/
namespace SchemeLexer

open Text (Stops run)
open Utf8 (IsAscii ascii chars)
open Number.Grammar (Subsequents subsequents_append subsequents_cons subsequents_nil)

namespace Lexeme

/-- An identifier as it is written without bars, a sign by itself apart. -/
inductive Word : List Char → Prop
  | ordinary {c : Char} {cs : List Char} : isInitial c = true → Subsequents cs → Word (c :: cs)
  | dotted {c : Char} {cs : List Char} : isDotSubsequent c = true → Subsequents cs → Word ('.' :: c :: cs)
  | signed {s c : Char} {cs : List Char} :
    isSign s = true → isSignSubsequent c = true → Subsequents cs → Word (s :: c :: cs)
  | signedDot {s c : Char} {cs : List Char} :
    isSign s = true → isDotSubsequent c = true → Subsequents cs → Word (s :: '.' :: c :: cs)

/-- A sign, and behind it a word that makes a number of it. -/
def NumberWord (w : List Char) : Prop :=
  ∃ s v, w = s :: v ∧ isSign s = true ∧
    ∃ u ∈ [['i'], ['i', 'n', 'f', '.', '0'], ['n', 'a', 'n', '.', '0'], ['i', 'n', 'f', '.', '0', 'i'],
      ['n', 'a', 'n', '.', '0', 'i']], Caseless.sameWord v u = true

/-- The kind of a word. -/
def wordKind : List Char → Kind
  | [] => .identifier
  | s :: v => if isSign s ∧ isSignedNumber v then .number else .identifier

theorem wordKind_of_sign {s : Char} (hs : isSign s = true) (v : List Char) :
    wordKind (s :: v) = if isSignedNumber v then .number else .identifier := by simp [wordKind, hs]

theorem numberWord_cons {s : Char} {v : List Char} :
    NumberWord (s :: v) ↔ isSign s = true ∧ isSignedNumber v = true := by
  simp only [isSignedNumber, List.any_eq_true]
  constructor
  · rintro ⟨_, _, heq, hs, hv⟩
    obtain ⟨rfl, rfl⟩ := List.cons.inj heq
    exact ⟨hs, hv⟩
  · rintro ⟨hs, hv⟩
    exact ⟨s, v, rfl, hs, hv⟩

theorem wordKind_cases (w : List Char) :
    (wordKind w = .number ∧ NumberWord w) ∨ (wordKind w = .identifier ∧ ¬ NumberWord w) := by
  cases w with
  | nil => exact Or.inr ⟨rfl, fun ⟨_, _, h, _⟩ => by cases h⟩
  | cons s v =>
    rw [numberWord_cons, wordKind]
    by_cases h : isSign s = true ∧ isSignedNumber v = true
    · exact Or.inl ⟨if_pos h, h⟩
    · exact Or.inr ⟨if_neg h, h⟩

/-! ## A word is read to its end -/

theorem not_isDelimiter_of {p : Char → Bool} (h : delimiters.any p = false) {c : Char} (hc : p c = true) :
    isDelimiter c = false := by
  cases hdel : isDelimiter c with
  | false => rfl
  | true => rw [not_of_isDelimiter h hdel] at hc; cases hc

theorem not_isDigit_of {p : Char → Bool} (h : digits.any p = false) {c : Char} (hc : p c = true) :
    isDigit c = false := by
  cases hdig : isDigit c with
  | false => rfl
  | true => rw [not_of_isDigit h hdig] at hc; cases hc

theorem Word.subsequents {w : List Char} (h : Word w) : Subsequents w := by
  cases h with
  | ordinary hc hcs => exact subsequents_cons (isSubsequent_of_isInitial hc) hcs
  | dotted hc hcs => exact subsequents_cons rfl (subsequents_cons (isSubsequent_of_isDotSubsequent hc) hcs)
  | signed hs hc hcs =>
    exact subsequents_cons (isSubsequent_of_isSign hs) (subsequents_cons (isSubsequent_of_isSignSubsequent hc) hcs)
  | signedDot hs hc hcs =>
    exact subsequents_cons (isSubsequent_of_isSign hs)
      (subsequents_cons rfl (subsequents_cons (isSubsequent_of_isDotSubsequent hc) hcs))

theorem Word.append {w v : List Char} (h : Word w) (hv : Subsequents v) : Word (w ++ v) := by
  cases h with
  | ordinary hc hcs => exact .ordinary hc (subsequents_append hcs hv)
  | dotted hc hcs => exact .dotted hc (subsequents_append hcs hv)
  | signed hs hc hcs => exact .signed hs hc (subsequents_append hcs hv)
  | signedDot hs hc hcs => exact .signedDot hs hc (subsequents_append hcs hv)

theorem identifier_append {k : Nat} {cs rest : List Char} (hcs : Subsequents cs) (hr : Stops isSubsequent rest) :
    identifier k (cs ++ rest) = word .identifier (k + cs.length) := by
  rw [identifier, Text.run_append hcs hr]

theorem signedWord_append {c : Char} (hc : isSubsequent c = true) {cs rest : List Char} (hcs : Subsequents cs)
    (hr : Stops isSubsequent rest) : signedWord (c :: (cs ++ rest)) =
      word (if isSignedNumber (c :: cs) then .number else .identifier) (cs.length + 2) := by
  simp only [signedWord, run_subsequent hc hcs hr, List.take_succ_cons, List.take_left]

/-- **A word is read to its end**, where no subsequent follows. -/
theorem first_word {w rest : List Char} (h : Word w) (hr : Stops isSubsequent rest) :
    first (w ++ rest) = word (wordKind w) w.length := by
  cases h with
  | @ordinary c cs hc hcs =>
    have hkind : wordKind (c :: cs) = .identifier := by simp [wordKind, Checked.not_isSign_of_isInitial hc]
    have hfirst : first (c :: (cs ++ rest)) = identifier 1 (cs ++ rest) := if_pos hc
    rw [List.cons_append, hfirst, identifier_append hcs hr, hkind, List.length_cons, Nat.add_comm]
  | @dotted c cs hc hcs =>
    have hdel : isDelimiter c = false := not_isDelimiter_of (by decide) hc
    have hfirst : first ('.' :: c :: (cs ++ rest)) = dot (c :: (cs ++ rest)) := rfl
    have hdot : dot (c :: (cs ++ rest)) = identifier 2 (cs ++ rest) := by simp [dot, hdel, hc]
    rw [List.cons_append, List.cons_append, hfirst, hdot, identifier_append hcs hr, List.length_cons, List.length_cons,
      Nat.add_comm]
    rfl
  | @signed s c cs hs hc hcs =>
    have hdel : isDelimiter c = false := not_isDelimiter_of (by decide) hc
    have hdig : isDigit c = false := not_isDigit_of (by decide) hc
    have hdot : c ≠ '.' := by rintro rfl; cases hc
    have hsigned : signed s (c :: (cs ++ rest)) = signedWord (c :: (cs ++ rest)) := by
      simp [Lexeme.signed, hdel, hdot, hdig, hc]
    rw [List.cons_append, List.cons_append, first_sign hs, hsigned,
      signedWord_append (isSubsequent_of_isSignSubsequent hc) hcs hr, wordKind_of_sign hs]
    rfl
  | @signedDot s c cs hs hc hcs =>
    have hdig : isDigit c = false := not_isDigit_of (by decide) hc
    have hkind : wordKind (s :: '.' :: c :: cs) = .identifier := by
      rw [wordKind_of_sign hs, if_neg (by simp [Checked.not_isSignedNumber_dot])]
    have hsigned : signed s ('.' :: c :: (cs ++ rest)) = identifier 3 (cs ++ rest) := by
      have hdot : signed s ('.' :: c :: (cs ++ rest)) = signDot s (c :: (cs ++ rest)) := rfl
      simp [hdot, signDot, hdig, hc]
    rw [List.cons_append, List.cons_append, List.cons_append, first_sign hs, hsigned, identifier_append hcs hr, hkind,
      Nat.add_comm]
    rfl

/-! ## What is read for an identifier -/

/-- A sign by itself, or a word and no subsequent behind it: `n` characters in all. -/
def Spelling (cs : List Char) (n : Nat) : Prop :=
  (∃ s rest, cs = s :: rest ∧ n = 1 ∧ isSign s = true ∧ Delimited rest) ∨
    ∃ w rest, cs = w ++ rest ∧ n = w.length ∧ Word w ∧ Stops isSubsequent rest

/-- If the lexeme is an identifier, it is spelled as one. -/
def Spells (cs : List Char) (x : Lexeme) : Prop := ∀ n owing, x = .token .identifier n owing → Spelling cs n

section
variable {cs : List Char}

theorem spells_token {kind : Kind} (hkind : kind ≠ .identifier) {n : Nat} {owing : Bool} :
    Spells cs (.token kind n owing) := fun _ _ h => by
  cases h
  exact absurd rfl hkind

theorem spells_skip {n : Nat} : Spells cs (.skip n) := fun _ _ h => by cases h

theorem spells_invalid {e : ScanError} {n : Nat} : Spells cs (.invalid e n) := fun _ _ h => by cases h

theorem spells_ofReading {kind : Kind} (hkind : kind ≠ .identifier) {owing : Bool} {r : Reading} :
    Spells cs (ofReading kind owing r) :=
  ofReading_induction (fun _ => spells_token hkind) fun _ _ => spells_invalid

theorem spells_of_kinds {kinds : List Kind} {x : Lexeme} (h : OfKinds kinds x) (hkinds : .identifier ∉ kinds) :
    Spells cs x := fun _ _ hx => absurd (h _ _ _ hx) hkinds

theorem spells_number : ∀ ds : List Char, Spells cs (number ds) := fun _ => spells_ofReading (by decide)

/-- A word read to its end. -/
theorem spells_word {v : List Char} (hv : ∀ u, Subsequents u → Word (v ++ u)) (t : List Char) {kind : Kind} {n : Nat}
    (hn : n = v.length + run isSubsequent t) : Spells (v ++ t) (word kind n) := by
  rintro _ _ ⟨⟩
  obtain ⟨u, rest, rfl, hu, hr, hrun⟩ := Text.exists_run isSubsequent t
  exact Or.inr ⟨v ++ u, rest, (List.append_assoc ..).symm, by rw [hn, hrun, List.length_append], hv u hu, hr⟩

end

theorem spells_dot : ∀ cs : List Char, Spells ('.' :: cs) (dot cs)
  | [] => spells_token (by decide)
  | c :: cs =>
    iteInduction (fun _ => spells_token (by decide)) fun _ =>
    iteInduction (fun hc => spells_word (v := ['.', c]) (fun _ hu => .dotted hc hu) cs rfl) fun _ =>
    iteInduction (fun _ => spells_number _) fun _ => spells_invalid

theorem spells_signDot {s : Char} (hs : isSign s = true) : ∀ cs : List Char, Spells (s :: '.' :: cs) (signDot s cs)
  | [] => spells_invalid
  | c :: cs =>
    iteInduction (fun _ => spells_number _) fun _ =>
    iteInduction (fun hc => spells_word (v := [s, '.', c]) (fun _ hu => .signedDot hs hc hu) cs rfl) fun _ =>
    spells_invalid

theorem spells_signedWord {s c : Char} (hs : isSign s = true) (hc : isSignSubsequent c = true) (cs : List Char) :
    Spells (s :: c :: cs) (signedWord (c :: cs)) := by
  have hrun : run isSubsequent (c :: cs) = run isSubsequent cs + 1 := by
    rw [Text.run_cons, if_pos (isSubsequent_of_isSignSubsequent hc)]
  exact spells_word (v := [s, c]) (fun _ hu => .signed hs hc hu) cs (by rw [hrun, Nat.add_comm _ (run isSubsequent cs)]; rfl)

theorem spells_signed {s : Char} (hs : isSign s = true) : ∀ cs : List Char, Spells (s :: cs) (signed s cs)
  | [] => fun _ _ h => by cases h; exact Or.inl ⟨s, [], rfl, rfl, hs, delimited_nil⟩
  | c :: cs =>
    iteInduction (fun hc _ _ h => by cases h; exact Or.inl ⟨s, c :: cs, rfl, rfl, hs, hc⟩) fun _ =>
    iteInduction (fun hdot => hdot ▸ spells_signDot hs cs) fun _ =>
    iteInduction (fun _ => spells_number _) fun _ =>
    iteInduction (fun hc => spells_signedWord hs hc cs) fun _ => spells_invalid

theorem spells_hash (cs : List Char) : ∀ ds : List Char, Spells cs (hash ds)
  | [] => spells_invalid
  | c :: ds => by
    rcases ofKinds_hash c ds with ⟨-, heq⟩ | hkinds
    · rw [heq]
      exact spells_ofReading (by decide)
    · exact spells_of_kinds hkinds (by decide)

/-- **What is read for an identifier is spelled as one**, if it does not begin with a bar. -/
theorem spells_first {c : Char} (hbar : c ≠ '|') (cs : List Char) : Spells (c :: cs) (first (c :: cs)) := by
  obtain ⟨rule, hrule, heq⟩ := exists_leads c
  rw [heq]
  cases hrule with
  | initial hc => exact spells_word (v := [c]) (fun _ hu => .ordinary hc hu) cs rfl
  | whitespace => exact spells_skip
  | digit => exact spells_number _
  | bar hc => exact absurd hc hbar
  | doubleQuote => exact spells_ofReading (by decide)
  | comma => exact spells_of_kinds (ofKinds_comma cs) (by decide)
  | semicolon => exact spells_skip
  | hash => exact spells_hash _ cs
  | dot hc => subst hc; exact spells_dot cs
  | sign hs => exact spells_signed hs cs
  | punctuation => exact spells_of_kinds (ofKinds_punctuation c) (by decide)

theorem Word.isAscii {w : List Char} (h : Word w) : IsAscii w :=
  fun c hc => toNat_lt_of_isSubsequent (h.subsequents c hc)

end Lexeme

/-! ## The first token -/

open Lexeme (NumberWord Word wordKind)

/-- The longest word at the head of a source. -/
def LongestWord (w source : List UInt8) : Prop :=
  (w <+: source ∧ Word (chars w)) ∧ ∀ v, v <+: source → Word (chars v) → v.length ≤ w.length

/-- What is made of subsequents does not reach behind a word that none follows. -/
theorem length_le_of_subsequents {ds x cs y : List Char} (h : ds ++ x = cs ++ y) (hds : Subsequents ds)
    (hy : Stops isSubsequent y) : ds.length ≤ cs.length := by
  rcases List.append_eq_append_iff.1 h with ⟨a, rfl, -⟩ | ⟨a, rfl, rfl⟩
  · rw [List.length_append]
    exact Nat.le_add_right ..
  · cases a with
    | nil => exact Nat.le_of_eq (congrArg List.length (List.append_nil cs))
    | cons c a =>
      have hc : isSubsequent c = true := hds c (List.mem_append_right cs List.mem_cons_self)
      rw [(Text.stops_cons ..).1 hy] at hc
      cases hc

theorem head?_ne_bar {cs : List Char} (h : Subsequents cs) : (chars (ascii cs)).head? ≠ some '|' := by
  rw [Utf8.chars_ascii fun c hc => toNat_lt_of_isSubsequent (h c hc)]
  intro hbar
  have hsub := h '|' (List.mem_of_head? hbar)
  exact absurd hsub (by decide)

/-- **The longest word ends where the subsequents do.** -/
theorem longestWord_iff {w source : List UInt8} : LongestWord w source ↔
    ∃ cs rest, w = ascii cs ∧ source = ascii cs ++ rest ∧ Word cs ∧ Stops isSubsequent (chars rest) := by
  constructor
  · rintro ⟨⟨⟨rest, rfl⟩, hw⟩, hlongest⟩
    have htext := Utf8.eq_ascii_of_chars hw.isAscii rfl
    refine ⟨chars w, rest, htext, by rw [← htext], hw, ?_⟩
    obtain ⟨us, ys, hrest, hus, hstop, -⟩ := Text.exists_run isSubsequent (chars rest)
    have hlonger : Word (chars w ++ us) := hw.append hus
    have hsource : chars (w ++ rest) = (chars w ++ us) ++ ys := by
      rw [htext, Utf8.chars_ascii_append hw.isAscii, hrest, Utf8.chars_ascii hw.isAscii, List.append_assoc]
    obtain ⟨rest', happend, -⟩ := Utf8.eq_ascii_append hlonger.isAscii hsource
    have hle := hlongest (ascii (chars w ++ us)) ⟨rest', happend.symm⟩ (by rwa [Utf8.chars_ascii hlonger.isAscii])
    have hlen : w.length = (chars w).length := (congrArg List.length htext).trans (Utf8.length_ascii _)
    rw [Utf8.length_ascii, List.length_append, hlen] at hle
    obtain rfl : us = [] := List.length_eq_zero_iff.1 (by omega)
    rwa [hrest]
  · rintro ⟨cs, rest, rfl, rfl, hcs, hr⟩
    refine ⟨⟨⟨rest, rfl⟩, by rwa [Utf8.chars_ascii hcs.isAscii]⟩, fun v hv hword => ?_⟩
    obtain ⟨x, hx⟩ := hv
    have hchars := congrArg chars hx
    have htext := Utf8.eq_ascii_of_chars hword.isAscii rfl
    rw [htext, Utf8.chars_ascii_append hword.isAscii, Utf8.chars_ascii_append hcs.isAscii] at hchars
    rw [htext, Utf8.length_ascii, Utf8.length_ascii]
    exact length_le_of_subsequents hchars hword.subsequents hr

theorem Lexeme.isTerminal_wordKind (cs : List Char) : (wordKind cs).isTerminal = false := by
  rcases Lexeme.wordKind_cases cs with ⟨h, -⟩ | ⟨h, -⟩ <;> rw [h] <;> rfl

namespace Scanner

variable {name : String}

theorem opens_word {cs : List Char} {rest : List UInt8} (h : Word cs) (hr : Stops isSubsequent (chars rest)) :
    Opens name (ascii cs ++ rest) (wordKind cs) (ascii cs) := by
  refine (opens_iff (Lexeme.isTerminal_wordKind cs)).2 ⟨cs.length, true, ?_, Place.token_ascii h.isAscii ..⟩
  rw [Utf8.chars_ascii_append h.isAscii]
  exact Lexeme.first_word h hr

theorem opens_sign {s : Char} {rest : List UInt8} (hs : isSign s = true) (hr : Delimited (chars rest)) :
    Opens name (ascii [s] ++ rest) .identifier (ascii [s]) := by
  have hascii : IsAscii [s] := List.forall_mem_singleton.2 (toNat_lt_of_isSubsequent (isSubsequent_of_isSign hs))
  refine (opens_iff rfl).2 ⟨1, false, ?_, Place.token_ascii hascii ..⟩
  rw [Utf8.chars_ascii_append hascii, List.singleton_append, Lexeme.first_sign hs, Lexeme.signed_of_delimited hr]
  rfl

/-- An identifier that a source begins with, but for one between bars. -/
theorem spelling_of_opens {source w : List UInt8} (h : Opens name source .identifier w) (hbar : (chars w).head? ≠ some '|') :
    (∃ s rest, isSign s = true ∧ w = ascii [s] ∧ source = ascii [s] ++ rest ∧ Delimited (chars rest)) ∨
      ∃ cs rest, w = ascii cs ∧ source = ascii cs ++ rest ∧ Word cs ∧ Stops isSubsequent (chars rest) ∧
        wordKind cs = .identifier := by
  obtain ⟨n, owing, hf, htoken⟩ := (opens_iff rfl).1 h
  have htext : w = (Place.token ⟨.start, source⟩ .identifier n).text := (congrArg Token.text htoken).symm
  have hadv := Lexeme.advances_first (chars source)
  rw [hf, Lexeme.advances_token] at hadv
  cases hsource : chars source with
  | nil => rw [hsource] at hf; cases hf
  | cons c cs =>
    have hc : c ≠ '|' := by
      obtain ⟨m, rfl⟩ := Nat.exists_eq_succ_of_ne_zero (Nat.ne_of_gt hadv)
      rw [htext, Place.chars_text_token, Place.ahead, hsource] at hbar
      exact fun hc => hbar (congrArg some hc)
    rw [hsource] at hf
    rcases Lexeme.spells_first hc cs n owing hf with ⟨s, rest, hcs, rfl, hs, hr⟩ | ⟨v, rest, hcs, rfl, hv, hr⟩
    · have hascii : IsAscii [s] := List.forall_mem_singleton.2 (toNat_lt_of_isSubsequent (isSubsequent_of_isSign hs))
      obtain ⟨rest, rfl, rfl⟩ := Utf8.eq_ascii_append hascii (hsource.trans hcs)
      have hw := htext.trans (congrArg Token.text (Place.token_ascii hascii .start rest .identifier))
      exact Or.inl ⟨s, rest, hs, hw, rfl, hr⟩
    · obtain ⟨rest, rfl, rfl⟩ := Utf8.eq_ascii_append hv.isAscii (hsource.trans hcs)
      have hw := htext.trans (congrArg Token.text (Place.token_ascii hv.isAscii .start rest .identifier))
      rw [hcs, Lexeme.first_word hv hr, Lexeme.word, Lexeme.token.injEq] at hf
      exact Or.inr ⟨v, rest, hw, rfl, hv, hr, hf.1⟩

/-- A text is of one kind, wherever it is a token. -/
theorem kind_of_text {name' : String} {source source' : List UInt8} {t u : Token}
    (ht : t ∈ (ofBytes name source).words) (hu : u ∈ (ofBytes name' source').words) (h : t.text = u.text) :
    t.kind = u.kind := by
  obtain ⟨-, owing, hf⟩ := stands_words name source t ht
  obtain ⟨-, owing', hf'⟩ := stands_words name' source' u hu
  have heq := (h ▸ hf [] delimited_nil).symm.trans (hf' [] delimited_nil)
  rw [Lexeme.token.injEq] at heq
  exact heq.1

theorem opens_identifier_iff {source w : List UInt8} :
    Opens name source .identifier w ∧ (chars w).head? ≠ some '|' ↔
      (∃ s rest, isSign s = true ∧ w = ascii [s] ∧ source = w ++ rest ∧ Delimited (chars rest)) ∨
        (LongestWord w source ∧ ¬ NumberWord (chars w)) := by
  constructor
  · rintro ⟨h, hbar⟩
    rcases spelling_of_opens h hbar with ⟨s, rest, hs, rfl, rfl, hr⟩ | ⟨cs, rest, rfl, rfl, hcs, hr, hkind⟩
    · exact Or.inl ⟨s, rest, hs, rfl, rfl, hr⟩
    · refine Or.inr ⟨longestWord_iff.2 ⟨cs, rest, rfl, rfl, hcs, hr⟩, ?_⟩
      rw [Utf8.chars_ascii hcs.isAscii]
      rcases Lexeme.wordKind_cases cs with ⟨hnumber, -⟩ | ⟨-, hnot⟩
      · rw [hnumber] at hkind; cases hkind
      · exact hnot
  · rintro (⟨s, rest, hs, rfl, rfl, hr⟩ | ⟨hlongest, hnot⟩)
    · exact ⟨opens_sign hs hr, head?_ne_bar (subsequents_cons (isSubsequent_of_isSign hs) subsequents_nil)⟩
    · obtain ⟨cs, rest, rfl, rfl, hcs, hr⟩ := longestWord_iff.1 hlongest
      rw [Utf8.chars_ascii hcs.isAscii] at hnot
      have hopens := @opens_word name cs rest hcs hr
      rcases Lexeme.wordKind_cases cs with ⟨-, hnumber⟩ | ⟨hkind, -⟩
      · exact absurd hnumber hnot
      · exact ⟨hkind ▸ hopens, head?_ne_bar hcs.subsequents⟩

theorem opens_number {source w : List UInt8} (h : LongestWord w source) (hnumber : NumberWord (chars w)) :
    Opens name source .number w := by
  obtain ⟨cs, rest, rfl, rfl, hcs, hr⟩ := longestWord_iff.1 h
  rw [Utf8.chars_ascii hcs.isAscii] at hnumber
  have hopens := @opens_word name cs rest hcs hr
  rcases Lexeme.wordKind_cases cs with ⟨hkind, -⟩ | ⟨-, hnot⟩
  · exact hkind ▸ hopens
  · exact absurd hnumber hnot

end Scanner

/-- **Bare identifiers are the longest words**, those apart that a sign and one of five words make up: they are numbers.
A sign that a delimiter follows is an identifier as well.  No text is an identifier in one source and a number in
another. -/
theorem identifiers_bare :
    (∀ name source w, Scanner.Opens name source .identifier w ∧ (chars w).head? ≠ some '|' ↔
      (∃ s rest, isSign s = true ∧ w = ascii [s] ∧ source = w ++ rest ∧ Delimited (chars rest)) ∨
        (LongestWord w source ∧ ¬ NumberWord (chars w))) ∧
    (∀ name source w, LongestWord w source → NumberWord (chars w) → Scanner.Opens name source .number w) ∧
    ∀ name source name' source' t u, t ∈ (Scanner.ofBytes name source).tokens →
      u ∈ (Scanner.ofBytes name' source').tokens → t.kind = .identifier → u.kind = .number → t.text ≠ u.text := by
  refine ⟨fun name source w => Scanner.opens_identifier_iff, fun name source w h hnumber => Scanner.opens_number h hnumber,
    ?_⟩
  intro name source name' source' t u ht hu hidentifier hnumber htext
  have ht' : t ∈ (Scanner.ofBytes name source).words := List.mem_filter.2 ⟨ht, by rw [hidentifier]; rfl⟩
  have hu' : u ∈ (Scanner.ofBytes name' source').words := List.mem_filter.2 ⟨hu, by rw [hnumber]; rfl⟩
  have hkind := Scanner.kind_of_text ht' hu' htext
  rw [hidentifier, hnumber] at hkind
  cases hkind

end SchemeLexer
