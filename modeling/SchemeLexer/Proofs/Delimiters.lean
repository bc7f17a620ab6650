import SchemeLexer.Proofs.Number.Faults
import SchemeLexer.Proofs.Tiling
/-!
# Delimiters — what stands behind a word

A word, a number, and whatever else has no last character of its own (`Token.Bare`) stands before a delimiter or the end
of the source.  Some rules look ahead for it, others leave it to the scanner to ask before it reads on; `Disciplined`
says what each rule has to see to, and `disciplined_first` that all of them do.

So there is one error that takes no character, that of a missing delimiter, and it shows right behind the token that
lacks it: `delimiters_scanned`.
-/
namespace SchemeLexer

/-- The kinds of token that only a delimiter ends.  An identifier between bars is none, though it is of such a kind. -/
def Kind.isWord : Kind → Bool
  | .number | .boolean | .directive | .character | .dot | .identifier => true
  | _ => false

/-- A token that only a delimiter ends. -/
def Token.Bare (t : Token) : Prop :=
  t.kind.isWord = true ∧ (t.kind = .identifier → (Utf8.chars t.text).head? ≠ some '|')

/-- What the delimiters in a source have to do with its tokens. -/
structure DelimitersKept (source : List UInt8) (ts : List Token) (e? : Option ScanError) : Prop where
  /-- A word stands before a delimiter, or the error that there is none follows it.  A dot is always delimited. -/
  followed : ∀ (i : Nat) (t : Token), ts[i]? = some t → t.Bare → Delimited (Utf8.chars (source.drop t.stop)) ∨
    (t.kind ≠ .dot ∧ e? = some .expectedDelimiter ∧ ts[i + 1]? = some ⟨.invalid, [], t.position.past t.text⟩ ∧
      (t.position.past t.text).offset = t.stop)
  /-- Every other error takes a character. -/
  empty : ∀ t : Token, ts.getLast? = some t → t.kind = .invalid → (e? = some .expectedDelimiter ↔ t.text = [])
  /-- What takes none stands behind a word that ends there. -/
  behind : ∀ t : Token, ts.getLast? = some t → t.kind = .invalid → t.text = [] →
    ∃ init u, ts = init ++ [u, t] ∧ u.Bare ∧ u.kind ≠ .dot ∧ u.stop = t.position.offset ∧
      ¬ Delimited (Utf8.chars (source.drop t.position.offset))

namespace Lexeme

open Number (complex afterMarks)

/-! ## The lexemes -/

/-- A lexeme of such a kind that only a delimiter ends it, at the head of `cs`. -/
def Bare (cs : List Char) (kind : Kind) : Prop := kind.isWord = true ∧ (kind = .identifier → cs.head? ≠ some '|')

/-- What a rule finds at the head of `cs` sees to it that words are delimited. -/
def Disciplined (cs : List Char) : Lexeme → Prop
  | token kind n owing => if owing then Bare cs kind ∧ kind ≠ .dot else Bare cs kind → Delimited (cs.drop n)
  | invalid e n => e ≠ .expectedDelimiter ∧ 0 < n
  | skip _ | done => True

section
variable {cs : List Char}

theorem disciplined_word {kind : Kind} {n : Nat} (hkind : Bare cs kind) (hdot : kind ≠ .dot) :
    Disciplined cs (word kind n) := ⟨hkind, hdot⟩

theorem disciplined_closed {kind : Kind} {n : Nat} (h : Bare cs kind → Delimited (cs.drop n)) :
    Disciplined cs (closed kind n) := h

/-- A token with a last character of its own. -/
theorem disciplined_of_not_word {kind : Kind} {n : Nat} (h : kind.isWord = false) : Disciplined cs (closed kind n) :=
  disciplined_closed fun hkind => by
    rw [hkind.1] at h
    cases h

theorem disciplined_identifier {c : Char} (hc : c ≠ '|') (n : Nat) (t : List Char) :
    Disciplined (c :: cs) (identifier n t) :=
  disciplined_word ⟨rfl, fun _ h => hc (Option.some.inj h)⟩ (by decide)

theorem disciplined_invalid {e : ScanError} (he : e ≠ .expectedDelimiter) (n : Nat) :
    Disciplined cs (.invalid e (n + 1)) := ⟨he, Nat.succ_pos n⟩

/-- A rule that reads a token goes wrong for another reason than a delimiter, and takes a character for it. -/
theorem disciplined_ofReading {kind : Kind} {owing : Bool} {r : Reading}
    (hok : Disciplined cs (.token kind r.taken owing)) (he : ∀ e, r.error? = some e → e ≠ .expectedDelimiter)
    (hpos : 0 < r.taken) : Disciplined cs (ofReading kind owing r) :=
  ofReading_induction (fun _ => hok) fun e hr => ⟨he e hr, hpos⟩

end

/-! ## Numbers -/

theorem complex_blames {r : Radix} {cs : List Char} (e : ScanError) (h : (complex r cs).error? = some e) :
    e ≠ .expectedDelimiter := by
  rcases Number.complex_errors h with rfl | rfl | rfl | rfl <;> decide

theorem afterMarks_blames : ∀ (m : Number.Marks) (cs : List Char) (e : ScanError), (afterMarks m cs).error? = some e →
    e ≠ .expectedDelimiter
  | m, [], e, h => by
    cases h
    decide
  | m, c :: cs, e, h => by
    unfold afterMarks at h
    split at h
    · cases h
      decide
    · split at h
      · exact complex_blames e h
      · split at h
        · exact afterMarks_blames _ _ e h
        · exact complex_blames e h

theorem disciplined_number {cs : List Char} (h : 0 < (complex .decimal cs).taken) : Disciplined cs (number cs) :=
  disciplined_ofReading ⟨⟨rfl, fun hkind => by cases hkind⟩, by decide⟩ complex_blames h

theorem number_taken_digit {c : Char} (hc : isDigit c = true) (cs : List Char) :
    0 < (complex .decimal (c :: cs)).taken := by
  apply Nat.lt_of_lt_of_le _ (Number.real_taken_le_complex ..)
  have hsign : Text.Stops isSign (c :: cs) := (Text.stops_cons ..).2 (Number.not_sign_of_digit (r := .decimal) hc)
  rw [Number.real_unsigned hsign]
  apply Nat.lt_of_lt_of_le _ (Number.run_le_magnitude ..)
  have hrun : Text.run Radix.decimal.isDigit (c :: cs) = Text.run isDigit cs + 1 := by
    rw [Text.run_cons]
    exact if_pos hc
  rw [hrun]
  exact Nat.succ_pos _

theorem number_taken_point {c : Char} (hc : isDigit c = true) (cs : List Char) :
    0 < (complex .decimal ('.' :: c :: cs)).taken := by
  apply Nat.lt_of_lt_of_le _ (Number.real_taken_le_complex ..)
  rw [Number.real_unsigned ((Text.stops_cons ..).2 (by decide)), Number.magnitude_point, Number.decimal,
    Number.fractionLength_point, Text.run_cons, if_pos hc, if_neg (by omega)]
  apply Nat.lt_of_lt_of_le _ (Number.exponent_taken ..)
  omega

theorem number_taken_sign {s : Char} (hs : isSign s = true) (cs : List Char) : 0 < (complex .decimal (s :: cs)).taken := by
  apply Nat.lt_of_lt_of_le _ (Number.real_taken_le_complex ..)
  rw [Number.real_signed hs, Number.Part.taken_shift]
  omega

theorem disciplined_markedNumber (cs : List Char) : Disciplined ('#' :: cs) (markedNumber cs) :=
  disciplined_ofReading ⟨⟨rfl, fun hkind => by cases hkind⟩, by decide⟩ (afterMarks_blames _ cs)
    (by rw [Reading.taken_shift]; omega)

/-! ## Words -/

theorem disciplined_dot : ∀ cs : List Char, Disciplined ('.' :: cs) (dot cs)
  | [] => disciplined_closed fun _ => delimited_nil
  | _ :: cs =>
    iteInduction (fun hc => disciplined_closed fun _ => hc) fun _ =>
    iteInduction (fun _ => disciplined_identifier (by decide) 2 cs) fun _ =>
    iteInduction (fun hc => disciplined_number (number_taken_point hc cs)) fun _ =>
    disciplined_invalid (by decide) 1

section
variable {s : Char} (hs : isSign s = true)
include hs

theorem ne_bar_of_sign : s ≠ '|' := by
  rintro rfl
  exact absurd hs (by decide)

theorem disciplined_signDot : ∀ cs : List Char, Disciplined (s :: '.' :: cs) (signDot s cs)
  | [] => disciplined_invalid (by decide) 1
  | _ :: cs =>
    iteInduction (fun _ => disciplined_number (number_taken_sign hs _)) fun _ =>
    iteInduction (fun _ => disciplined_identifier (ne_bar_of_sign hs) 3 cs) fun _ =>
    disciplined_invalid (by decide) 2

theorem disciplined_signedWord (cs : List Char) : Disciplined (s :: cs) (signedWord cs) := by
  have hbar : (s :: cs).head? ≠ some '|' := fun h => ne_bar_of_sign hs (Option.some.inj h)
  unfold signedWord
  simp only
  split
  · exact disciplined_word ⟨rfl, fun hkind => by cases hkind⟩ (by decide)
  · exact disciplined_word ⟨rfl, fun _ => hbar⟩ (by decide)

theorem disciplined_signed : ∀ cs : List Char, Disciplined (s :: cs) (signed s cs)
  | [] => disciplined_closed fun _ => delimited_nil
  | _ :: cs =>
    iteInduction (fun hc => disciplined_closed fun _ => hc) fun _ =>
    iteInduction (fun hdot => hdot ▸ disciplined_signDot hs cs) fun _ =>
    iteInduction (fun _ => disciplined_number (number_taken_sign hs _)) fun _ =>
    iteInduction (fun _ => disciplined_signedWord hs _) fun _ =>
    disciplined_invalid (by simp) 1

end

/-! ## Behind a hash sign -/

theorem disciplined_blockComment (cs t : List Char) : Disciplined t (blockComment cs) := by
  unfold blockComment
  split
  · trivial
  · exact disciplined_invalid (by decide) _

theorem disciplined_directive (t : List Char) : ∀ cs : List Char, Disciplined ('#' :: t) (directive cs)
  | [] => disciplined_invalid (by decide) 1
  | _ :: _ =>
    iteInduction (fun _ => disciplined_word ⟨rfl, fun hkind => by cases hkind⟩ (by decide)) fun _ =>
    disciplined_invalid (by decide) 2

theorem disciplined_character : ∀ cs : List Char, Disciplined ('#' :: '\\' :: cs) (character cs)
  | [] => disciplined_invalid (by decide) 1
  | [_] => disciplined_closed fun _ => delimited_nil
  | _ :: _ :: _ =>
    have hword {n : Nat} {t : List Char} : Disciplined ('#' :: t) (word .character n) :=
      disciplined_word ⟨rfl, fun hkind => by cases hkind⟩ (by decide)
    iteInduction (fun hd => disciplined_closed fun _ => hd) fun _ =>
    iteInduction (fun _ => hword) fun _ =>
    iteInduction (fun _ => hword) fun _ => disciplined_invalid (by decide) 3

theorem disciplined_hashWord (cs : List Char) : Disciplined ('#' :: cs) (hashWord cs) :=
  iteInduction (fun _ => disciplined_word ⟨rfl, fun hkind => by cases hkind⟩ (by decide)) fun _ =>
  iteInduction (fun _ => iteInduction (fun _ => disciplined_of_not_word rfl) fun _ =>
    ⟨by decide, Nat.lt_of_lt_of_le (Nat.succ_pos _) (Nat.le_add_right ..)⟩) fun _ =>
  disciplined_invalid (by decide) _

theorem disciplined_hash : ∀ cs : List Char, Disciplined ('#' :: cs) (hash cs)
  | [] => disciplined_invalid (by decide) 0
  | c :: cs => by
    obtain ⟨rule, hrule, heq⟩ := exists_hashLeads c
    rw [heq]
    cases hrule with
    | bar => exact disciplined_blockComment cs _
    | bang => exact disciplined_directive _ cs
    | backslash hc => subst hc; exact disciplined_character cs
    | openParen => exact disciplined_of_not_word rfl
    | semicolon => exact disciplined_of_not_word rfl
    | marker => exact disciplined_markedNumber (c :: cs)
    | word => exact disciplined_hashWord (c :: cs)
    | other => exact disciplined_invalid (by decide) 1

/-! ## Any lexeme -/

/-- Enclosed text goes wrong where it ends before it is closed, and in an escape sequence. -/
theorem enclosed_errors {q : Char} : ∀ (cs : List Char) (e : ScanError), (enclosed q cs).error? = some e →
    e = .unexpectedEof ∨ e = .invalidEscape
  | [], e, h => by
    rw [enclosed_nil] at h
    exact Or.inl (Option.some.inj h).symm
  | c :: cs, e, h => by
    rw [enclosed_cons] at h
    split at h
    · cases h
    · split at h
      · split at h
        · have hlen : (cs.drop (escape q cs).taken).length < (c :: cs).length := by
            rw [List.length_drop, List.length_cons]
            omega
          exact enclosed_errors _ e h
        · rcases error?_escape q cs with hok | hescape
          · rw [Reading.error?_shift, hok] at h
            cases h
          · rw [Reading.error?_shift, hescape] at h
            exact Or.inr (Option.some.inj h).symm
      · exact enclosed_errors cs e h
termination_by cs => cs.length

theorem disciplined_enclosed {kind : Kind} {q : Char} (t : List Char) {cs : List Char} (h : ¬ Bare cs kind) :
    Disciplined cs (ofReading kind false ((enclosed q t).shift 1)) :=
  disciplined_ofReading (fun hkind => absurd hkind h)
    (fun e he => by rcases enclosed_errors t e he with rfl | rfl <;> decide) (by rw [Reading.taken_shift]; omega)

theorem disciplined_punctuation (c : Char) (cs : List Char) : Disciplined cs (punctuation c) := by
  have hkinds : ∀ p ∈ punctuationMarks, p.2.isWord = false := by decide
  unfold punctuation
  split
  · rename_i kind h
    exact disciplined_of_not_word (hkinds _ (mem_punctuationMarks h))
  · exact disciplined_invalid (by decide) 0

/-- **Every rule sees to the delimiter** behind what it finds. -/
theorem disciplined_first (c : Char) (cs : List Char) : Disciplined (c :: cs) (first (c :: cs)) := by
  obtain ⟨rule, hrule, heq⟩ := exists_leads c
  rw [heq]
  cases hrule with
  | initial hc =>
    refine disciplined_identifier ?_ 1 cs
    rintro rfl
    exact absurd hc (by decide)
  | whitespace => trivial
  | digit hc => exact disciplined_number (number_taken_digit hc cs)
  | bar hc => subst hc; exact disciplined_enclosed cs fun h => h.2 rfl rfl
  | doubleQuote => exact disciplined_enclosed cs fun h => by cases h.1
  | comma => exact iteInduction (fun _ => disciplined_of_not_word rfl) fun _ => disciplined_of_not_word rfl
  | semicolon => trivial
  | hash hc => subst hc; exact disciplined_hash cs
  | dot hc => subst hc; exact disciplined_dot cs
  | sign hs => exact disciplined_signed hs cs
  | punctuation => exact disciplined_punctuation c _

end Lexeme

/-! ## The scan -/

theorem Place.bare_token {p : Place} {kind : Kind} {n : Nat} (hn : 0 < n) :
    (p.token kind n).Bare ↔ Lexeme.Bare p.ahead kind := by
  have hhead : (Utf8.chars (p.token kind n).text).head? = p.ahead.head? := by
    rw [Place.chars_text_token, List.head?_take, if_neg (by omega)]
  unfold Token.Bare Lexeme.Bare
  rw [hhead]
  exact Iff.rfl

theorem Place.Within.chars_drop {source : List UInt8} {p : Place} (h : p.Within source) :
    Utf8.chars (source.drop p.position.offset) = p.ahead := by
  rw [h.2, Place.ahead]

theorem Lexeme.disciplined_of_first {cs : List Char} {x : Lexeme} (h : first cs = x) : Disciplined cs x := by
  subst h
  cases cs with
  | nil => trivial
  | cons c cs => exact disciplined_first c cs

theorem Scans.ne_nil {owing : Bool} {p : Place} {ts : List Token} {e? : Option ScanError} (h : Scans owing p ts e?) :
    ts ≠ [] := by
  induction h with
  | skip _ _ ih => exact ih
  | token => exact List.cons_ne_nil _ _
  | invalid => exact List.cons_ne_nil _ _
  | done => exact List.cons_ne_nil _ _
  | delimited _ _ ih => exact ih
  | undelimited => exact List.cons_ne_nil _ _

/-- A word that owes a delimiter gets it, or the scan ends right behind it. -/
theorem Scans.owed {p : Place} {ts : List Token} {e? : Option ScanError} (h : Scans true p ts e?) :
    Delimited p.ahead ∨ (¬ Delimited p.ahead ∧ ts = [p.token .invalid 0] ∧ e? = some .expectedDelimiter) := by
  cases h with
  | delimited hd _ => exact Or.inl hd
  | undelimited hd => exact Or.inr ⟨hd, rfl, rfl⟩

theorem Token.Bare.not_terminal {t : Token} (h : t.Bare) : t.kind.isTerminal = false := by
  have hword := h.1
  cases hkind : t.kind <;> (rw [hkind] at hword; first | rfl | cases hword)

theorem Place.not_bare {p : Place} {kind : Kind} {n i : Nat} {t : Token} (hkind : kind.isTerminal = true)
    (hi : [p.token kind n][i]? = some t) : ¬ t.Bare := by
  intro hbare
  obtain rfl := List.mem_singleton.1 (List.mem_of_getElem? hi)
  have hrunning : kind.isTerminal = false := hbare.not_terminal
  rw [hkind] at hrunning
  cases hrunning

theorem Place.token_zero (p : Place) (kind : Kind) : p.token kind 0 = ⟨kind, [], p.position⟩ := by
  simp [Place.token, Place.slice]

section
variable {source : List UInt8}

/-- A token of a scan that is a word: its rule saw to the delimiter, or the scanner asks for it. -/
theorem Scans.followed_token {owing : Bool} {p : Place} {kind : Kind} {n : Nat} {ts : List Token} {e? : Option ScanError}
    (hp : p.Within source) (hf : Lexeme.first p.ahead = .token kind n owing) (h : Scans owing (p.advance n) ts e?)
    (hbare : Lexeme.Bare p.ahead kind) : Delimited (Utf8.chars (source.drop (p.token kind n).stop)) ∨
      (kind ≠ .dot ∧ e? = some .expectedDelimiter ∧ ts[0]? = some ⟨.invalid, [], (p.advance n).position⟩) := by
  have hrule := Lexeme.disciplined_of_first hf
  rw [Place.stop_token, (hp.advance n).chars_drop, Place.ahead_advance]
  cases owing with
  | false => exact Or.inl (hrule hbare)
  | true =>
    rcases h.owed with hd | ⟨-, rfl, rfl⟩
    · rw [Place.ahead_advance] at hd
      exact Or.inl hd
    · exact Or.inr ⟨hrule.2, rfl, by rw [Place.token_zero]; rfl⟩

/-- **Behind a word of a scan** stands a delimiter, or the error that there is none. -/
theorem Scans.followed {owing : Bool} {p : Place} {ts : List Token} {e? : Option ScanError} (h : Scans owing p ts e?) :
    p.Within source → ∀ (i : Nat) (t : Token), ts[i]? = some t → t.Bare →
      Delimited (Utf8.chars (source.drop t.stop)) ∨
        (t.kind ≠ .dot ∧ e? = some .expectedDelimiter ∧ ts[i + 1]? = some ⟨.invalid, [], t.position.past t.text⟩ ∧
          (t.position.past t.text).offset = t.stop) := by
  induction h with
  | skip _ _ ih => exact fun hp => ih (hp.advance _)
  | @token p kind n owing ts e? hf hrest ih =>
    intro hp i t hi hbare
    cases i with
    | succ i => exact ih (hp.advance n) i t hi hbare
    | zero =>
      obtain rfl : p.token kind n = t := Option.some.inj hi
      have hadv := Lexeme.advances_first p.ahead
      rw [hf, Lexeme.advances_token] at hadv
      have hpast : (p.token kind n).position.past (p.token kind n).text = (p.advance n).position := Place.past_slice n p
      rw [hpast, Place.stop_token]
      exact (hrest.followed_token hp hf ((Place.bare_token hadv).1 hbare)).imp (by rw [Place.stop_token]; exact id)
        fun ⟨hdot, he, hts⟩ => ⟨hdot, he, hts, rfl⟩
  | invalid => exact fun _ i t hi hbare => absurd hbare (Place.not_bare rfl hi)
  | done => exact fun _ i t hi hbare => absurd hbare (Place.not_bare rfl hi)
  | delimited _ _ ih => exact ih
  | undelimited => exact fun _ i t hi hbare => absurd hbare (Place.not_bare rfl hi)

/-- A missing delimiter shows behind `u`. -/
def Lacks (source : List UInt8) (u t : Token) : Prop :=
  u.Bare ∧ u.kind ≠ .dot ∧ u.stop = t.position.offset ∧ ¬ Delimited (Utf8.chars (source.drop t.position.offset))

/-- **How a scan ends that has an error**: with a text that the error is about, or with none behind a word that lacks
its delimiter.  Where a delimiter is owing at the start, the word stands in front of the scan. -/
theorem Scans.ends {owing : Bool} {p : Place} {ts : List Token} {e? : Option ScanError} (h : Scans owing p ts e?) :
    p.Within source → ∀ t : Token, ts.getLast? = some t → t.kind = .invalid →
      (e? ≠ some .expectedDelimiter ∧ t.text ≠ []) ∨ (e? = some .expectedDelimiter ∧ t.text = [] ∧
        ((owing = true ∧ ts = [t] ∧ t.position = p.position ∧ ¬ Delimited p.ahead) ∨
          ∃ init u, ts = init ++ [u, t] ∧ Lacks source u t)) := by
  induction h with
  | skip _ _ ih =>
    intro hp t ht hkind
    rcases ih (hp.advance _) t ht hkind with h | ⟨he, htext, ⟨howing, -⟩ | hlacks⟩
    · exact Or.inl h
    · cases howing
    · exact Or.inr ⟨he, htext, Or.inr hlacks⟩
  | @token p kind n owing ts e? hf hrest ih =>
    intro hp t ht hkind
    have hlast : ts.getLast? = some t := by
      rw [← ht]
      exact (List.getLast?_cons_of_ne_nil hrest.ne_nil).symm
    rcases ih (hp.advance n) t hlast hkind with h | ⟨he, htext, ⟨howing, hts, hpos, hd⟩ | ⟨init, u, hts, hlacks⟩⟩
    · exact Or.inl h
    · subst howing
      have hrule := Lexeme.disciplined_of_first hf
      have hadv := Lexeme.advances_first p.ahead
      rw [hf, Lexeme.advances_token] at hadv
      refine Or.inr ⟨he, htext, Or.inr ⟨[], p.token kind n, by rw [hts]; rfl, (Place.bare_token hadv).2 hrule.1, hrule.2, ?_⟩⟩
      rw [Place.stop_token, hpos, (hp.advance n).chars_drop]
      exact ⟨rfl, hd⟩
    · exact Or.inr ⟨he, htext, Or.inr ⟨p.token kind n :: init, u, by rw [hts]; rfl, hlacks⟩⟩
  | @invalid p e n hf =>
    intro hp t ht hkind
    obtain rfl : p.token .invalid n = t := Option.some.inj ht
    have hrule := Lexeme.disciplined_of_first hf
    refine Or.inl ⟨fun he => hrule.1 (Option.some.inj he), Place.text_ne_nil hrule.2 (fun hnil => ?_) .invalid⟩
    rw [hnil] at hf
    cases hf
  | done =>
    intro hp t ht hkind
    obtain rfl := Option.some.inj ht
    cases hkind
  | delimited _ _ ih =>
    intro hp t ht hkind
    rcases ih hp t ht hkind with h | ⟨he, htext, ⟨howing, -⟩ | hlacks⟩
    · exact Or.inl h
    · cases howing
    · exact Or.inr ⟨he, htext, Or.inr hlacks⟩
  | @undelimited p hd =>
    intro hp t ht hkind
    obtain rfl : p.token .invalid 0 = t := Option.some.inj ht
    exact Or.inr ⟨rfl, by rw [Place.token_zero], Or.inl ⟨rfl, rfl, rfl, hd⟩⟩

end

/-- **A scanner keeps its words apart.**  Behind every word stands a delimiter or the end of the source, or the stream
ends there with the error of a missing delimiter; and nowhere else has it this error. -/
theorem delimiters_scanned (name : String) (source : List UInt8) :
    DelimitersKept source (Scanner.ofBytes name source).tokens (Scanner.ofBytes name source).finish.error? := by
  have h := (Scanner.scans_iff name source).2 ⟨rfl, rfl⟩
  have hwithin := Place.within_start source
  refine ⟨h.followed hwithin, fun t ht hkind => ?_, fun t ht hkind htext => ?_⟩
  · rcases h.ends hwithin t ht hkind with ⟨he, htext⟩ | ⟨he, htext, -⟩
    · exact ⟨fun h => absurd h he, fun h => absurd h htext⟩
    · exact ⟨fun _ => htext, fun _ => he⟩
  · rcases h.ends hwithin t ht hkind with ⟨-, hne⟩ | ⟨-, -, ⟨howing, -⟩ | ⟨init, u, hts, hlacks⟩⟩
    · exact absurd htext hne
    · cases howing
    · exact ⟨init, u, hts, hlacks⟩

end SchemeLexer
