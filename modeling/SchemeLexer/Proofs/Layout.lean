import SchemeLexer.Proofs.Tiling
/-!
# Layout — tokens keep their meaning wherever they are put

A token is what its text makes it: its text alone, or with a delimiter behind it, reads as that token again
(`Scans.stands`).  So the tokens of a source may be laid out anew, with other blanks between them, and a scan of the new
text finds the same tokens.
-/
namespace SchemeLexer

open Lexeme (Blank)

/-- The kind and the text of a token: all of it but where it stands. -/
def Token.content (t : Token) : Kind × List UInt8 := (t.kind, t.text)

/-- The tokens without the one that ends the stream. -/
def Scanner.words (s : Scanner) : List Token := s.tokens.filter fun t => !t.kind.isTerminal

/-- Tokens written one behind the other, a blank text behind each.  It begins with whitespace, and only behind the last
token may it be missing. -/
inductive LaidOut : List Token → List UInt8 → Prop
  | nil : LaidOut [] []
  | cons {t : Token} {ts : List Token} {s body : List UInt8} : Blank (Utf8.chars s) →
    (∃ c ∈ (Utf8.chars s).head?, isWhitespace c = true) ∨ (s = [] ∧ ts = []) → LaidOut ts body →
      LaidOut (t :: ts) (t.text ++ s ++ body)

/-- A token that its text alone makes, whatever delimiter follows. -/
structure Stands (t : Token) : Prop where
  fresh : Utf8.Fresh t.text
  first : ∃ owing, ∀ b, Delimited b → Lexeme.first (Utf8.chars t.text ++ b) = .token t.kind (Utf8.chars t.text).length owing

theorem stands_token {p : Place} {kind : Kind} {n : Nat} {owing : Bool}
    (h : Lexeme.first p.ahead = .token kind n owing) : Stands (p.token kind n) := by
  have hadv := Lexeme.advances_first p.ahead
  rw [h, Lexeme.advances_token] at hadv
  obtain ⟨-, w, rest, hcs, hn, hw⟩ := Lexeme.settled_first p.ahead kind n owing h
  have hchars : Utf8.chars (p.token kind n).text = w := by
    rw [p.chars_text_token, hcs, hn, Nat.zero_add, List.take_left]
  constructor
  · cases w with
    | nil =>
      rw [List.length_nil] at hn
      omega
    | cons c w =>
      rw [hcs, List.cons_append] at h
      exact Utf8.fresh_of_chars hchars (Lexeme.toNat_lt_of_token h)
  · refine ⟨owing, fun b hb => ?_⟩
    rw [hchars, hw b (Or.inl hb), hn, Nat.zero_add]
    rfl

/-- **Every token of a scan stands by itself**, those that end it apart. -/
theorem Scans.stands {owing : Bool} {p : Place} {ts : List Token} {e? : Option ScanError} (h : Scans owing p ts e?) :
    ∀ t ∈ ts, t.kind.isTerminal = false → Stands t := by
  induction h with
  | skip _ _ ih => exact ih
  | token hf _ ih =>
    intro t ht hkind
    rcases List.mem_cons.1 ht with rfl | ht
    · exact stands_token hf
    · exact ih t ht hkind
  | invalid =>
    intro t ht hkind
    rw [List.mem_singleton.1 ht] at hkind
    cases hkind
  | done =>
    intro t ht hkind
    rw [List.mem_singleton.1 ht] at hkind
    cases hkind
  | delimited _ _ ih => exact ih
  | undelimited =>
    intro t ht hkind
    rw [List.mem_singleton.1 ht] at hkind
    cases hkind

/-! ## What is laid out -/

theorem Lexeme.Blank.fresh {s : List UInt8} (h : Blank (Utf8.chars s)) : Utf8.Fresh s := by
  cases hs : Utf8.chars s with
  | nil => rw [Utf8.chars_eq_nil hs]; exact Utf8.fresh_nil
  | cons c cs => exact Utf8.fresh_of_chars hs (h.head_ascii hs)

theorem Delimited.fresh {b : List UInt8} (h : Delimited (Utf8.chars b)) : Utf8.Fresh b := by
  cases hb : Utf8.chars b with
  | nil => rw [Utf8.chars_eq_nil hb]; exact Utf8.fresh_nil
  | cons c cs =>
    rw [hb, delimited_cons] at h
    have hascii : (decide (0x80 ≤ c.toNat)) = false := not_of_isDelimiter (p := fun c => 0x80 ≤ c.toNat) (by decide) h
    exact Utf8.fresh_of_chars hb (Nat.lt_of_not_le (of_decide_eq_false hascii))

theorem Utf8.fresh_append {b c : List UInt8} (hb : Fresh b) (hc : b = [] → Fresh c) : Fresh (b ++ c) := by
  cases b with
  | nil => exact hc rfl
  | cons x b => exact hb

theorem Scans.blank_append {s c : List UInt8} (hs : Blank (Utf8.chars s)) (hc : Utf8.Fresh c) {q : Position}
    {ts : List Token} {e? : Option ScanError} (h : Scans false ⟨q.past s, c⟩ ts e?) :
    Scans false ⟨q, s ++ c⟩ ts e? := by
  refine .blank hs (Utf8.chars_append hc s) ?_
  rw [Place.advance_all hc]
  exact h

namespace LaidOut

variable {ts : List Token} {body : List UInt8}

theorem fresh (h : LaidOut ts body) (hts : ∀ t ∈ ts, Stands t) : Utf8.Fresh body := by
  induction h with
  | nil => exact Utf8.fresh_nil
  | @cons t ts s body hs hgap hbody ih =>
    have hrest : Utf8.Fresh body := ih fun u hu => hts u (List.mem_cons_of_mem _ hu)
    rw [List.append_assoc]
    exact Utf8.fresh_append (hts t List.mem_cons_self).fresh fun _ => Utf8.fresh_append hs.fresh fun _ => hrest

theorem delimited {s : List UInt8} (h : LaidOut ts body) (hfresh : Utf8.Fresh body)
    (hgap : (∃ c ∈ (Utf8.chars s).head?, isWhitespace c = true) ∨ (s = [] ∧ ts = [])) :
    Delimited (Utf8.chars (s ++ body)) := by
  rw [Utf8.chars_append hfresh]
  rcases hgap with ⟨c, hc, hw⟩ | ⟨rfl, rfl⟩
  · cases hs : Utf8.chars s with
    | nil => rw [hs] at hc; cases hc
    | cons d ds =>
      rw [hs] at hc
      cases hc
      exact isDelimiter_of_isWhitespace hw
  · cases h
    exact delimited_nil

/-- **A layout reads as the tokens laid out**, and then the input ends. -/
theorem scans (h : LaidOut ts body) (hts : ∀ t ∈ ts, Stands t) : ∀ q : Position, ∃ us,
    Scans false ⟨q, body⟩ us none ∧ us.map Token.content = ts.map Token.content ++ [(.endOfInput, [])] := by
  induction h with
  | nil =>
    intro q
    exact ⟨_, .of_ahead_nil rfl, by simp [Place.token, Token.content, Place.slice]⟩
  | @cons t ts s body hs hgap hbody ih =>
    intro q
    have hts' : ∀ u ∈ ts, Stands u := fun u hu => hts u (List.mem_cons_of_mem _ hu)
    have hfresh := hbody.fresh hts'
    have hfresh' : Utf8.Fresh (s ++ body) := Utf8.fresh_append hs.fresh fun _ => hfresh
    have hdel := hbody.delimited hfresh hgap
    obtain ⟨us, hus, hcontent⟩ := ih hts' ((q.past t.text).past s)
    have hrest : Scans false ⟨q.past t.text, s ++ body⟩ us none := .blank_append hs hfresh hus
    obtain ⟨owing, hfirst⟩ := (hts t List.mem_cons_self).first
    have hf : Lexeme.first (Place.ahead ⟨q, t.text ++ (s ++ body)⟩) = .token t.kind (Utf8.chars t.text).length owing := by
      rw [Place.ahead, Utf8.chars_append hfresh', hfirst _ hdel]
    have hnext : Scans owing (Place.advance (Utf8.chars t.text).length ⟨q, t.text ++ (s ++ body)⟩) us none := by
      rw [Place.advance_all hfresh']
      cases owing with
      | false => exact hrest
      | true => exact .delimited hdel hrest
    rw [List.append_assoc]
    refine ⟨_, .token hf hnext, ?_⟩
    rw [List.map_cons, hcontent, Token.content, Place.token, Place.slice_all hfresh']
    rfl

end LaidOut

theorem Scanner.stands_words (name : String) (source : List UInt8) : ∀ t ∈ (ofBytes name source).words, Stands t := by
  intro t ht
  obtain ⟨ht, hkind⟩ := List.mem_filter.1 ht
  have h := (scans_iff name source).2 ⟨rfl, rfl⟩
  exact h.stands t ht (by simpa using hkind)

theorem LaidOut.tokens {ts : List Token} {s₀ body : List UInt8} (hts : ∀ t ∈ ts, Stands t) (h₀ : Blank (Utf8.chars s₀))
    (h : LaidOut ts body) (name : String) :
    (Scanner.ofBytes name (s₀ ++ body)).tokens.map Token.content = ts.map Token.content ++ [(.endOfInput, [])] ∧
      (Scanner.ofBytes name (s₀ ++ body)).finish.error? = none := by
  obtain ⟨us, hus, hcontent⟩ := h.scans hts (Position.past .start s₀)
  obtain ⟨htokens, herror⟩ := (Scanner.scans_iff name _).1 (.blank_append h₀ (h.fresh hts) hus)
  rw [htokens]
  exact ⟨hcontent, herror⟩

/-- **Tokens keep their kinds and texts in any layout**, and each of them keeps its own when it stands alone. -/
theorem contents_laidOut (name : String) (source : List UInt8) :
    (∀ name' s₀ body, Blank (Utf8.chars s₀) → LaidOut (Scanner.ofBytes name source).words body →
      (Scanner.ofBytes name' (s₀ ++ body)).tokens.map Token.content =
        (Scanner.ofBytes name source).words.map Token.content ++ [(.endOfInput, [])] ∧
      (Scanner.ofBytes name' (s₀ ++ body)).finish.error? = none) ∧
    ∀ name', ∀ t ∈ (Scanner.ofBytes name source).words,
      (Scanner.ofBytes name' t.text).tokens.map Token.content = [t.content, (.endOfInput, [])] ∧
      (Scanner.ofBytes name' t.text).finish.error? = none := by
  have hstands := Scanner.stands_words name source
  constructor
  · intro name' s₀ body h₀ h
    exact h.tokens hstands h₀ name'
  · intro name' t ht
    have hone : ∀ u ∈ [t], Stands u := fun u hu => List.mem_singleton.1 hu ▸ hstands t ht
    have h : LaidOut [t] (t.text ++ [] ++ []) := .cons .nil (Or.inr ⟨rfl, rfl⟩) .nil
    have hnil : Blank (Utf8.chars []) := .nil
    have htokens := h.tokens hone hnil name'
    rw [List.append_nil, List.append_nil, List.nil_append] at htokens
    exact htokens

/-- The tokens of `x(`, written on a line of their own with a space between them. -/
theorem contents_laidOut_line :
    (Scanner.ofBytes "line" (Utf8.ascii [' ', 'x', ' ', '(', '\n'])).tokens.map Token.content =
      [(.identifier, Utf8.ascii ['x']), (.openParen, Utf8.ascii ['(']), (.endOfInput, [])] := by
  have hscan : Scans false ⟨.start, Utf8.ascii ['x', '(']⟩ _ _ :=
    .token rfl (.delimited rfl (.token rfl (.of_ahead_nil rfl)))
  have hwords : (Scanner.ofBytes "source" (Utf8.ascii ['x', '('])).words =
      [⟨.identifier, Utf8.ascii ['x'], ⟨0, 1, 1⟩⟩, ⟨.openParen, Utf8.ascii ['('], ⟨1, 1, 2⟩⟩] := by
    rw [Scanner.words, ((Scanner.scans_iff "source" _).1 hscan).1]
    rfl
  have hspace : Blank [' '] := Lexeme.Atmosphere.blank (.space rfl)
  have hnewline : Blank ['\n'] := Lexeme.Atmosphere.blank (.space rfl)
  have h : LaidOut (Scanner.ofBytes "source" (Utf8.ascii ['x', '('])).words
      (Utf8.ascii ['x'] ++ Utf8.ascii [' '] ++ (Utf8.ascii ['('] ++ Utf8.ascii ['\n'] ++ [])) := by
    rw [hwords]
    exact .cons hspace (Or.inl ⟨' ', rfl, rfl⟩) (.cons hnewline (Or.inl ⟨'\n', rfl, rfl⟩) .nil)
  have htokens := ((contents_laidOut "source" (Utf8.ascii ['x', '('])).1 "line" (Utf8.ascii [' ']) _ hspace h).1
  rw [hwords] at htokens
  exact htokens

end SchemeLexer
