import SchemeLexer.Proofs.Opening
/-!
# Quotations — strings and barred identifiers as their grammar has them

Between two marks `q` stand characters and escape sequences, one behind the other: `Body q` is what they make up.  The
rule for enclosed text passes over a body whatever stands behind it (`enclosed_body`), and a text that it does not find
closed is a body without an end, or has an escape sequence in it that is none (`enclosed_cases`).  So of a source that a
mark begins, the body settles what becomes of it (`tokens_enclosure`).
-/
namespace SchemeLexer

open Utf8 (ascii chars)

namespace Lexeme

/-- What may stand between two marks `q`. -/
inductive Body (q : Char) : List Char → Prop
  | nil : Body q []
  | char {c : Char} {cs : List Char} : c ≠ q → c ≠ '\\' → Body q cs → Body q (c :: cs)
  | escape {u cs : List Char} : Escape q u → Body q cs → Body q (u ++ cs)

theorem enclosed_mark (q : Char) (cs : List Char) : enclosed q (q :: cs) = .accept 1 := by rw [enclosed_cons, if_pos rfl]

theorem enclosed_char {q c : Char} (hq : c ≠ q) (hb : c ≠ '\\') (cs : List Char) :
    enclosed q (c :: cs) = (enclosed q cs).shift 1 := by
  rw [enclosed_cons, if_neg hq, if_neg hb]

end Lexeme

open Lexeme (Body Escape enclosed)

/-- What has a mark at either end: a string or an identifier. -/
inductive Enclosure
  | string
  | identifier
  deriving Repr, DecidableEq

namespace Enclosure

def mark : Enclosure → Char
  | string => '"'
  | identifier => '|'

def kind : Enclosure → Kind
  | string => .string
  | identifier => .identifier

theorem mark_ascii : ∀ e : Enclosure, e.mark.toNat < 0x80
  | string | identifier => by decide

theorem mark_not_blank : ∀ e : Enclosure, isInlineWhitespace e.mark = false
  | string | identifier => rfl

theorem mark_ne_newline : ∀ e : Enclosure, e.mark ≠ '\n'
  | string | identifier => by decide

theorem mark_ne_backslash : ∀ e : Enclosure, e.mark ≠ '\\'
  | string | identifier => by decide

theorem mark_ne_x : ∀ e : Enclosure, e.mark ≠ 'x'
  | string | identifier => by decide

theorem first_mark (cs : List Char) : ∀ e : Enclosure,
    Lexeme.first (e.mark :: cs) = Lexeme.ofReading e.kind false ((enclosed e.mark cs).shift 1)
  | string | identifier => rfl

variable {e : Enclosure}

/-! ## Bodies are passed over -/

theorem enclosed_blanks {ws : List Char} (hw : ∀ c ∈ ws, isInlineWhitespace c = true) (t : List Char) :
    enclosed e.mark (ws ++ t) = (enclosed e.mark t).shift ws.length := by
  induction ws with
  | nil => rw [List.nil_append, List.length_nil, Reading.shift, Nat.zero_add]
  | cons c ws ih =>
    obtain ⟨hc, hw⟩ := List.forall_mem_cons.1 hw
    have hq : c ≠ e.mark := by
      rintro rfl
      rw [e.mark_not_blank] at hc; cases hc
    have hb : c ≠ '\\' := by
      rintro rfl
      cases hc
    rw [List.cons_append, Lexeme.enclosed_char hq hb, ih hw, Reading.shift_shift, List.length_cons, Nat.add_comm]

/-- **An escape sequence is passed over**, whatever stands behind it. -/
theorem enclosed_escape {u : List Char} (h : Escape e.mark u) (t : List Char) :
    enclosed e.mark (u ++ t) = (enclosed e.mark t).shift u.length := by
  have hq := e.mark_ne_backslash.symm
  cases h with
  | @code ds hne hd =>
    have hread : Lexeme.escape e.mark (('x' :: (ds ++ [';'])) ++ t) = .accept ('x' :: (ds ++ [';'])).length := by
      have hcode := Lexeme.escape_code (q := e.mark) hne hd t
      simpa using hcode
    rw [List.cons_append, Lexeme.enclosed_escape hq hread, Nat.add_comm]
    rfl
  | @letter c hc =>
    have hx : c ≠ 'x' := by
      rintro rfl
      simp [e.mark_ne_x.symm] at hc
    have hread := Lexeme.escape_letter hx ((Lexeme.isEscapeLetter_or_iff e.mark c).2 hc) t
    exact Lexeme.enclosed_escape hq (u := [c]) hread
  | @line ws vs hw hv =>
    -- the blanks behind a line end run on into the text behind it
    obtain ⟨ys, rest, rfl, hy, hr, -⟩ := Text.exists_run isInlineWhitespace t
    have hvy : ∀ c ∈ vs ++ ys, isInlineWhitespace c = true := List.forall_mem_append.2 ⟨hv, hy⟩
    have hread : Lexeme.escape e.mark ((ws ++ '\n' :: (vs ++ ys)) ++ rest) =
        .accept (ws ++ '\n' :: (vs ++ ys)).length := by
      have hline := Lexeme.escape_line e.mark_not_blank e.mark_ne_newline hw hvy hr
      simpa [Nat.add_assoc, Nat.add_comm 1] using hline
    have htext : '\\' :: (ws ++ '\n' :: vs) ++ (ys ++ rest) = '\\' :: ((ws ++ '\n' :: (vs ++ ys)) ++ rest) := by simp
    rw [htext, Lexeme.enclosed_escape hq hread, enclosed_blanks hy, Reading.shift_shift]
    congr 1
    simp only [List.length_cons, List.length_append]
    omega

/-- **A body is passed over**, whatever stands behind it. -/
theorem enclosed_body {b : List Char} (h : Body e.mark b) (t : List Char) :
    enclosed e.mark (b ++ t) = (enclosed e.mark t).shift b.length := by
  induction h with
  | nil => rw [List.nil_append, List.length_nil, Reading.shift, Nat.zero_add]
  | char hq hb _ ih =>
    rw [List.cons_append, Lexeme.enclosed_char hq hb, ih, Reading.shift_shift, List.length_cons, Nat.add_comm]
  | escape hu _ ih => rw [List.append_assoc, enclosed_escape hu, ih, Reading.shift_shift, List.length_append]

theorem enclosed_closed {b : List Char} (h : Body e.mark b) (t : List Char) :
    enclosed e.mark (b ++ e.mark :: t) = .accept (b.length + 1) := by
  rw [enclosed_body h, Lexeme.enclosed_mark, Reading.shift_accept]

theorem enclosed_open {cs : List Char} (h : Body e.mark cs) :
    enclosed e.mark cs = .reject .unexpectedEof cs.length := by
  have hend := enclosed_body h []
  rwa [List.append_nil, Lexeme.enclosed_nil] at hend

/-- **What stands behind a mark** is a body with a mark behind it, a body without an end, or goes wrong in an escape
sequence. -/
theorem enclosed_cases (e : Enclosure) : ∀ cs : List Char,
    (∃ b t, cs = b ++ e.mark :: t ∧ Body e.mark b) ∨ Body e.mark cs ∨
      (enclosed e.mark cs).error? = some .invalidEscape
  | [] => Or.inr (Or.inl .nil)
  | c :: cs => by
    by_cases hq : c = e.mark
    · exact Or.inl ⟨[], cs, by rw [hq, List.nil_append], .nil⟩
    · by_cases hb : c = '\\'
      · rcases Lexeme.error?_escape e.mark cs with hok | hbad
        · obtain ⟨u, t, rfl, hu, -⟩ := Lexeme.escape_sound e.mark cs hok
          have hlen : t.length < (c :: (u ++ t)).length := by rw [List.length_cons, List.length_append]; omega
          rw [hb, ← List.cons_append]
          rcases enclosed_cases e t with ⟨b, r, rfl, hbody⟩ | hbody | herror
          · exact Or.inl ⟨_, r, (List.append_assoc ..).symm, .escape hu hbody⟩
          · exact Or.inr (Or.inl (.escape hu hbody))
          · exact Or.inr (Or.inr (by rw [enclosed_escape hu, Reading.error?_shift, herror]))
        · refine Or.inr (Or.inr ?_)
          have hnot : (Lexeme.escape e.mark cs).isOk = false := by rw [Reading.isOk, hbad]; rfl
          rw [Lexeme.enclosed_cons, if_neg hq, if_pos hb, if_neg (by simp [hnot]), Reading.error?_shift, hbad]
      · rcases enclosed_cases e cs with ⟨b, t, rfl, hbody⟩ | hbody | herror
        · exact Or.inl ⟨c :: b, t, rfl, .char hq hb hbody⟩
        · exact Or.inr (Or.inl (.char hq hb hbody))
        · exact Or.inr (Or.inr (by rw [Lexeme.enclosed_char hq hb, Reading.error?_shift, herror]))
termination_by cs => cs.length

/-! ## The first token -/

/-- A text begins with a body and the mark behind it. -/
def Encloses (e : Enclosure) (b r : List UInt8) : Prop := Body e.mark (chars b) ∧ b ++ ascii [e.mark] <+: r

variable {b r : List UInt8}

theorem chars_mark_append (e : Enclosure) (r : List UInt8) : chars (ascii [e.mark] ++ r) = e.mark :: chars r :=
  Utf8.chars_ascii_append (List.forall_mem_singleton.2 e.mark_ascii) r

theorem fresh_mark (e : Enclosure) (r : List UInt8) : Utf8.Fresh (ascii [e.mark] ++ r) :=
  (Utf8.fresh_cons ..).2 (Utf8.byte_lt_of_ascii e.mark_ascii)

theorem exists_encloses {cs t : List Char} (hr : chars r = cs ++ e.mark :: t) (h : Body e.mark cs) :
    ∃ b, e.Encloses b r := by
  obtain ⟨b, y, rfl, rfl, hy⟩ := Utf8.exists_append_of_chars hr
  obtain ⟨rest, rfl, -⟩ := Utf8.exists_cons_of_chars e.mark_ascii hy
  exact ⟨b, h, rest, List.append_assoc ..⟩

theorem Encloses.enclosed (h : e.Encloses b r) : enclosed e.mark (chars r) = .accept ((chars b).length + 1) := by
  obtain ⟨hbody, t, rfl⟩ := h
  rw [List.append_assoc, Utf8.chars_append (e.fresh_mark t), e.chars_mark_append, enclosed_closed hbody]

/-- **A text is closed in one place.** -/
theorem Encloses.unique {b' : List UInt8} (h : e.Encloses b r) (h' : e.Encloses b' r) : b = b' := by
  have htaken : (chars b).length = (chars b').length := by
    have heq := h.enclosed.symm.trans h'.enclosed
    simpa [Reading.accept] using heq
  obtain ⟨-, t, rfl⟩ := h
  obtain ⟨-, t', ht⟩ := h'
  have hlen : (b ++ ascii [e.mark]).length = (b' ++ ascii [e.mark]).length := by
    rw [← Utf8.width_append_ascii e.mark_ascii b t, ← Utf8.width_append_ascii e.mark_ascii b' t', ht, htaken]
  exact (List.append_cancel_right (List.append_inj_left ht hlen.symm)).symm

theorem Encloses.head?_tokens (h : e.Encloses b r) (name : String) :
    (Scanner.ofBytes name (ascii [e.mark] ++ r)).tokens.head? =
      some ⟨e.kind, ascii [e.mark] ++ b ++ ascii [e.mark], .start⟩ := by
  have hfirst : Lexeme.first (chars (ascii [e.mark] ++ r)) = .token e.kind ((chars b).length + 1 + 1) false := by
    rw [e.chars_mark_append, e.first_mark, h.enclosed, Reading.shift_accept, Nat.add_comm 1]
    rfl
  rw [Scanner.head?_tokens_of_first hfirst]
  obtain ⟨-, t, rfl⟩ := h
  have htoken := Place.token_append_ascii e.mark_ascii .start (ascii [e.mark] ++ b) t e.kind
  rw [e.chars_mark_append, List.length_cons] at htoken
  rw [← List.append_assoc, ← List.append_assoc, htoken]

theorem tokens_of_open (h : Body e.mark (chars r)) (name : String) :
    (Scanner.ofBytes name (ascii [e.mark] ++ r)).tokens = [⟨.invalid, ascii [e.mark] ++ r, .start⟩] ∧
      (Scanner.ofBytes name (ascii [e.mark] ++ r)).finish.error? = some .unexpectedEof := by
  have hfirst : Lexeme.first (chars (ascii [e.mark] ++ r)) =
      .invalid .unexpectedEof (chars (ascii [e.mark] ++ r)).length := by
    rw [e.chars_mark_append, e.first_mark, enclosed_open h, List.length_cons, Nat.add_comm]
    rfl
  have hall := Place.slice_all Utf8.fresh_nil .start (ascii [e.mark] ++ r)
  rw [List.append_nil] at hall
  obtain ⟨htokens, herror⟩ := @Scanner.tokens_of_first_invalid name _ _ _ hfirst
  rw [Place.token, hall] at htokens
  exact ⟨htokens, herror⟩

theorem tokens_of_escape (h : (Lexeme.enclosed e.mark (chars r)).error? = some .invalidEscape) (name : String) :
    ∃ text, (Scanner.ofBytes name (ascii [e.mark] ++ r)).tokens = [⟨.invalid, text, .start⟩] ∧
      (Scanner.ofBytes name (ascii [e.mark] ++ r)).finish.error? = some .invalidEscape := by
  have hfirst : Lexeme.first (chars (ascii [e.mark] ++ r)) =
      .invalid .invalidEscape (1 + (Lexeme.enclosed e.mark (chars r)).taken) := by
    rw [e.chars_mark_append, e.first_mark, Lexeme.ofReading, Reading.error?_shift, h]
    rfl
  exact ⟨_, Scanner.tokens_of_first_invalid hfirst⟩

/-- **What the first token of such a source is**, case by case. -/
theorem tokens_cases (e : Enclosure) (r : List UInt8) (name : String) :
    (∃ b, e.Encloses b r) ∨
    (Body e.mark (chars r) ∧
      (Scanner.ofBytes name (ascii [e.mark] ++ r)).tokens = [⟨.invalid, ascii [e.mark] ++ r, .start⟩] ∧
      (Scanner.ofBytes name (ascii [e.mark] ++ r)).finish.error? = some .unexpectedEof) ∨
    ∃ text, (Scanner.ofBytes name (ascii [e.mark] ++ r)).tokens = [⟨.invalid, text, .start⟩] ∧
      (Scanner.ofBytes name (ascii [e.mark] ++ r)).finish.error? = some .invalidEscape := by
  rcases enclosed_cases e (chars r) with ⟨cs, t, hcs, hbody⟩ | hbody | herror
  · exact Or.inl (exists_encloses hcs hbody)
  · exact Or.inr (Or.inl ⟨hbody, tokens_of_open hbody name⟩)
  · exact Or.inr (Or.inr (tokens_of_escape herror name))

theorem content_iff (name : String) : (Scanner.ofBytes name (ascii [e.mark] ++ r)).tokens.head?.map Token.content =
    some (e.kind, ascii [e.mark] ++ b ++ ascii [e.mark]) ↔ e.Encloses b r := by
  constructor
  · intro hb
    have hkind : e.kind ≠ .invalid := by cases e <;> decide
    rcases tokens_cases e r name with ⟨b', h⟩ | ⟨-, htokens, -⟩ | ⟨text, htokens, -⟩
    · rw [h.head?_tokens, Option.map_some, Option.some.injEq] at hb
      have htext := List.append_cancel_left (List.append_cancel_right (congrArg Prod.snd hb))
      exact htext ▸ h
    · rw [htokens] at hb
      exact absurd (congrArg Prod.fst (Option.some.inj hb)).symm hkind
    · rw [htokens] at hb
      exact absurd (congrArg Prod.fst (Option.some.inj hb)).symm hkind
  · intro h
    rw [h.head?_tokens]
    rfl

/-- **A source that a mark begins** has for its first token what the mark encloses, up to the one place where that is
closed.  Where it is closed nowhere, it is invalid: all of the source if that is a body without an end, and for an
escape sequence otherwise. -/
theorem tokens_enclosure (name : String) (e : Enclosure) (r : List UInt8) :
    let s := Scanner.ofBytes name (ascii [e.mark] ++ r)
    (∀ b, s.tokens.head?.map Token.content = some (e.kind, ascii [e.mark] ++ b ++ ascii [e.mark]) ↔ e.Encloses b r) ∧
    (∀ b b', e.Encloses b r → e.Encloses b' r → b = b') ∧
    ((∀ b, ¬ e.Encloses b r) →
      (Body e.mark (chars r) →
        s.tokens = [⟨.invalid, ascii [e.mark] ++ r, .start⟩] ∧ s.finish.error? = some .unexpectedEof) ∧
      (¬ Body e.mark (chars r) →
        ∃ text, s.tokens = [⟨.invalid, text, .start⟩] ∧ s.finish.error? = some .invalidEscape)) := by
  refine ⟨fun b => content_iff name, fun b b' h h' => h.unique h', fun hnone => ⟨fun h => ?_, fun h => ?_⟩⟩
  · exact tokens_of_open h name
  · rcases tokens_cases e r name with ⟨b, hb⟩ | ⟨hbody, -⟩ | herror
    · exact absurd hb (hnone b)
    · exact absurd hbody h
    · exact herror

end Enclosure
end SchemeLexer
