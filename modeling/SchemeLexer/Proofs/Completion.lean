import SchemeLexer.Proofs.Mending
/-!
# Completion — an error is reported where the source goes wrong

What stands before the error of a source may be completed: with other text behind it, it is a source without an error
(`completes_before_error`).  So a scanner never reads on past the character that spoils its source.

The rules look past a token by one character at most.  What a scan reads before its error it therefore reads again
where the source breaks off before the error and goes on otherwise, as long as the next token is begun; and where it is
not, nothing has to follow (`Resumable`).
-/
namespace SchemeLexer

open Utf8 (IsAscii)

namespace Lexeme

/-! ## One character past a token -/

/-- What may take the place of a text behind a token: nothing, or a text that begins with the same character. -/
def Echoes (rest t : List Char) : Prop := t = [] ∨ t.head? = rest.head?

theorem Echoes.delimited {rest t : List Char} (h : Echoes rest t) (hr : Delimited rest) : Delimited t := by
  rcases h with rfl | h
  · exact delimited_nil
  · rw [Delimited, h]
    exact hr

/-- What a rule finds at the head of `cs`, if it is a token that ends by itself, is found again where nothing follows it
or the same character does.  Of words nothing is said. -/
def Steady (cs : List Char) : Lexeme → Prop
  | token kind n false => Bare cs kind ∨
    ∃ w rest, cs = w ++ rest ∧ n = w.length ∧ ∀ t, Echoes rest t → first (w ++ t) = closed kind n
  | _ => True

section
variable {cs : List Char}

theorem steady_bare {kind : Kind} (h : Bare cs kind) (n : Nat) : Steady cs (closed kind n) := Or.inl h

theorem steady_closed {kind : Kind} {n : Nat} {w : List Char} (rest : List Char) (hn : n = w.length)
    (h : ∀ t, Echoes rest t → first (w ++ t) = closed kind n) : Steady (w ++ rest) (closed kind n) :=
  Or.inr ⟨w, rest, rfl, hn, h⟩

theorem steady_owing (kind : Kind) (r : Reading) : Steady cs (ofReading kind true r) :=
  ofReading_induction (fun _ => trivial) fun _ _ => trivial

end

theorem steady_dot : ∀ cs : List Char, Steady ('.' :: cs) (dot cs)
  | [] => steady_bare ⟨rfl, fun h => by cases h⟩ 1
  | _ :: _ =>
    iteInduction (fun _ => steady_bare ⟨rfl, fun h => by cases h⟩ 1) fun _ =>
    iteInduction (fun _ => trivial) fun _ =>
    iteInduction (fun _ => steady_owing ..) fun _ => trivial

theorem steady_signDot (s : Char) : ∀ cs : List Char, Steady (s :: '.' :: cs) (signDot s cs)
  | [] => trivial
  | _ :: _ =>
    iteInduction (fun _ => steady_owing ..) fun _ =>
    iteInduction (fun _ => trivial) fun _ => trivial

theorem bare_sign {s : Char} (hs : isSign s = true) (cs : List Char) : Bare (s :: cs) .identifier :=
  ⟨rfl, fun _ h => ne_bar_of_sign hs (Option.some.inj h)⟩

theorem steady_signed {s : Char} (hs : isSign s = true) : ∀ cs : List Char, Steady (s :: cs) (signed s cs)
  | [] => steady_bare (bare_sign hs _) 1
  | _ :: cs =>
    iteInduction (fun _ => steady_bare (bare_sign hs _) 1) fun _ =>
    iteInduction (fun hdot => hdot ▸ steady_signDot s cs) fun _ =>
    iteInduction (fun _ => steady_owing ..) fun _ =>
    iteInduction (fun _ => trivial) fun _ => trivial

theorem steady_blockComment (cs t : List Char) : Steady t (blockComment cs) := by
  unfold blockComment
  split
  · trivial
  · trivial

theorem steady_directive (t : List Char) : ∀ cs : List Char, Steady t (directive cs)
  | [] => trivial
  | _ :: _ => iteInduction (fun _ => trivial) fun _ => trivial

theorem steady_character (t : List Char) : ∀ cs : List Char, Steady ('#' :: t) (character cs)
  | [] => trivial
  | [_] => steady_bare ⟨rfl, fun h => by cases h⟩ 3
  | _ :: _ :: _ =>
    iteInduction (fun _ => steady_bare ⟨rfl, fun h => by cases h⟩ 3) fun _ =>
    iteInduction (fun _ => trivial) fun _ =>
    iteInduction (fun _ => trivial) fun _ => trivial

theorem steady_hashWord (cs : List Char) : Steady ('#' :: cs) (hashWord cs) := by
  obtain ⟨w, rest, rfl, -, -, hrun⟩ := Text.exists_run isSubsequent cs
  simp only [hashWord, hrun, List.take_left, List.drop_left]
  refine iteInduction (fun _ => trivial) fun _ => iteInduction (fun hword => ?_) fun _ => trivial
  refine iteInduction (fun hopen => ?_) fun _ => trivial
  cases rest with
  | nil => cases hopen
  | cons c rest =>
    obtain rfl : c = '(' := Option.some.inj hopen
    rcases eq_byteVector hword with rfl | rfl
    · exact @steady_closed .openByteVector 4 ['#', 'u', '8', '('] rest rfl fun _ _ => rfl
    · exact @steady_closed .openByteVector 4 ['#', 'U', '8', '('] rest rfl fun _ _ => rfl

theorem steady_hash : ∀ cs : List Char, Steady ('#' :: cs) (hash cs)
  | [] => trivial
  | c :: cs => by
    obtain ⟨rule, hrule, heq⟩ := exists_hashLeads c
    rw [heq]
    cases hrule with
    | bar => exact steady_blockComment cs _
    | bang => exact steady_directive _ cs
    | backslash => exact steady_character _ cs
    | openParen hc =>
      subst hc
      exact @steady_closed .openVector 2 ['#', '('] cs rfl fun _ _ => rfl
    | semicolon hc =>
      subst hc
      exact @steady_closed .commentDatum 2 ['#', ';'] cs rfl fun _ _ => rfl
    | marker => exact steady_owing ..
    | word => exact steady_hashWord (c :: cs)
    | other => trivial

theorem steady_enclosed {kind : Kind} {q : Char}
    (hrule : ∀ t, first (q :: t) = ofReading kind false ((enclosed q t).shift 1)) (cs : List Char) :
    Steady (q :: cs) (ofReading kind false ((enclosed q cs).shift 1)) := by
  cases herror : (enclosed q cs).error? with
  | some e => simp only [ofReading, Reading.error?_shift, herror, Steady]
  | none =>
    obtain ⟨w, rest, rfl, hw⟩ := enclosed_settled herror
    have hclosed : ∀ t, ofReading kind false ((enclosed q (w ++ t)).shift 1) = closed kind (1 + w.length) := fun t => by
      rw [hw, Reading.shift_accept]
      rfl
    rw [hclosed]
    exact @steady_closed kind _ (q :: w) rest (Nat.add_comm ..) fun t _ => by rw [List.cons_append, hrule, hclosed]

theorem steady_comma (cs : List Char) : Steady (',' :: cs) (comma cs) := by
  refine iteInduction (fun hat => ?_) fun hat => ?_
  · cases cs with
    | nil => cases hat
    | cons c cs =>
      obtain rfl : c = '@' := Option.some.inj hat
      exact @steady_closed .commaAt 2 [',', '@'] cs rfl fun _ _ => rfl
  · refine @steady_closed .comma 1 [','] cs rfl fun t ht => ?_
    have hrule : first ([','] ++ t) = comma t := rfl
    rw [hrule, comma]
    rcases ht with rfl | ht
    · rfl
    · rw [if_neg (ht ▸ hat)]

theorem steady_punctuation {c : Char} (hrule : ∀ t, first (c :: t) = punctuation c) (cs : List Char) :
    Steady (c :: cs) (punctuation c) := by
  unfold punctuation at hrule ⊢
  cases hkind : punctuation? c with
  | none => trivial
  | some kind =>
    simp only [hkind] at hrule
    exact @steady_closed kind 1 [c] cs rfl fun t _ => hrule t

theorem steady_first (c : Char) (cs : List Char) : Steady (c :: cs) (first (c :: cs)) := by
  obtain ⟨rule, hrule, heq⟩ := exists_leads c
  rw [heq]
  cases hrule with
  | initial => trivial
  | whitespace => trivial
  | digit => exact steady_owing ..
  | bar hc => subst hc; exact steady_enclosed heq cs
  | doubleQuote hc => subst hc; exact steady_enclosed heq cs
  | comma hc => subst hc; exact steady_comma cs
  | semicolon => trivial
  | hash hc => subst hc; exact steady_hash cs
  | dot hc => subst hc; exact steady_dot cs
  | sign hs => exact steady_signed hs cs
  | punctuation => exact steady_punctuation heq cs

/-- **A token is found again** where nothing follows it or the same character does, and a delimiter if it owes one. -/
theorem first_echoes {cs : List Char} {kind : Kind} {n : Nat} {owing : Bool} (h : first cs = .token kind n owing) :
    ∃ w rest, cs = w ++ rest ∧ n = w.length ∧
      ∀ t, Echoes rest t → (owing = true → Delimited t) → first (w ++ t) = .token kind n owing := by
  obtain ⟨-, w, rest, rfl, hn, hw⟩ := settled_first cs kind n owing h
  rw [Nat.zero_add] at hn
  cases owing with
  | true => exact ⟨w, rest, rfl, hn, fun t _ ht => hw t (Or.inl (ht rfl))⟩
  | false =>
    have hsteady : Steady (w ++ rest) (closed kind n) := by
      cases hcs : w ++ rest with
      | nil => rw [hcs] at h; cases h
      | cons c cs =>
        rw [hcs] at h
        exact (congrArg (Steady (c :: cs)) h).mp (steady_first c cs)
    rcases hsteady with hbare | ⟨w, rest, heq, hn, hagain⟩
    · have hdel : Delimited rest := by
        have hrule := disciplined_of_first h hbare
        rwa [hn, List.drop_left] at hrule
      exact ⟨w, rest, rfl, hn, fun t ht _ => hw t (Or.inl (ht.delimited hdel))⟩
    · exact ⟨w, rest, heq, hn, fun t ht _ => hagain t ht⟩

/-! ## The part of a text before its error -/

/-- A text that an ASCII text behind it makes one that scans, if a delimiter is owing before it or not.  Nothing is
completed by nothing. -/
def Resumable (owing : Bool) (u : List Char) : Prop := ∃ s, IsAscii s ∧ (u = [] → s = []) ∧ Clean owing (u ++ s)

theorem resumable_nil (owing : Bool) : Resumable owing [] := ⟨[], by decide, fun _ => rfl, .nil owing⟩

theorem Completable.resumable {u : List Char} (h : Completable u) : Resumable false u := by
  by_cases hu : u = []
  · rw [hu]
    exact resumable_nil false
  · obtain ⟨s, hs, hclean⟩ := h
    exact ⟨s, hs, fun hnil => absurd hnil hu, hclean⟩

theorem echoes_take {cs s : List Char} {k : Nat} (h : cs.take k = [] → s = []) : Echoes cs (cs.take k ++ s) := by
  cases hu : cs.take k with
  | nil => exact Or.inl (h hu)
  | cons c u =>
    refine Or.inr ?_
    rw [← List.take_append_drop k cs, hu]
    rfl

theorem Clean.owed {cs : List Char} (h : Clean true cs) : Delimited cs := by
  cases h with
  | delimited hd _ => exact hd

section
variable {cs : List Char} {n k : Nat}

theorem resumable_delimited (hd : Delimited cs) (h : Resumable false (cs.take k)) : Resumable true (cs.take k) := by
  obtain ⟨s, hs, hnil, hclean⟩ := h
  exact ⟨s, hs, hnil, .delimited ((echoes_take hnil).delimited hd) hclean⟩

theorem resumable_skip (hf : first cs = .skip n) (h : Resumable false ((cs.drop n).take k)) :
    Resumable false (cs.take (n + k)) := by
  obtain ⟨s, hs, hnil, hclean⟩ := h
  rcases skips_first hf with ⟨u, rest, rfl, rfl, hu⟩ | ⟨v, rfl, rfl, -⟩
  · rw [List.drop_left] at hnil hclean
    rw [List.take_length_add_append]
    refine ⟨s, hs, fun h => hnil (List.append_eq_nil_iff.1 h).2, ?_⟩
    rw [List.append_assoc]
    exact .skip (first_atmosphere hu _) (by rwa [List.drop_left])
  · -- a line comment that the text ends in has all of the text in it
    rw [List.take_of_length_le (by rw [List.length_cons]; omega)]
    exact ⟨[], by decide, fun _ => rfl, .of_skip (by rw [List.append_nil]; exact hf)⟩

theorem resumable_token {kind : Kind} {owing : Bool} (hf : first cs = .token kind n owing)
    (h : Resumable owing ((cs.drop n).take k)) : Resumable false (cs.take (n + k)) := by
  obtain ⟨s, hs, hnil, hclean⟩ := h
  obtain ⟨w, rest, rfl, rfl, hw⟩ := first_echoes hf
  rw [List.drop_left] at hnil hclean
  have howing : owing = true → Delimited (rest.take k ++ s) := by
    rintro rfl
    exact hclean.owed
  rw [List.take_length_add_append]
  refine ⟨s, hs, fun h => hnil (List.append_eq_nil_iff.1 h).2, ?_⟩
  rw [List.append_assoc]
  exact .token (hw _ (echoes_take hnil) howing) (by rwa [List.drop_left])

end

/-- A text that scans brings tokens and no error, wherever it stands. -/
theorem Clean.scans {owing : Bool} {cs : List Char} (h : Clean owing cs) :
    ∀ {p : Place}, p.ahead = cs → ∃ ts, Scans owing p ts none := by
  induction h with
  | done => exact fun hp => ⟨_, .of_ahead_nil hp⟩
  | @skip cs n hf _ ih =>
    intro p hp
    obtain ⟨ts, hts⟩ := ih (p := p.advance n) (by rw [Place.ahead_advance, hp])
    exact ⟨ts, .skip (hp ▸ hf) hts⟩
  | @token cs kind n owing hf _ ih =>
    intro p hp
    obtain ⟨ts, hts⟩ := ih (p := p.advance n) (by rw [Place.ahead_advance, hp])
    exact ⟨_, .token (hp ▸ hf) hts⟩
  | delimited hd _ ih =>
    intro p hp
    obtain ⟨ts, hts⟩ := ih hp
    exact ⟨ts, .delimited (hp ▸ hd) hts⟩

end Lexeme

open Lexeme (Resumable)

/-! ## The scan -/

/-- **Before the error of a scan** everything may be completed.  The error is about `n` characters that are `m`
characters ahead. -/
theorem Scans.resumes {owing : Bool} {p : Place} {ts : List Token} {e? : Option ScanError} (h : Scans owing p ts e?) :
    ∀ e, e? = some e → e ≠ .invalidHashWord → ∃ m n, ts.getLast? = some ((p.advance m).token .invalid n) ∧
      n ≤ (p.advance m).ahead.length ∧ Resumable owing (p.ahead.take (m + (n - e.overshoot))) := by
  induction h with
  | @skip p k ts e? hf _ ih =>
    intro e he hne
    obtain ⟨m, n, hlast, hle, hresume⟩ := ih e he hne
    rw [Place.ahead_advance] at hresume
    rw [← Place.advance_add] at hlast hle
    exact ⟨k + m, n, hlast, hle, by rw [Nat.add_assoc]; exact Lexeme.resumable_skip hf hresume⟩
  | @token p kind k owing ts e? hf hrest ih =>
    intro e he hne
    obtain ⟨m, n, hlast, hle, hresume⟩ := ih e he hne
    rw [Place.ahead_advance] at hresume
    rw [← Place.advance_add] at hlast hle
    refine ⟨k + m, n, ?_, hle, by rw [Nat.add_assoc]; exact Lexeme.resumable_token hf hresume⟩
    rw [List.getLast?_cons_of_ne_nil hrest.ne_nil, hlast]
  | @invalid p f n hf =>
    intro e he hne
    obtain rfl := Option.some.inj he
    have hmends : Lexeme.Mends p.ahead (.invalid f n) := by
      cases hp : p.ahead with
      | nil => rw [hp] at hf; cases hf
      | cons c cs =>
        rw [hp] at hf
        exact hf ▸ Lexeme.mends_first c cs
    obtain ⟨hle, hcomplete⟩ := hmends.resolve_left hne
    exact ⟨0, n, rfl, hle, by rw [Nat.zero_add]; exact hcomplete.resumable⟩
  | done => intro e he; cases he
  | delimited hd _ ih =>
    intro e he hne
    obtain ⟨m, n, hlast, hle, hresume⟩ := ih e he hne
    exact ⟨m, n, hlast, hle, Lexeme.resumable_delimited hd hresume⟩
  | undelimited =>
    intro e he _
    exact ⟨0, 0, rfl, Nat.zero_le _, by rw [Nat.zero_sub]; exact Lexeme.resumable_nil true⟩

theorem Place.text_withoutLast {p : Place} {n : Nat} (hn : n ≤ p.ahead.length) (kind : Kind) (j : Nat) :
    Utf8.withoutLast j (p.token kind n).text = p.rest.take (Utf8.width (n - j) p.rest) := by
  have hlen : (Utf8.chars (p.token kind n).text).length = n := by
    rw [Place.chars_text_token, List.length_take, Nat.min_eq_left hn]
  have htext : (p.token kind n).text = p.rest.take (Utf8.width n p.rest) := Place.slice_advance n p
  rw [Utf8.withoutLast, hlen, htext, Utf8.width_take (Nat.sub_le n j), List.take_take,
    Nat.min_eq_left (Utf8.width_mono (Nat.sub_le n j) p.rest)]

/-- The source up to the error of its last token: without the last character of that token, or without the last two
where the error is about a marker. -/
def beforeError (source : List UInt8) (e : ScanError) (t : Token) : List UInt8 :=
  source.take t.position.offset ++ Utf8.withoutLast e.overshoot t.text

theorem beforeError_token {source : List UInt8} {m n : Nat} {e : ScanError}
    (hn : n ≤ (Place.advance m ⟨.start, source⟩).ahead.length) :
    beforeError source e ((Place.advance m ⟨.start, source⟩).token .invalid n) =
      source.take (Utf8.width (m + (n - e.overshoot)) source) := by
  have hoffset : (Place.advance m ⟨.start, source⟩).position.offset = Utf8.width m source := by
    rw [Place.offset_advance]
    exact Nat.zero_add _
  rw [beforeError, Place.text_withoutLast hn, Place.rest_advance, Utf8.width_add, List.take_add, Place.token, hoffset]

/-- **Errors are reported where the source goes wrong.**  The source up to its error may be completed to one that scans
without any, unless the error is a word that means nothing. -/
theorem completes_before_error (name : String) (source : List UInt8) {t : Token} {e : ScanError}
    (ht : (Scanner.ofBytes name source).tokens.getLast? = some t)
    (he : (Scanner.ofBytes name source).finish.error? = some e) (hne : e ≠ .invalidHashWord) :
    ∃ q, (Scanner.ofBytes name (beforeError source e t ++ q)).finish.error? = none := by
  have h := (Scanner.scans_iff name source).2 ⟨rfl, he⟩
  obtain ⟨m, n, hlast, hle, s, hs, -, hclean⟩ := h.resumes e rfl hne
  obtain rfl : _ = t := Option.some.inj (hlast.symm.trans ht)
  refine ⟨Utf8.ascii s, ?_⟩
  rw [beforeError_token hle]
  obtain ⟨ts, hts⟩ := hclean.scans (p := ⟨.start, source.take (Utf8.width _ source) ++ Utf8.ascii s⟩)
    (by rw [Place.ahead, Utf8.chars_append (Utf8.fresh_ascii hs), Utf8.chars_take, Utf8.chars_ascii hs]; rfl)
  exact ((Scanner.scans_iff name _).1 hts).2

/-- A marker that is unknown is found out behind its hash sign, and both are left out. -/
theorem completes_before_error_marker :
    let source := Utf8.ascii ['(', '#', 'e', '#', 'y']
    let t : Token := ⟨.invalid, Utf8.ascii ['#', 'e', '#', 'y'], ⟨1, 1, 2⟩⟩
    (Scanner.ofBytes "cut" source).tokens.getLast? = some t ∧
      (Scanner.ofBytes "cut" source).finish.error? = some .invalidPrefix ∧
      beforeError source .invalidPrefix t = Utf8.ascii ['(', '#', 'e'] ∧
      ∃ q, (Scanner.ofBytes "cut" (beforeError source .invalidPrefix t ++ q)).finish.error? = none := by
  intro source t
  have h : Scans false ⟨.start, Utf8.ascii ['(', '#', 'e', '#', 'y']⟩ _ _ := .token rfl (.invalid rfl)
  obtain ⟨htokens, herror⟩ := (Scanner.scans_iff "cut" _).1 h
  have hlast : (Scanner.ofBytes "cut" source).tokens.getLast? = some t := by
    rw [htokens]
    rfl
  exact ⟨hlast, herror, rfl, completes_before_error "cut" source hlast herror (by decide)⟩

end SchemeLexer
