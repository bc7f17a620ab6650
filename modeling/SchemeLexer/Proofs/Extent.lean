import SchemeLexer.Proofs.Escapes
import SchemeLexer.Proofs.Leads
import SchemeLexer.Proofs.Number.Boundary
/-!
# Extent — a token depends on its own text

A rule of the grammar looks past the token that it finds by one character at most, and there a delimiter and the end of
the text are the same to it.  `Settled k rule cs` says so of what a rule finds in a text that stands behind `k`
characters read before: the token is the same before every text that `Follows` what stood behind it.  `settled_first`
is this for every token of the grammar, rule by rule.
-/
namespace SchemeLexer
namespace Lexeme

open Text (Stops run)

/-- What may take the place of a text behind a token: a delimited text, or the text itself with a delimited one behind
it. -/
def Follows (rest t : List Char) : Prop := Delimited t ∨ ∃ b, Delimited b ∧ t = rest ++ b

theorem Follows.delimited {rest t : List Char} (h : Follows rest t) (hr : Delimited rest) : Delimited t := by
  rcases h with h | ⟨b, hb, rfl⟩
  · exact h
  · cases rest with
    | nil => exact hb
    | cons c rest => exact hr

theorem Follows.stops {p : Char → Bool} {rest t : List Char} (h : Follows rest t)
    (hp : delimiters.any p = false) (hr : Stops p rest) : Stops p t := by
  rcases h with h | ⟨b, hb, rfl⟩
  · exact h.stops hp
  · cases rest with
    | nil => exact hb.stops hp
    | cons c rest => exact (Text.stops_cons ..).2 ((Text.stops_cons ..).1 hr)

/-- What a rule finds in `cs`, behind `k` characters, is no token, or a token that its text settles. -/
def Settled (k : Nat) (rule : List Char → Lexeme) (cs : List Char) : Prop :=
  ∀ kind n owing, rule cs = .token kind n owing → kind.isTerminal = false ∧
    ∃ w rest, cs = w ++ rest ∧ n = k + w.length ∧ ∀ t, Follows rest t → rule (w ++ t) = .token kind n owing

section
variable {k : Nat} {rule sub : List Char → Lexeme}

theorem Settled.of_not_token {cs : List Char} (h : ∀ kind n owing, rule cs ≠ .token kind n owing) :
    Settled k rule cs :=
  fun kind n owing ht => absurd ht (h kind n owing)

theorem Settled.cons {c : Char} {cs : List Char} (heq : ∀ t, rule (c :: t) = sub t) (h : Settled (k + 1) sub cs) :
    Settled k rule (c :: cs) := by
  intro kind n owing ht
  rw [heq] at ht
  obtain ⟨hkind, w, rest, rfl, hn, hw⟩ := h kind n owing ht
  refine ⟨hkind, c :: w, rest, rfl, by rw [hn, List.length_cons]; omega, fun t hf => ?_⟩
  rw [List.cons_append, heq]
  exact hw t hf

theorem Settled.of_cons {c : Char} {cs : List Char} (heq : ∀ t, rule (c :: t) = sub (c :: t))
    (hnil : ∀ kind n owing, sub [] ≠ .token kind n owing) (h : Settled k sub (c :: cs)) :
    Settled k rule (c :: cs) := by
  intro kind n owing ht
  rw [heq] at ht
  obtain ⟨hkind, w, rest, hcs, hn, hw⟩ := h kind n owing ht
  refine ⟨hkind, w, rest, hcs, hn, fun t hf => ?_⟩
  cases w with
  | nil => exact absurd (hw [] (Or.inl delimited_nil)) (hnil kind n owing)
  | cons d w =>
    rw [List.cons_append, List.cons.injEq] at hcs
    rw [← hw t hf, List.cons_append, ← hcs.1, heq]

/-- A token with no character of its own in `cs`, for which what follows need only be delimited or as it was. -/
theorem Settled.nil {cs : List Char} {kind : Kind} {owing : Bool} (hkind : kind.isTerminal = false)
    (h : ∀ t, Follows cs t → rule t = .token kind k owing) : Settled k rule cs := by
  intro kind' n owing' ht
  have hcs : Follows cs cs := Or.inr ⟨[], delimited_nil, by simp⟩
  rw [h cs hcs] at ht
  cases ht
  exact ⟨hkind, [], cs, rfl, rfl, h⟩

theorem Settled.delimited {cs : List Char} {kind : Kind} {owing : Bool} (hkind : kind.isTerminal = false)
    (h : ∀ {t}, Delimited t → rule t = .token kind k owing) (hcs : Delimited cs) : Settled k rule cs :=
  .nil hkind fun _ hf => h (hf.delimited hcs)

theorem settled_closed (kind : Kind) (hkind : kind.isTerminal = false) (cs : List Char) :
    Settled k (fun _ => closed kind k) cs :=
  .nil hkind fun _ _ => rfl

theorem settled_invalid (e : ScanError) (m : Nat) (cs : List Char) : Settled k (fun _ => .invalid e m) cs :=
  .of_not_token fun _ _ _ h => by cases h

theorem settled_word (kind : Kind) (hkind : kind.isTerminal = false) (p : Char → Bool)
    (hp : delimiters.any p = false) (cs : List Char) :
    Settled k (fun t => word kind (k + run p t)) cs := by
  intro kind' n owing ht
  obtain ⟨w, rest, rfl, hw, hr, hrun⟩ := Text.exists_run p cs
  simp only [word, hrun, Lexeme.token.injEq] at ht
  obtain ⟨rfl, rfl, rfl⟩ := ht
  refine ⟨hkind, w, rest, rfl, rfl, fun t hf => ?_⟩
  simp only [Text.run_append hw (hf.stops hp hr), word]

end

/-! ## Numbers -/

/-- What a rule reads of a text without an error is read before every text that follows. -/
def SettledReading (rule : List Char → Reading) (cs : List Char) : Prop :=
  (rule cs).error? = none → ∃ w rest, cs = w ++ rest ∧ ∀ t, Follows rest t → rule (w ++ t) = .accept w.length

theorem Follows.refl (rest : List Char) : Follows rest rest := Or.inr ⟨[], delimited_nil, by simp⟩

theorem SettledReading.settled {rule : List Char → Reading} {cs : List Char} (h : SettledReading rule cs) {kind : Kind}
    (hkind : kind.isTerminal = false) (k : Nat) (owing : Bool) :
    Settled k (fun t => ofReading kind owing ((rule t).shift k)) cs := by
  intro kind' n owing' ht
  cases he : (rule cs).error? with
  | some e => simp [ofReading, he] at ht
  | none =>
    obtain ⟨w, rest, rfl, hw⟩ := h he
    simp only [ofReading, hw rest (.refl rest), Reading.accept, Reading.shift, Lexeme.token.injEq] at ht
    obtain ⟨rfl, rfl, rfl⟩ := ht
    refine ⟨hkind, w, rest, rfl, rfl, fun t hf => ?_⟩
    simp only [ofReading, hw t hf, Reading.accept, Reading.shift]

theorem settledReading_complex (r : Radix) (cs : List Char) : SettledReading (Number.complex r) cs := by
  intro h
  obtain ⟨w, rest, rfl, hw, ht⟩ := Number.complex_sound h
  refine ⟨w, rest, rfl, fun t hf => ?_⟩
  rcases hf with hd | ⟨b, hb, rfl⟩
  · exact Number.complex_complete hw hd
  · rw [← List.append_assoc, Number.complex_append hb h]
    unfold Reading.accept
    rw [← ht, ← h]

theorem settled_number {p : List Char} (hp : Number.Grammar.Complex .decimal p) (cs : List Char) :
    Settled p.length (fun t => number (p ++ t)) cs := by
  intro kind n owing ht
  cases he : (Number.complex .decimal (p ++ cs)).error? with
  | some e => simp [number, ofReading, he] at ht
  | none =>
    obtain ⟨v, rest, hv, hw⟩ := settledReading_complex .decimal _ he
    have hself := hw rest (.refl rest)
    rw [← hv] at hself
    -- `p` is a number by itself, so that the number read is no shorter and begins with it
    have hle : p.length ≤ v.length := by simpa [hself, Reading.accept] using Number.complex_longest hp he
    obtain ⟨w, rfl, rfl⟩ : ∃ w, v = p ++ w ∧ cs = w ++ rest := by
      refine ⟨v.drop p.length, ?_, ?_⟩
      · have := congrArg (List.take p.length) hv
        rw [List.take_left, List.take_append_of_le_length hle] at this
        rw [this, List.length_take, Nat.min_eq_left hle, List.take_append_drop]
      · have := congrArg (List.drop p.length) hv
        rwa [List.drop_left, List.drop_append_of_le_length hle] at this
    simp only [number, ofReading, hself, Reading.accept, Lexeme.token.injEq] at ht
    obtain ⟨rfl, rfl, rfl⟩ := ht
    refine ⟨rfl, w, rest, rfl, List.length_append, fun t hf => ?_⟩
    have := hw t hf
    rw [List.append_assoc] at this
    simp only [number, ofReading, this, Reading.accept]

theorem complex_nil (r : Radix) : (Number.complex r []).error? = some .invalidNumber := rfl

theorem settledReading_afterMarks : ∀ (m : Number.Marks) (cs : List Char), SettledReading (Number.afterMarks m) cs
  | m, [], h => by cases h
  | m, [c], h => by
    simp only [Number.afterMarks] at h
    split at h
    · cases h
    · rw [Reading.error?_shift, complex_nil] at h; cases h
  | m, c :: d :: cs, h => by
    simp only [Number.afterMarks] at h
    split at h
    · cases h
    · rename_i m' hm
      by_cases hd : d = '#'
      · subst hd
        rw [if_pos rfl, Reading.error?_shift] at h
        obtain ⟨w, rest, rfl, hw⟩ := settledReading_afterMarks m' cs h
        refine ⟨c :: '#' :: w, rest, rfl, fun t hf => ?_⟩
        simp only [List.cons_append, Number.afterMarks, hm, if_true, hw t hf, Reading.shift_accept]
        exact congrArg Reading.accept (Nat.add_comm ..)
      · rw [if_neg hd, Reading.error?_shift] at h
        obtain ⟨v, rest, hv, hw⟩ := settledReading_complex _ _ h
        have hpos := Number.complex_pos h
        rw [hv, hw rest (.refl rest)] at hpos
        cases v with
        | nil => cases hpos
        | cons e v =>
          rw [List.cons_append, List.cons.injEq] at hv
          obtain ⟨rfl, rfl⟩ := hv
          refine ⟨c :: d :: v, rest, rfl, fun t hf => ?_⟩
          have := hw t hf
          rw [List.cons_append] at this
          simp only [List.cons_append, Number.afterMarks, hm, if_neg hd, this, Reading.shift_accept]
          exact congrArg Reading.accept (Nat.add_comm ..)

theorem settled_markedNumber (cs : List Char) : Settled 1 markedNumber cs :=
  (settledReading_afterMarks _ cs).settled rfl 1 true

/-! ## Words -/

theorem settled_identifier (k : Nat) (cs : List Char) : Settled k (identifier k) cs :=
  settled_word .identifier rfl isSubsequent (by decide) cs

open Number (Grammar.UInteger Grammar.UReal Grammar.Complex)

theorem uInteger_digit {c : Char} (hc : isDigit c = true) : Grammar.UInteger .decimal [c] :=
  ⟨by simp, fun d hd => by rw [List.mem_singleton.1 hd]; exact hc⟩

theorem uReal_point {c : Char} (hc : isDigit c = true) : Grammar.UReal .decimal ['.', c] :=
  .decimal rfl (List.append_nil ['.', c] ▸ .mk (.fraction (uInteger_digit hc)) .missing)

theorem dot_of_delimited {cs : List Char} (h : Delimited cs) : dot cs = closed .dot 1 := by
  cases cs with
  | nil => rfl
  | cons c cs => exact if_pos h

theorem settled_dot : ∀ cs : List Char, Settled 1 dot cs
  | [] => .delimited rfl dot_of_delimited delimited_nil
  | c :: cs => by
    by_cases hdel : isDelimiter c = true
    · exact .delimited rfl dot_of_delimited ((delimited_cons ..).2 hdel)
    · by_cases hs : isDotSubsequent c = true
      · exact .cons (fun t => by simp [dot, hdel, hs]) (settled_identifier 2 cs)
      · by_cases hdig : isDigit c = true
        · exact .cons (fun t => by simp [dot, hdel, hs, hdig])
            (settled_number (.real (.unsigned (uReal_point hdig))) cs)
        · exact .cons (fun t => by simp [dot, hdel, hs, hdig]) (settled_invalid .invalidAfterDot 2 cs)

theorem settled_signDot {sign : Char} (hsign : isSign sign = true) : ∀ cs : List Char, Settled 2 (signDot sign) cs
  | [] => .of_not_token fun _ _ _ h => by cases h
  | c :: cs => by
    by_cases hdig : isDigit c = true
    · exact .cons (fun t => by simp [signDot, hdig])
        (settled_number (.real (.signed hsign (uReal_point hdig))) cs)
    · by_cases hs : isDotSubsequent c = true
      · exact .cons (fun t => by simp [signDot, hdig, hs]) (settled_identifier 3 cs)
      · exact .cons (fun t => by simp [signDot, hdig, hs]) (settled_invalid .invalidAfterDot 3 cs)

theorem run_subsequent {c : Char} (hc : isSubsequent c = true) {w t : List Char} (hw : ∀ d ∈ w, isSubsequent d = true)
    (ht : Stops isSubsequent t) : run isSubsequent (c :: (w ++ t)) = w.length + 1 := by
  rw [Text.run_cons, if_pos hc, Text.run_append hw ht]

theorem settled_signedWord {c : Char} (hc : isSubsequent c = true) (cs : List Char) :
    Settled 2 (fun t => signedWord (c :: t)) cs := by
  intro kind n owing ht
  obtain ⟨w, rest, rfl, hw, hr, -⟩ := Text.exists_run isSubsequent cs
  simp only [signedWord, word, run_subsequent hc hw hr, List.take_succ_cons, List.take_left, Lexeme.token.injEq] at ht
  obtain ⟨rfl, rfl, rfl⟩ := ht
  refine ⟨by split <;> rfl, w, rest, rfl, by omega, fun t hf => ?_⟩
  simp only [signedWord, word, run_subsequent hc hw (hf.stops (by decide) hr), List.take_succ_cons, List.take_left]

theorem isSubsequent_of_isSignSubsequent {c : Char} (h : isSignSubsequent c = true) : isSubsequent c = true :=
  isSubsequent_of_isDotSubsequent (by simp [isDotSubsequent, h])

theorem signed_of_delimited {sign : Char} {cs : List Char} (h : Delimited cs) :
    signed sign cs = closed .identifier 1 := by
  cases cs with
  | nil => rfl
  | cons c cs => exact if_pos h

theorem settled_signed {sign : Char} (hsign : isSign sign = true) : ∀ cs : List Char, Settled 1 (signed sign) cs
  | [] => .delimited rfl signed_of_delimited delimited_nil
  | c :: cs => by
    by_cases hdel : isDelimiter c = true
    · exact .delimited rfl signed_of_delimited ((delimited_cons ..).2 hdel)
    · by_cases hdot : c = '.'
      · subst hdot
        exact .cons (fun t => by simp [signed, hdel]) (settled_signDot hsign cs)
      · by_cases hdig : isDigit c = true
        · exact .cons (fun t => by simp [signed, hdel, hdot, hdig])
            (settled_number (.real (.signed hsign (.integer (uInteger_digit hdig)))) cs)
        · by_cases hs : isSignSubsequent c = true
          · exact .cons (fun t => by simp [signed, hdel, hdot, hdig, hs])
              (settled_signedWord (isSubsequent_of_isSignSubsequent hs) cs)
          · exact .cons (fun t => by simp [signed, hdel, hdot, hdig, hs]) (settled_invalid (.invalidAfterSign sign) 2 cs)

/-! ## Behind a hash sign -/

theorem settled_directive : ∀ cs : List Char, Settled 2 directive cs
  | [] => .of_not_token fun _ _ _ h => by cases h
  | c :: cs => by
    by_cases hc : isInitial c = true
    · exact .cons (fun t => by simp [directive, hc]) (settled_word .directive rfl isSubsequent (by decide) cs)
    · exact .cons (fun t => by simp [directive, hc]) (settled_invalid .invalidDirective 3 cs)

theorem character_of_delimited (c : Char) {cs : List Char} (h : Delimited cs) :
    character (c :: cs) = closed .character 3 := by
  cases cs with
  | nil => rfl
  | cons d cs => exact if_pos h

theorem settled_character : ∀ cs : List Char, Settled 2 character cs
  | [] => .of_not_token fun _ _ _ h => by cases h
  | [c] => .cons (fun _ => rfl) (.delimited rfl (character_of_delimited c) delimited_nil)
  | c :: d :: cs => by
    by_cases hdel : isDelimiter d = true
    · exact .cons (fun _ => rfl) (.delimited rfl (character_of_delimited c) ((delimited_cons ..).2 hdel))
    · by_cases hx : (c = 'x' ∨ c = 'X') ∧ isHexDigit d = true
      · exact .cons (fun _ => rfl) (.cons (fun t => by simp [character, hdel, hx])
          (settled_word .character rfl isHexDigit (by decide) cs))
      · by_cases hi : isInitial c = true ∧ isSubsequent d = true
        · exact .cons (fun _ => rfl) (.cons (fun t => by simp [character, hdel, hx, hi])
            (settled_word .character rfl isSubsequent (by decide) cs))
        · exact .cons (fun _ => rfl) (.cons (fun t => by simp [character, hdel, hx, hi])
            (settled_invalid .invalidCharacter 4 cs))

theorem settled_hashWord {c : Char} (hc : isSubsequent c = true) (cs : List Char) :
    Settled 2 (fun t => hashWord (c :: t)) cs := by
  intro kind n owing ht
  obtain ⟨w, rest, rfl, hw, hr, -⟩ := Text.exists_run isSubsequent cs
  have heq : ∀ {t : List Char}, Stops isSubsequent t → hashWord (c :: (w ++ t)) =
      if booleans.any (Caseless.sameWord (c :: w)) then word .boolean (w.length + 2)
      else if Caseless.sameWord (c :: w) byteVector then
        if t.head? = some '(' then closed .openByteVector (w.length + 3)
        else .invalid .expectedOpenParen (w.length + 2 + Text.oneMore t)
      else .invalid .invalidHashWord (w.length + 2) := fun ht => by
    simp only [hashWord, run_subsequent hc hw ht, List.take_succ_cons, List.take_left, List.drop_succ_cons,
      List.drop_left]
  simp only [heq hr] at ht
  by_cases hbool : booleans.any (Caseless.sameWord (c :: w)) = true
  · rw [if_pos hbool] at ht
    cases ht
    refine ⟨rfl, w, rest, rfl, by omega, fun t hf => ?_⟩
    simp only [heq (hf.stops (by decide) hr), if_pos hbool, word]
  · rw [if_neg hbool] at ht
    by_cases hbv : Caseless.sameWord (c :: w) byteVector = true
    · rw [if_pos hbv] at ht
      cases rest with
      | nil => cases ht
      | cons d rest =>
        by_cases hd : d = '('
        · subst hd
          cases ht
          refine ⟨rfl, w ++ ['('], rest, by simp, by rw [List.length_append, List.length_singleton]; omega, fun t hf => ?_⟩
          have hstop : Stops isSubsequent ('(' :: t) := (Text.stops_cons ..).2 rfl
          simp only [List.append_assoc, List.singleton_append, heq hstop, if_neg hbool, if_pos hbv]
          rfl
        · simp [hd] at ht
    · rw [if_neg hbv] at ht; cases ht

theorem settled_blockComment (k : Nat) (cs : List Char) : Settled k blockComment cs :=
  .of_not_token fun kind n owing h => by
    unfold blockComment at h
    split at h <;> cases h

theorem settled_hash : ∀ cs : List Char, Settled 1 hash cs
  | [] => .of_not_token fun _ _ _ h => by cases h
  | c :: cs => by
    obtain ⟨rule, hrule, hc⟩ := exists_hashLeads c
    cases hrule with
    | bar => exact .cons hc (settled_blockComment 2 cs)
    | bang => exact .cons hc (settled_directive cs)
    | backslash => exact .cons hc (settled_character cs)
    | openParen => exact .cons hc (settled_closed .openVector rfl cs)
    | semicolon => exact .cons hc (settled_closed .commentDatum rfl cs)
    | marker => exact .of_cons hc (fun _ _ _ h => by cases h) (settled_markedNumber (c :: cs))
    | word h => exact .cons hc (settled_hashWord (isSubsequent_of_isInitial h) cs)
    | other => exact .cons hc (settled_invalid .invalidAfterHash 2 cs)

/-! ## Between marks -/

/-- An escape sequence ends by itself, or where a run of blanks does: so it depends on one character behind it. -/
def SettledEscape (q : Char) (cs : List Char) : Prop :=
  (escape q cs).error? = none →
    ∃ u v, cs = u ++ v ∧ ∀ t, t.head? = v.head? → escape q (u ++ t) = .accept u.length

theorem settledEscape (q : Char) (cs : List Char) : SettledEscape q cs := by
  intro h
  obtain ⟨u, v, hcs, -, hu⟩ := escape_sound q cs h
  exact ⟨u, v, hcs, hu⟩

theorem enclosed_nil (q : Char) : enclosed q [] = .reject .unexpectedEof 0 := by rw [enclosed]

theorem enclosed_cons (q c : Char) (cs : List Char) : enclosed q (c :: cs) =
    if c = q then .accept 1
    else if c = '\\' then
      if (escape q cs).isOk then (enclosed q (cs.drop (escape q cs).taken)).shift (1 + (escape q cs).taken)
      else (escape q cs).shift 1
    else (enclosed q cs).shift 1 := by rw [enclosed]

/-- Behind an escape sequence enclosed text goes on. -/
theorem enclosed_escape {q : Char} (hq : ¬ '\\' = q) {u t : List Char} (h : escape q (u ++ t) = .accept u.length) :
    enclosed q ('\\' :: (u ++ t)) = (enclosed q t).shift (1 + u.length) := by
  have hok : (Reading.accept u.length).isOk = true := rfl
  have htaken : (Reading.accept u.length).taken = u.length := rfl
  rw [enclosed_cons, if_neg hq, if_pos rfl, h, if_pos hok, htaken, List.drop_left]

theorem enclosed_settled {q : Char} : ∀ {cs : List Char}, (enclosed q cs).error? = none →
    ∃ w rest, cs = w ++ rest ∧ ∀ t, enclosed q (w ++ t) = .accept w.length
  | [], h => by rw [enclosed_nil] at h; cases h
  | c :: cs, h => by
    rw [enclosed_cons] at h
    by_cases hq : c = q
    · exact ⟨[c], cs, rfl, fun t => by rw [List.singleton_append, enclosed_cons, if_pos hq]; rfl⟩
    · rw [if_neg hq] at h
      by_cases hbs : c = '\\'
      · rw [if_pos hbs] at h
        cases he : (escape q cs).error? with
        | some e => simp [Reading.isOk, he] at h
        | none =>
          obtain ⟨u, v, rfl, hu⟩ := settledEscape q cs he
          have hlen : v.length < ('\\' :: (u ++ v)).length := by rw [List.length_cons, List.length_append]; omega
          rw [hu v rfl] at h
          simp only [Reading.isOk, Reading.accept, Option.isNone_none, if_true, List.drop_left,
            Reading.error?_shift] at h
          obtain ⟨w, rest, rfl, hw⟩ := enclosed_settled h
          refine ⟨c :: (u ++ w), rest, by simp, fun t => ?_⟩
          -- the escape sequence looks at the character behind it, which is in `w`
          have hhead : (w ++ t).head? = (w ++ rest).head? := by
            cases w with
            | nil => exact absurd (hw []) (by rw [List.append_nil, enclosed_nil]; simp [Reading.reject, Reading.accept])
            | cons d w => rfl
          subst hbs
          rw [List.cons_append, List.append_assoc, enclosed_escape hq (hu _ hhead), hw t, Reading.shift_accept,
            List.length_cons, List.length_append]
          exact congrArg Reading.accept (by omega)
      · rw [if_neg hbs, Reading.error?_shift] at h
        obtain ⟨w, rest, rfl, hw⟩ := enclosed_settled h
        refine ⟨c :: w, rest, rfl, fun t => ?_⟩
        rw [List.cons_append, enclosed_cons, if_neg hq, if_neg hbs, hw t, Reading.shift_accept, List.length_cons,
          Nat.add_comm]
termination_by cs => cs.length

theorem settled_enclosed (kind : Kind) (hkind : kind.isTerminal = false) (q : Char) (cs : List Char) :
    Settled 1 (fun t => ofReading kind false ((enclosed q t).shift 1)) cs :=
  SettledReading.settled (fun h => by
    obtain ⟨w, rest, hcs, hw⟩ := enclosed_settled h
    exact ⟨w, rest, hcs, fun t _ => hw t⟩) hkind 1 false

/-! ## Any token -/

theorem settled_comma (cs : List Char) : Settled 1 comma cs := by
  by_cases h : cs.head? = some '@'
  · cases cs with
    | nil => cases h
    | cons c cs =>
      obtain rfl : c = '@' := Option.some.inj h
      exact .cons (fun t => by simp [comma]) (settled_closed .commaAt rfl cs)
  · have hstop : Stops (· = '@') cs := fun c hc => decide_eq_false fun hat => h (hat ▸ hc)
    refine @Settled.nil _ _ _ .comma false rfl fun t hf => ?_
    have ht := hf.stops (by decide) hstop
    have : ¬ t.head? = some '@' := fun hat => absurd (ht _ hat) (by decide)
    rw [comma, if_neg this]
    rfl

theorem settled_punctuation (c : Char) (cs : List Char) : Settled 1 (fun _ => punctuation c) cs := by
  unfold punctuation
  cases h : punctuation? c with
  | none => exact settled_invalid .illegalCharacter 1 cs
  | some kind =>
    have hkinds : ∀ p ∈ punctuationMarks, p.2.isTerminal = false := by decide
    exact settled_closed kind (hkinds _ (mem_punctuationMarks h)) cs

/-- **A token depends on its own text**, and on what follows it no further than `Follows` says. -/
theorem settled_first : ∀ cs : List Char, Settled 0 first cs
  | [] => .of_not_token fun _ _ _ h => by cases h
  | c :: cs => by
    obtain ⟨rule, hrule, hc⟩ := exists_leads c
    cases hrule with
    | initial => exact .cons hc (settled_identifier 1 cs)
    | whitespace => exact .of_not_token fun _ _ _ h => by rw [hc] at h; cases h
    | digit h => exact .cons hc (settled_number (.real (.unsigned (.integer (uInteger_digit h)))) cs)
    | bar => exact .cons hc (settled_enclosed .identifier rfl '|' cs)
    | doubleQuote => exact .cons hc (settled_enclosed .string rfl '"' cs)
    | comma => exact .cons hc (settled_comma cs)
    | semicolon => exact .of_not_token fun _ _ _ h => by rw [hc] at h; cases h
    | hash => exact .cons hc (settled_hash cs)
    | dot => exact .cons hc (settled_dot cs)
    | sign h => exact .cons hc (settled_signed h cs)
    | punctuation => exact .cons hc (settled_punctuation c cs)

theorem toNat_lt_of_punctuation {c : Char} {kind : Kind} (h : punctuation? c = some kind) : c.toNat < 0x80 := by
  have hmarks : ∀ p ∈ punctuationMarks, p.1.toNat < 0x80 := by decide
  exact hmarks _ (mem_punctuationMarks h)

theorem toNat_lt_of_token {c : Char} {cs : List Char} {kind : Kind} {n : Nat} {owing : Bool}
    (h : first (c :: cs) = .token kind n owing) : c.toNat < 0x80 := by
  obtain ⟨rule, hrule, heq⟩ := exists_leads c
  rw [heq] at h
  cases hrule with
  | initial hc => exact toNat_lt_of_isSubsequent (isSubsequent_of_isInitial hc)
  | whitespace => cases h
  | digit hc => exact toNat_lt_of_isSubsequent (by simp [isSubsequent, hc])
  | bar hc => rw [hc]; decide
  | doubleQuote hc => rw [hc]; decide
  | comma hc => rw [hc]; decide
  | semicolon hc => rw [hc]; decide
  | hash hc => rw [hc]; decide
  | dot hc => rw [hc]; decide
  | sign hc => exact toNat_lt_of_isSubsequent (isSubsequent_of_isSign hc)
  | punctuation =>
    simp only [punctuation] at h
    split at h
    · rename_i hc; exact toNat_lt_of_punctuation hc
    · cases h

end Lexeme
end SchemeLexer
