import SchemeLexer.Proofs.Extent
import SchemeLexer.Proofs.Scans
import SchemeLexer.Session
/-!
# Sessions — a source has one stream

A source has one stream, in whatever order its scanner is called (`streams_ofBytes`): the calls bring its tokens one by
one, and behind the last of them nothing or an empty token at its end.  The error is there from the token on that shows
it.

`Brings` is what a single pull does (`brings_pull`).  The invariant between two calls is that the mark is where the
cursor is, so that a scanner that has stopped is not changed by a further call (`call_of_stopped`).
-/
namespace SchemeLexer

/-- What a call brings behind a stream that ended at `q`. -/
def Call.beyond (q : Position) : Call → Option Token
  | next => none
  | pull => some ⟨.endOfInput, [], q⟩

/-- The phase that a scanner is in behind a token of its stream. -/
def Phase.Behind : Kind → Phase → Prop
  | kind, .ready | kind, .owing => kind.isTerminal = false
  | kind, .stopped none => kind = .endOfInput
  | kind, .stopped (some _) => kind = .invalid

namespace Scanner

variable {s : Scanner}

/-- A scanner whose stream is `init` and then `last`, in whatever order it is called. -/
structure Streams (s : Scanner) (init : List Token) (last : Token) : Prop where
  tokens   : s.tokens = init ++ [last]
  going    : ∀ t ∈ init, t.kind.isTerminal = false
  terminal : last.kind.isTerminal = true
  /-- Call number `i` brings token number `i`, and behind the stream what stands beyond it. -/
  answers  : ∀ calls, s.answers calls =
    calls.mapIdx fun i c => (init ++ [last])[i]?.or (c.beyond (last.position.past last.text))
  /-- There is no error before an invalid token. -/
  sound    : ∀ calls, (∀ t, some t ∈ s.answers calls → t.kind ≠ .invalid) → (s.after calls).error? = none
  /-- Behind an invalid token there is one error, whatever else is called. -/
  kept     : ∀ calls t, some t ∈ s.answers calls → t.kind = .invalid → (s.after calls).error? = s.finish.error?
  error    : s.finish.error?.isSome = true ↔ last.kind = .invalid

/-! ## What a pull does -/

/-- What a pull does to a scanner whose mark is where its cursor is: it passes over `m` characters and makes a token of
the next `n`. -/
structure Brings (s : Scanner) (x : Pull) : Prop where
  token  : ∃ m n kind, x.token = (s.cursor.pos.advance m).token kind n ∧
    x.scanner.cursor.pos = (s.cursor.pos.advance m).advance n
  mark   : x.scanner.cursor.mark = x.scanner.cursor.pos
  behind : s.isStopped = false → Phase.Behind x.token.kind x.scanner.phase

theorem brings_yield (hm : s.cursor.mark = s.cursor.pos) {kind : Kind} {phase : Phase} (h : phase.Behind kind)
    (n : Nat) : s.Brings (s.yield kind n phase) where
  token := ⟨0, n, kind, token_yield hm kind n phase, rfl⟩
  mark := rfl
  behind _ := h

theorem brings_fail (hm : s.cursor.mark = s.cursor.pos) (e : ScanError) (n : Nat) : s.Brings (s.fail e n) where
  token := ⟨0, n, .invalid, token_fail hm e n, rfl⟩
  mark := rfl
  behind _ := rfl

theorem Brings.skip {n : Nat} {x : Pull} (h : (s.read n).ignore.Brings x) : s.Brings x where
  token := by
    obtain ⟨m, k, kind, htoken, hpos⟩ := h.token
    have hadd : (s.read n).ignore.cursor.pos.advance m = s.cursor.pos.advance (n + m) :=
      (Place.advance_add ..).symm
    rw [hadd] at htoken hpos
    exact ⟨n + m, k, kind, htoken, hpos⟩
  mark := h.mark
  behind := h.behind

theorem brings_scan (s : Scanner) (hm : s.cursor.mark = s.cursor.pos) : s.Brings s.scan := by
  have hadv := Lexeme.advances_first s.ahead
  cases hf : Lexeme.first s.ahead with
  | skip n =>
    rw [hf, Lexeme.advances_skip] at hadv
    have hne : s.ahead ≠ [] := by rintro h; rw [h] at hf; cases hf
    have hlt : s.ahead.length - n < s.ahead.length := Nat.sub_lt (List.length_pos_iff.2 hne) hadv
    rw [scan_of_skip hf]
    exact (brings_scan (s.read n).ignore rfl).skip
  | token kind n owing =>
    obtain ⟨hkind, -⟩ := Lexeme.settled_first s.ahead kind n owing hf
    rw [scan_of_token hf]
    refine brings_yield hm ?_ n
    cases owing <;> exact hkind
  | invalid e n => rw [scan_of_invalid hf]; exact brings_fail hm e n
  | done => rw [scan_of_done hf]; exact brings_yield hm (show Phase.Behind .endOfInput (.stopped none) from rfl) 0
termination_by s.ahead.length
decreasing_by simpa only [ignore, read, List.length_drop] using hlt

/-- **A scanner that has stopped** brings empty tokens, and stays as it is. -/
theorem pull_of_stopped (hm : s.cursor.mark = s.cursor.pos) (h : s.isStopped = true) :
    s.pull = ⟨⟨.endOfInput, [], s.cursor.position⟩, none, s⟩ := by
  obtain ⟨name, ⟨pos, prev, mark⟩, phase, ahead, hahead⟩ := s
  obtain rfl : mark = pos := hm
  cases phase with
  | ready => cases h
  | owing => cases h
  | stopped e? => simp [pull, emit, Cursor.emit, Cursor.lit, Cursor.ignore, Cursor.position, Place.slice]

theorem brings_pull (hm : s.cursor.mark = s.cursor.pos) : s.Brings s.pull := by
  cases hstop : s.isStopped with
  | true =>
    rw [pull_of_stopped hm hstop]
    refine ⟨⟨0, 0, .endOfInput, ?_, rfl⟩, hm, fun h => ?_⟩
    · simp [Place.token, Place.slice, Cursor.position]
    · rw [hstop] at h; cases h
  | false =>
    unfold pull
    split
    · exact brings_scan s hm
    · split
      · exact brings_scan s hm
      · exact brings_fail hm .expectedDelimiter 0
    · rename_i hphase
      simp [isStopped, hphase] at hstop

theorem isStopped_iff : s.isStopped = true ↔ ∃ e?, s.phase = .stopped e? := by
  cases hphase : s.phase with
  | ready => simp [isStopped, hphase]
  | owing => simp [isStopped, hphase]
  | stopped e? => simp [isStopped, hphase]

theorem error?_of_running (h : s.isStopped = false) : s.error? = none := by
  cases hphase : s.phase with
  | ready => rw [error?, hphase]
  | owing => rw [error?, hphase]
  | stopped e? => rw [isStopped_iff.2 ⟨e?, hphase⟩] at h; cases h

/-- A token that does not stop the scanner is not the last. -/
theorem Brings.going {x : Pull} (h : s.Brings x) (hs : s.isStopped = false) (hx : x.scanner.isStopped = false) :
    x.token.kind.isTerminal = false := by
  have hbehind := h.behind hs
  cases hphase : x.scanner.phase with
  | ready => rw [hphase] at hbehind; exact hbehind
  | owing => rw [hphase] at hbehind; exact hbehind
  | stopped e? => rw [isStopped_iff.2 ⟨e?, hphase⟩] at hx; cases hx

/-- A token that stops the scanner is the last, and shows whether there is an error. -/
theorem Brings.stopping {x : Pull} (h : s.Brings x) (hs : s.isStopped = false) (hx : x.scanner.isStopped = true) :
    x.token.kind.isTerminal = true ∧ (x.scanner.error?.isSome = true ↔ x.token.kind = .invalid) := by
  have hbehind := h.behind hs
  obtain ⟨e?, hphase⟩ := isStopped_iff.1 hx
  rw [hphase] at hbehind
  cases e? with
  | none =>
    have hkind : x.token.kind = .endOfInput := hbehind
    exact ⟨by rw [hkind]; rfl, by simp [error?, hphase, hkind]⟩
  | some e =>
    have hkind : x.token.kind = .invalid := hbehind
    exact ⟨by rw [hkind]; rfl, by simp [error?, hphase, hkind]⟩

/-! ## One call -/

theorem call_of_running (h : s.isStopped = false) (c : Call) : s.call c = (some s.pull.token, s.pull.scanner) := by
  cases c with
  | next => simp [call, next?, h]
  | pull => rfl

theorem call_of_stopped (hm : s.cursor.mark = s.cursor.pos) (h : s.isStopped = true) (c : Call) :
    s.call c = (c.beyond s.cursor.position, s) := by
  cases c with
  | next => simp [call, next?, h, Call.beyond]
  | pull => rw [call, pull_of_stopped hm h]; rfl

theorem after_of_stopped (hm : s.cursor.mark = s.cursor.pos) (h : s.isStopped = true) (calls : List Call) :
    s.after calls = s := by
  induction calls with
  | nil => rfl
  | cons c calls ih => rw [after, call_of_stopped hm h, ih]

/-! ## One call after the other -/

theorem answers_eq_mapIdx (hm : s.cursor.mark = s.cursor.pos) (calls : List Call) :
    s.answers calls = calls.mapIdx fun i c => s.tokens[i]?.or (c.beyond s.finish.cursor.position) := by
  induction calls generalizing s with
  | nil => rfl
  | cons c calls ih =>
    cases hstop : s.isStopped with
    | true =>
      rw [answers, call_of_stopped hm hstop, ih hm, List.mapIdx_cons, tokens_of_stopped hstop, finish_of_stopped hstop]
      rfl
    | false =>
      rw [answers, call_of_running hstop, ih (brings_pull hm).mark, List.mapIdx_cons, tokens_of_running hstop,
        finish_of_running hstop]
      rfl

theorem error?_after_of_sound (hm : s.cursor.mark = s.cursor.pos) (herror : s.error? = none) {calls : List Call}
    (h : ∀ t, some t ∈ s.answers calls → t.kind ≠ .invalid) : (s.after calls).error? = none := by
  induction calls generalizing s with
  | nil => exact herror
  | cons c calls ih =>
    cases hstop : s.isStopped with
    | true => rw [after_of_stopped hm hstop, herror]
    | false =>
      have hpull := brings_pull hm
      rw [answers, call_of_running hstop] at h
      rw [after, call_of_running hstop]
      have hnext : s.pull.scanner.error? = none := by
        cases hx : s.pull.scanner.isStopped with
        | false => exact error?_of_running hx
        | true =>
          have hkind := h s.pull.token List.mem_cons_self
          rwa [← Option.not_isSome_iff_eq_none, (hpull.stopping hstop hx).2]
      exact ih hpull.mark hnext fun t ht => h t (List.mem_cons_of_mem _ ht)

theorem error?_after_of_invalid (hm : s.cursor.mark = s.cursor.pos) {calls : List Call} {t : Token}
    (ht : some t ∈ s.answers calls) (hkind : t.kind = .invalid) : (s.after calls).error? = s.finish.error? := by
  induction calls generalizing s with
  | nil => cases ht
  | cons c calls ih =>
    cases hstop : s.isStopped with
    | true => rw [after_of_stopped hm hstop, finish_of_stopped hstop]
    | false =>
      have hpull := brings_pull hm
      rw [after, call_of_running hstop, finish_of_running hstop]
      cases hnext : s.pull.scanner.isStopped with
      | true => rw [after_of_stopped hpull.mark hnext, finish_of_stopped hnext]
      | false =>
        rw [answers, call_of_running hstop, List.mem_cons] at ht
        rcases ht with ht | ht
        · have hgoing := hpull.going hstop hnext
          rw [← Option.some.inj ht, hkind] at hgoing
          cases hgoing
        · exact ih hpull.mark ht

/-! ## The stream -/

theorem length_tokens_le (s : Scanner) : s.tokens.length ≤ s.remaining := by
  cases hstop : s.isStopped with
  | true => rw [tokens_of_stopped hstop]; exact Nat.zero_le _
  | false =>
    have hlt := remaining_pull hstop
    have ih := length_tokens_le s.pull.scanner
    rw [tokens_of_running hstop, List.length_cons]
    omega
termination_by s.remaining

/-- The last token of a stream stops the scanner, where that token ends. -/
structure EndsWith (s : Scanner) (last : Token) : Prop where
  terminal : last.kind.isTerminal = true
  position : s.finish.cursor.position = last.position.past last.text
  error    : s.finish.error?.isSome = true ↔ last.kind = .invalid

theorem endsWith_pull (hm : s.cursor.mark = s.cursor.pos) (h : s.isStopped = false)
    (hstop : s.pull.scanner.isStopped = true) : s.EndsWith s.pull.token := by
  have hpull := brings_pull hm
  obtain ⟨m, n, kind, htoken, hpos⟩ := hpull.token
  obtain ⟨hterminal, herror⟩ := hpull.stopping h hstop
  have hfinish : s.finish = s.pull.scanner := by rw [finish_of_running h, finish_of_stopped hstop]
  refine ⟨hterminal, ?_, hfinish ▸ herror⟩
  rw [hfinish, htoken, Place.token, Place.past_slice, Cursor.position, hpos]

theorem exists_endsWith (s : Scanner) (hm : s.cursor.mark = s.cursor.pos) (h : s.isStopped = false) :
    ∃ init last, s.tokens = init ++ [last] ∧ (∀ t ∈ init, t.kind.isTerminal = false) ∧ s.EndsWith last := by
  have hlt := remaining_pull h
  have hpull := brings_pull hm
  cases hstop : s.pull.scanner.isStopped with
  | true =>
    refine ⟨[], s.pull.token, ?_, List.forall_mem_nil _, endsWith_pull hm h hstop⟩
    rw [tokens_of_running h, tokens_of_stopped hstop, List.nil_append]
  | false =>
    obtain ⟨init, last, htokens, hgoing, hends⟩ := exists_endsWith s.pull.scanner hpull.mark hstop
    have hfinish := finish_of_running h
    refine ⟨s.pull.token :: init, last, ?_, ?_, hends.terminal, hfinish ▸ hends.position, hfinish ▸ hends.error⟩
    · rw [tokens_of_running h, htokens, List.cons_append]
    · exact List.forall_mem_cons.2 ⟨hpull.going h hstop, hgoing⟩
termination_by s.remaining

end Scanner

/-- **A source has one stream, in whatever order it is called**, of one token more than it has bytes at most. -/
theorem Scanner.streams_ofBytes (name : String) (source : List UInt8) :
    ∃ init last, (ofBytes name source).Streams init last ∧ init.length ≤ source.length := by
  have hm : (ofBytes name source).cursor.mark = (ofBytes name source).cursor.pos := rfl
  obtain ⟨init, last, htokens, hgoing, hends⟩ := exists_endsWith (ofBytes name source) hm rfl
  refine ⟨init, last, ⟨htokens, hgoing, hends.terminal, ?_, ?_, ?_, hends.error⟩, ?_⟩
  · intro calls
    rw [answers_eq_mapIdx hm, htokens, hends.position]
  · exact fun calls => error?_after_of_sound hm rfl
  · exact fun calls t => error?_after_of_invalid hm
  · have hlen := length_tokens_le (ofBytes name source)
    have hremaining : (ofBytes name source).remaining = (Utf8.chars source).length + 1 := rfl
    have hchars := Utf8.length_chars_le source
    rw [htokens, List.length_append, List.length_singleton, hremaining] at hlen
    omega

end SchemeLexer
