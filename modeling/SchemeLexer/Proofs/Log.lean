import SchemeLexer.Proofs.Checked.Scanner
/-!
# Log — what a scanner reports of its stream

Each token of a stream is reported once, by the pull that brings it (`Event.of`): what was scanned by its kind and its
offset, and an invalid token by its line, its column and the error that the pull leaves behind.  What is skipped in
front of a token and what is pulled behind the stream is not reported.

A machine that keeps its error apart from its state asks before it reports a failure whether it has kept one already.
`Checked.log` is the log of such a machine, and it is the same: no error is kept while there are tokens to come
(`Checked.logged_eq`).
-/
namespace SchemeLexer

/-- What is reported of a token, given the error that is kept behind it. -/
def Event.of (name : String) (t : Token) : Option ScanError → Event
  | none => .scanned name t.kind t.position.offset
  | some e => .failed name t.position.line t.position.column e

theorem Event.level_of {name : String} {t : Token} {e? : Option ScanError} :
    (Event.of name t e?).level = .debug ↔ e?.isSome = true := by
  cases e? <;> simp [of, level]

namespace Scanner

variable {s : Scanner}

/-! ## One pull -/

/-- What a pull of a scanner that has not stopped reports. -/
structure Announces (s : Scanner) (x : Pull) : Prop where
  name  : x.scanner.name = s.name
  event : x.event? = some (.of s.name x.token x.scanner.error?)

theorem announces_yield {phase : Phase} (herror : ∀ e?, phase = .stopped e? → e? = none) (kind : Kind) (n : Nat) :
    s.Announces (s.yield kind n phase) := by
  have hnone : (s.yield kind n phase).scanner.error? = none := by
    cases phase with
    | ready => rfl
    | owing => rfl
    | stopped e? => exact herror e? rfl
  exact ⟨rfl, by rw [hnone]; rfl⟩

theorem announces_fail (e : ScanError) (n : Nat) : s.Announces (s.fail e n) := ⟨rfl, rfl⟩

theorem Announces.skip {n : Nat} {x : Pull} (h : (s.read n).ignore.Announces x) : s.Announces x := ⟨h.name, h.event⟩

theorem announces_scan (s : Scanner) : s.Announces s.scan := by
  have hadv := Lexeme.advances_first s.ahead
  cases hf : Lexeme.first s.ahead with
  | skip n =>
    rw [hf, Lexeme.advances_skip] at hadv
    have hne : s.ahead ≠ [] := by rintro h; rw [h] at hf; cases hf
    have hlt : s.ahead.length - n < s.ahead.length := Nat.sub_lt (List.length_pos_iff.2 hne) hadv
    rw [scan_of_skip hf]
    exact (announces_scan (s.read n).ignore).skip
  | token kind n owing =>
    rw [scan_of_token hf]
    exact announces_yield (fun e? h => by cases owing <;> cases h) kind n
  | invalid e n => rw [scan_of_invalid hf]; exact announces_fail e n
  | done => rw [scan_of_done hf]; exact announces_yield (fun e? h => by cases h; rfl) .endOfInput 0
termination_by s.ahead.length
decreasing_by simpa only [ignore, read, List.length_drop] using hlt

theorem announces_pull (h : s.isStopped = false) : s.Announces s.pull := by
  cases hphase : s.phase with
  | ready => simpa only [pull, hphase] using announces_scan s
  | owing =>
    simp only [pull, hphase]
    exact iteInduction (fun _ => announces_scan s) fun _ => announces_fail .expectedDelimiter 0
  | stopped e? => rw [isStopped_iff.2 ⟨e?, hphase⟩] at h; cases h

/-- An error is kept behind an invalid token, and behind no other. -/
theorem error?_pull_iff (hm : s.cursor.mark = s.cursor.pos) (h : s.isStopped = false) :
    s.pull.scanner.error?.isSome = true ↔ s.pull.token.kind = .invalid := by
  have hpull := brings_pull hm
  cases hnext : s.pull.scanner.isStopped with
  | true => exact (hpull.stopping h hnext).2
  | false =>
    have hgoing := hpull.going h hnext
    have hvalid : s.pull.token.kind ≠ .invalid := fun hkind => by rw [hkind] at hgoing; cases hgoing
    simpa [error?_of_running hnext] using hvalid

/-! ## One pull after the other -/

theorem events_succ (n : Nat) (s : Scanner) : s.events (n + 1) = s.pull.event?.toList ++ s.pull.scanner.events n := by
  rw [events, pulls, List.filterMap_cons]
  cases s.pull.event? <;> rfl

/-- A scanner that has stopped has nothing to report. -/
theorem events_of_stopped (hm : s.cursor.mark = s.cursor.pos) (h : s.isStopped = true) (n : Nat) : s.events n = [] := by
  induction n with
  | zero => rfl
  | succ n ih => rw [events_succ, pull_of_stopped hm h, ih]; rfl

/-- **The events of some pulls** are those of as many tokens of the stream. -/
theorem events_eq_map (hm : s.cursor.mark = s.cursor.pos) (n : Nat) :
    s.events n = (s.stream.take n).map fun x => .of s.name x.token x.scanner.error? := by
  induction n generalizing s with
  | zero => rfl
  | succ n ih =>
    cases hstop : s.isStopped with
    | true =>
      rw [stream_of_stopped hstop, events_of_stopped hm hstop]
      rfl
    | false =>
      obtain ⟨hname, hevent⟩ := announces_pull hstop
      rw [stream_of_running hstop, List.take_succ_cons, List.map_cons, events_succ, hevent, ih (brings_pull hm).mark,
        hname]
      rfl

theorem error?_stream_iff (s : Scanner) (hm : s.cursor.mark = s.cursor.pos) :
    ∀ x ∈ s.stream, x.scanner.error?.isSome = true ↔ x.token.kind = .invalid := by
  cases hstop : s.isStopped with
  | true =>
    rw [stream_of_stopped hstop]
    exact List.forall_mem_nil _
  | false =>
    have hlt := remaining_pull hstop
    rw [stream_of_running hstop]
    exact List.forall_mem_cons.2 ⟨error?_pull_iff hm hstop, error?_stream_iff s.pull.scanner (brings_pull hm).mark⟩
termination_by s.remaining

/-- A failure is the last event. -/
theorem eq_nil_of_debug (hm : s.cursor.mark = s.cursor.pos) {n : Nat} {before after : List Event} {event : Event}
    (h : s.events n = before ++ event :: after) (hlevel : event.level = .debug) : after = [] := by
  induction n generalizing s before with
  | zero => cases before <;> cases h
  | succ n ih =>
    cases hstop : s.isStopped with
    | true =>
      rw [events_of_stopped hm hstop] at h
      cases before <;> cases h
    | false =>
      have hpull := brings_pull hm
      rw [events_succ, (announces_pull hstop).event, Option.toList_some, List.singleton_append] at h
      cases before with
      | nil =>
        obtain ⟨rfl, rfl⟩ := List.cons.inj h
        have herror := Event.level_of.1 hlevel
        cases hnext : s.pull.scanner.isStopped with
        | true => exact events_of_stopped hpull.mark hnext n
        | false => rw [error?_of_running hnext] at herror; cases herror
      | cons first before => exact ih hpull.mark (List.cons.inj h).2

end Scanner

/-! ## The log of a machine -/

namespace Checked

variable {name : String} {source : List UInt8} {s : Scanner} {m : Machine}

/-- The cursor stands at a place of the source, no text read since its mark. -/
def Standing (source : List UInt8) (c : Cursor) : Prop := ∃ p : Place, p.Within source ∧ At p 0 p.ahead c

/-- What is skipped leads to the start of another token. -/
theorem Standing.skip (h : Standing source m.cursor) {next : State} {c : Cursor}
    (hstep : step source m = .ok (.skip next, c)) : next = .start ∧ Standing source c := by
  obtain ⟨p, hp, hat⟩ := h
  cases hstate : m.state with
  | start =>
    obtain ⟨d, hd, hpos, hmark⟩ := makes_scanToken hp hat
    rw [step, hstate, hd, Except.ok.injEq, Prod.mk.injEq] at hstep
    obtain ⟨hskip, rfl⟩ := hstep
    cases hf : Lexeme.first p.ahead with
    | skip n =>
      rw [hf] at hskip hpos hmark
      exact ⟨(Step.skip.inj hskip).symm, p.advance n, hp.advance n, hmark, hpos, rfl⟩
    | token => rw [hf] at hskip; cases hskip
    | invalid => rw [hf] at hskip; cases hskip
    | done => rw [hf] at hskip; cases hskip
  | delimiter =>
    obtain ⟨d, hd, hpeek⟩ := hat.peek
    simp only [step, hstate, checkDelimiter, hd, Except.ok.injEq] at hstep
    split at hstep
    · obtain ⟨hskip, rfl⟩ := Prod.mk.inj hstep
      exact ⟨(Step.skip.inj hskip).symm, p, hp, hpeek⟩
    · cases hstep
  | exhausted => rw [step, hstate] at hstep; cases hstep

/-- **A machine that is to bring more reports what it brings**: it has kept no error. -/
theorem logged_eq (h : Standing source m.cursor) (hstate : m.state ≠ .exhausted) (herror : m.error? = none) :
    logged name source m =
      (nextToken source m).map fun r => (r.1, some (.of name r.1 r.2.error?), r.2) := by
  fun_induction nextToken source m with
  | case1 m next c hstep hlt ih =>
    obtain ⟨rfl, hc⟩ := h.skip hstep
    rw [logged, hstep]
    simp only [hlt, if_true]
    exact ih hc (by simp) herror
  | case2 m next c hstep hlt =>
    rw [logged, hstep]
    simp only [hlt, if_false]
    rfl
  | case3 m kind next c hstep =>
    rw [logged, hstep]
    cases hemit : emit source kind c with
    | error fault => simp only [hemit]; rfl
    | ok r => simp only [hemit, ok_bind, hstate, if_false, Except.map, Event.of, herror]
  | case4 m e c hstep =>
    rw [logged, hstep]
    cases hemit : emit source .invalid c with
    | error fault => simp only [hemit]; rfl
    | ok r => simp [hemit, ok_bind, Except.map, Event.of, record, herror]
  | case5 m fault hstep =>
    rw [logged, hstep]
    rfl

/-- **The machine reports what the scanner reports.** -/
theorem logged_pull (h : Tracks source s m) :
    ∃ m', logged s.name source m = .ok (s.pull.token, s.pull.event?, m') ∧ Tracks source s.pull.scanner m' := by
  obtain ⟨m', hnext, htracks⟩ := nextToken_pull h
  refine ⟨m', ?_, htracks⟩
  cases hstop : s.isStopped with
  | true =>
    have hstate := h.exhausted_iff.2 hstop
    have hstep : step source m = .ok (.emit .endOfInput .exhausted, m.cursor) := by rw [step, hstate]
    rw [nextToken_of_emit h.within hstep h.at, Except.ok.injEq, Prod.mk.injEq] at hnext
    obtain ⟨htoken, rfl⟩ := hnext
    rw [logged, hstep, ← htoken, Scanner.pull_of_stopped h.mark hstop]
    simp only [h.at.emit h.within, ok_bind, hstate, if_true]
  | false =>
    have hstate : m.state ≠ .exhausted := mt h.exhausted_iff.1 (Bool.eq_false_iff.1 hstop)
    have herror : m.error? = none := by rw [h.error, Scanner.error?_of_running hstop]
    rw [logged_eq ⟨_, h.within, s.ahead_eq_pos ▸ h.at⟩ hstate herror, hnext, (Scanner.announces_pull hstop).event,
      ← htracks.error]
    rfl

theorem name_pull (h : Tracks source s m) : s.pull.scanner.name = s.name := by
  cases hstop : s.isStopped with
  | true => rw [Scanner.pull_of_stopped h.mark hstop]
  | false => exact (Scanner.announces_pull hstop).name

/-- The log of the machine is that of the scanner. -/
theorem log_eq (h : Tracks source s m) (n : Nat) : log s.name source n m = .ok (s.events n) := by
  induction n generalizing s m with
  | zero => rfl
  | succ n ih =>
    obtain ⟨m', hlogged, htracks⟩ := logged_pull h
    have hrest := ih htracks
    rw [name_pull h] at hrest
    rw [log, hlogged, Scanner.events_succ]
    simp only [ok_bind, hrest]

end Checked

/-- **The log mirrors the stream.**  Some pulls report as many of its tokens as there are, in order, each with the error
kept behind it, which is there for an invalid token alone.  A failure is reported last, and by a machine that asks first
whether it has kept an error no less. -/
theorem log_mirrors_stream (name : String) (source : List UInt8) (n : Nat) :
    let s := Scanner.ofBytes name source
    s.events n = (s.stream.take n).map (fun x => .of name x.token x.scanner.error?) ∧
    (∀ x ∈ s.stream, x.scanner.error?.isSome = true ↔ x.token.kind = .invalid) ∧
    (∀ before event after, s.events n = before ++ event :: after → event.level = .debug → after = []) ∧
    Checked.log name source n (.ofBytes source) = .ok (s.events n) := by
  have hm : (Scanner.ofBytes name source).cursor.mark = (Scanner.ofBytes name source).cursor.pos := rfl
  have htracks : Checked.Tracks source (Scanner.ofBytes name source) (.ofBytes source) :=
    ⟨⟨Place.within_start source, rfl, rfl, rfl⟩, rfl, rfl⟩
  exact ⟨Scanner.events_eq_map hm n, Scanner.error?_stream_iff _ hm, fun _ _ _ => Scanner.eq_nil_of_debug hm,
    Checked.log_eq htracks n⟩

end SchemeLexer
