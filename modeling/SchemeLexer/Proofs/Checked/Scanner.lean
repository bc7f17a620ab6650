import SchemeLexer.Checked.Scanner
import SchemeLexer.Proofs.Checked.Lexeme
import SchemeLexer.Proofs.Sessions
/-!
# Checked/Scanner — sessions without a fault

`session_answers` says that no call on the machine ever faults, whatever the source and the order of the calls, and that
it answers what the scanner answers.  The invariant is `Tracks`: machine and scanner stand at one place, ready for the
same.
-/
namespace SchemeLexer
namespace Checked

/-! ## Machine and scanner -/

def State.ofPhase : Phase → State
  | .ready => .start
  | .owing => .delimiter
  | .stopped _ => .exhausted

variable {source : List UInt8} {s : Scanner} {m : Machine}

/-- The machine stands where the scanner does, no text read since the mark. -/
structure Beside (source : List UInt8) (s : Scanner) (m : Machine) : Prop where
  within : s.cursor.pos.Within source
  mark   : s.cursor.mark = s.cursor.pos
  pos    : m.cursor.pos = s.cursor.pos
  start  : m.cursor.mark = s.cursor.pos

/-- And it is ready for the same, with the same error. -/
structure Tracks (source : List UInt8) (s : Scanner) (m : Machine) : Prop extends Beside source s m where
  state : m.state = .ofPhase s.phase
  error : m.error? = s.error?

theorem Beside.at (h : Beside source s m) : At s.cursor.pos 0 s.ahead m.cursor :=
  ⟨h.start, h.pos, s.ahead_eq.symm⟩

theorem nextToken_of_skip {next : State} {c : Cursor} (h : step source m = .ok (.skip next, c))
    (hlt : (Machine.mk c next m.error?).toGo < m.toGo) :
    nextToken source m = nextToken source ⟨c, next, m.error?⟩ := by
  rw [nextToken, h]
  exact if_pos hlt

theorem nextToken_of_emit {kind : Kind} {next : State} {p : Place} {n : Nat} {cs : List Char} {c : Cursor}
    (hp : p.Within source) (h : step source m = .ok (.emit kind next, c)) (hc : At p n cs c) :
    nextToken source m = .ok (p.token kind n, ⟨c.ignore, next, m.error?⟩) := by
  rw [nextToken, h]
  simp only [hc.emit hp, ok_bind]

theorem nextToken_of_fail {e : ScanError} {p : Place} {n : Nat} {cs : List Char} {c : Cursor} (hp : p.Within source)
    (h : step source m = .ok (.fail e, c)) (hc : At p n cs c) :
    nextToken source m = .ok (p.token .invalid n, ⟨c.ignore, .exhausted, m.error?.or (some e)⟩) := by
  rw [nextToken, h]
  simp only [hc.emit hp, ok_bind]

/-- The scanner and the machine behind a token of the `n` characters ahead. -/
theorem Beside.emitted (h : Beside source s m) {n : Nat} {cs : List Char} {c : Cursor} (hc : At s.cursor.pos n cs c)
    (kind : Kind) (phase : Phase) (state : State) (error? : Option ScanError) :
    Beside source ((s.read n).emit kind phase).2 ⟨c.ignore, state, error?⟩ where
  within := h.within.advance n
  mark := rfl
  pos := hc.pos
  start := hc.pos

/-- **The machine scans as the scanner does.** -/
theorem nextToken_start (s : Scanner) (m : Machine) (h : Beside source s m) (hstate : m.state = .start)
    (herror : m.error? = none) :
    ∃ m', nextToken source m = .ok (s.scan.token, m') ∧ Tracks source s.scan.scanner m' := by
  have hstep : step source m = scanToken source m.cursor := by rw [step, hstate]
  obtain ⟨d, hd, hpos, hmark⟩ := makes_scanToken h.within h.at
  rw [← hstep] at hd
  have hadv := Lexeme.advances_first s.ahead
  cases hf : Lexeme.first s.ahead with
  | skip n =>
    rw [hf] at hd hpos hmark
    rw [hf, Lexeme.advances_skip] at hadv
    obtain ⟨x, cs, hahead⟩ := List.exists_cons_of_ne_nil (l := s.ahead) (by rintro hnil; rw [hnil] at hf; cases hf)
    obtain ⟨k, rfl⟩ : ∃ k, n = 0 + 1 + k := ⟨n - 1, by omega⟩
    have hlt : (Machine.mk d .start m.error?).toGo < m.toGo := by
      have := At.lt (hahead ▸ h.at) hpos
      simp only [Machine.toGo, hstate]
      omega
    rw [nextToken_of_skip hd hlt, Scanner.scan_of_skip hf]
    exact nextToken_start (s.read (0 + 1 + k)).ignore _ ⟨h.within.advance _, rfl, hpos, hmark⟩ rfl herror
  | token kind n owing =>
    rw [hf] at hd hpos hmark
    have hat : At s.cursor.pos n (s.cursor.pos.ahead.drop n) d := ⟨hmark, hpos, rfl⟩
    rw [Scanner.scan_of_token hf, Scanner.token_yield h.mark]
    refine ⟨_, nextToken_of_emit h.within hd hat, ⟨h.emitted hat kind _ _ _, ?_, ?_⟩⟩
    · cases owing <;> rfl
    · cases owing <;> exact herror
  | invalid e n =>
    rw [hf] at hd hpos hmark
    have hat : At s.cursor.pos n (s.cursor.pos.ahead.drop n) d := ⟨hmark, hpos, rfl⟩
    rw [Scanner.scan_of_invalid hf, Scanner.token_fail h.mark]
    refine ⟨_, nextToken_of_fail h.within hd hat, ⟨h.emitted hat .invalid _ _ _, rfl, ?_⟩⟩
    rw [herror]
    rfl
  | done =>
    rw [hf] at hd hpos hmark
    have hat : At s.cursor.pos 0 (s.cursor.pos.ahead.drop 0) d := ⟨hmark, hpos, rfl⟩
    rw [Scanner.scan_of_done hf, Scanner.token_yield h.mark]
    exact ⟨_, nextToken_of_emit h.within hd hat, ⟨h.emitted hat .endOfInput _ _ _, rfl, herror⟩⟩
termination_by s.ahead.length
decreasing_by
  rw [hahead]
  simp only [Scanner.ignore, Scanner.read, hahead, List.length_drop, List.length_cons]
  omega

theorem nextToken_delimiter (h : Tracks source s m) (hphase : s.phase = .owing) :
    ∃ m', nextToken source m = .ok (s.pull.token, m') ∧ Tracks source s.pull.scanner m' := by
  have herror : m.error? = none := by rw [h.error, Scanner.error?, hphase]
  have hstate : m.state = .delimiter := by rw [h.state, hphase]; rfl
  obtain ⟨d, hd, hat⟩ := h.at.peek
  have hbeside : Beside source s ⟨d, .start, m.error?⟩ := ⟨h.within, h.mark, hat.pos, hat.mark⟩
  by_cases hends : endsToken s.ahead.head? = true
  · have hstep : step source m = .ok (.skip .start, d) := by simp only [step, hstate, checkDelimiter, hd, hends, if_true]
    have hlt : (Machine.mk d .start m.error?).toGo < m.toGo := by
      simp only [Machine.toGo, hstate, hat.pos, h.pos, Place.advance_zero]
      simp
    have hpull : s.pull = s.scan := by simp only [Scanner.pull, hphase, hends, if_true]
    rw [nextToken_of_skip hstep hlt, hpull]
    exact nextToken_start s _ hbeside rfl herror
  · have hstep : step source m = .ok (.fail .expectedDelimiter, d) := by
      simp only [step, hstate, checkDelimiter, hd, hends]
      rfl
    have hpull : s.pull = s.fail .expectedDelimiter 0 := by
      simp only [Scanner.pull, hphase, hends]
      rfl
    rw [hpull, Scanner.token_fail h.mark]
    refine ⟨_, nextToken_of_fail h.within hstep hat, ⟨h.emitted hat .invalid _ _ _, rfl, ?_⟩⟩
    rw [herror]
    rfl

/-- **The machine pulls what the scanner pulls.** -/
theorem nextToken_pull (h : Tracks source s m) :
    ∃ m', nextToken source m = .ok (s.pull.token, m') ∧ Tracks source s.pull.scanner m' := by
  cases hphase : s.phase with
  | ready =>
    have herror : m.error? = none := by rw [h.error, Scanner.error?, hphase]
    have hstate : m.state = .start := by rw [h.state, hphase]; rfl
    have hpull : s.pull = s.scan := by simp only [Scanner.pull, hphase]
    rw [hpull]
    exact nextToken_start s m h.toBeside hstate herror
  | owing => exact nextToken_delimiter h hphase
  | stopped e? =>
    have hstop : s.isStopped = true := by rw [Scanner.isStopped, hphase]
    have hstep : step source m = .ok (.emit .endOfInput .exhausted, m.cursor) := by
      rw [step, h.state, hphase]
      rfl
    have htoken : s.cursor.pos.token .endOfInput 0 = ⟨.endOfInput, [], s.cursor.position⟩ := by
      simp [Place.token, Place.slice, Cursor.position]
    rw [Scanner.pull_of_stopped h.mark hstop, ← htoken]
    refine ⟨_, nextToken_of_emit h.within hstep h.at, ⟨h.within, h.mark, h.pos, h.pos⟩, ?_, h.error⟩
    rw [hphase]
    rfl

theorem Tracks.exhausted_iff (h : Tracks source s m) : m.state = .exhausted ↔ s.isStopped = true := by
  rw [h.state, Scanner.isStopped_iff]
  cases s.phase <;> simp [State.ofPhase]

theorem call_eq (h : Tracks source s m) (c : Call) :
    ∃ m', call source m c = .ok ((s.call c).1, m') ∧ Tracks source (s.call c).2 m' := by
  obtain ⟨m', hnext, htracks⟩ := nextToken_pull h
  cases c with
  | pull => exact ⟨m', by rw [call, hnext]; rfl, htracks⟩
  | next =>
    cases hstop : s.isStopped with
    | true =>
      have hstate := h.exhausted_iff.2 hstop
      rw [Scanner.call_of_stopped h.mark hstop]
      exact ⟨m, by rw [call, if_pos hstate]; rfl, h⟩
    | false =>
      have hstate : m.state ≠ .exhausted := mt h.exhausted_iff.1 (Bool.eq_false_iff.1 hstop)
      rw [Scanner.call_of_running hstop]
      exact ⟨m', by rw [call, if_neg hstate, hnext]; rfl, htracks⟩

theorem session_eq (h : Tracks source s m) (calls : List Call) :
    ∃ m', session source m calls = .ok (s.answers calls, m') ∧ Tracks source (s.after calls) m' := by
  induction calls generalizing s m with
  | nil => exact ⟨m, rfl, h⟩
  | cons c calls ih =>
    obtain ⟨m₁, hcall, h₁⟩ := call_eq h c
    obtain ⟨m₂, hsession, h₂⟩ := ih h₁
    exact ⟨m₂, by simp only [session, hcall, ok_bind, hsession, Scanner.answers], h₂⟩

/-- **No call faults**, whatever the source and the calls before it, and the answers are those of the scanner. -/
theorem session_answers (name : String) (source : List UInt8) (calls : List Call) :
    ∃ m, session source (.ofBytes source) calls = .ok ((Scanner.ofBytes name source).answers calls, m) ∧
      m.error? = ((Scanner.ofBytes name source).after calls).error? := by
  have htracks : Tracks source (Scanner.ofBytes name source) (.ofBytes source) :=
    ⟨⟨Place.within_start source, rfl, rfl, rfl⟩, rfl, rfl⟩
  obtain ⟨m, hsession, hm⟩ := session_eq htracks calls
  exact ⟨m, hsession, hm.error⟩

end Checked
end SchemeLexer
