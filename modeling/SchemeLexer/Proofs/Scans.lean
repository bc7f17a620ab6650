import SchemeLexer.Proofs.Blank
import SchemeLexer.Proofs.Places
import SchemeLexer.Scanner
/-!
# Scans — the scan of a source, lexeme by lexeme

`Scans owing p ts e?` says what scanning from a place brings: the tokens `ts` to the end of the stream and the error
`e?` that ends it, where `owing` says that a delimiter has to come first.  It is what the scanner does (`scans_iff`),
told without its cursor: each token runs from one place to the next, and no place before the present one matters.
-/
namespace SchemeLexer

/-- A token of the `n` characters at a place. -/
def Place.token (p : Place) (kind : Kind) (n : Nat) : Token := ⟨kind, p.slice (p.advance n), p.position⟩

inductive Scans : Bool → Place → List Token → Option ScanError → Prop
  | skip {p : Place} {n : Nat} {ts : List Token} {e? : Option ScanError} :
    Lexeme.first p.ahead = .skip n → Scans false (p.advance n) ts e? → Scans false p ts e?
  | token {p : Place} {kind : Kind} {n : Nat} {owing : Bool} {ts : List Token} {e? : Option ScanError} :
    Lexeme.first p.ahead = .token kind n owing → Scans owing (p.advance n) ts e? →
      Scans false p (p.token kind n :: ts) e?
  | invalid {p : Place} {e : ScanError} {n : Nat} :
    Lexeme.first p.ahead = .invalid e n → Scans false p [p.token .invalid n] (some e)
  | done {p : Place} : Lexeme.first p.ahead = .done → Scans false p [p.token .endOfInput 0] none
  | delimited {p : Place} {ts : List Token} {e? : Option ScanError} :
    Delimited p.ahead → Scans false p ts e? → Scans true p ts e?
  | undelimited {p : Place} : ¬ Delimited p.ahead → Scans true p [p.token .invalid 0] (some .expectedDelimiter)

namespace Scans

/-- What a scan brings is settled by the lexeme at its place. -/
theorem inv {p : Place} {ts : List Token} {e? : Option ScanError} (h : Scans false p ts e?) :
    match Lexeme.first p.ahead with
    | .skip n => Scans false (p.advance n) ts e?
    | .token kind n owing => ∃ us, ts = p.token kind n :: us ∧ Scans owing (p.advance n) us e?
    | .invalid e n => ts = [p.token .invalid n] ∧ e? = some e
    | .done => ts = [p.token .endOfInput 0] ∧ e? = none := by
  cases h with
  | skip hf h => rw [hf]; exact h
  | token hf h => rw [hf]; exact ⟨_, rfl, h⟩
  | invalid hf => rw [hf]; exact ⟨rfl, rfl⟩
  | done hf => rw [hf]; exact ⟨rfl, rfl⟩

/-- **A scan has one outcome.** -/
theorem unique {owing : Bool} {p : Place} {ts us : List Token} {e? f? : Option ScanError} (h : Scans owing p ts e?)
    (h' : Scans owing p us f?) : ts = us ∧ e? = f? := by
  induction h generalizing us f? with
  | skip hf _ ih =>
    have h' := h'.inv
    rw [hf] at h'
    exact ih h'
  | token hf _ ih =>
    have h' := h'.inv
    rw [hf] at h'
    obtain ⟨vs, rfl, hvs⟩ := h'
    obtain ⟨rfl, rfl⟩ := ih hvs
    exact ⟨rfl, rfl⟩
  | invalid hf =>
    have h' := h'.inv
    rw [hf] at h'
    exact ⟨h'.1.symm, h'.2.symm⟩
  | done hf =>
    have h' := h'.inv
    rw [hf] at h'
    exact ⟨h'.1.symm, h'.2.symm⟩
  | delimited hd _ ih =>
    cases h' with
    | delimited _ h' => exact ih h'
    | undelimited hd' => exact absurd hd hd'
  | undelimited hd =>
    cases h' with
    | delimited hd' => exact absurd hd' hd
    | undelimited => exact ⟨rfl, rfl⟩

/-- A blank text in front changes nothing but the places. -/
theorem blank {u : List Char} (hu : Lexeme.Blank u) {p : Place} {cs : List Char} {ts : List Token}
    {e? : Option ScanError} (hp : p.ahead = u ++ cs) (h : Scans false (p.advance u.length) ts e?) :
    Scans false p ts e? := by
  induction hu generalizing p with
  | nil => exact h
  | @cons v u hv _ ih =>
    rw [List.append_assoc] at hp
    refine .skip (hp ▸ Lexeme.first_atmosphere hv (u ++ cs)) (ih ?_ ?_)
    · rw [Place.ahead_advance, hp, List.drop_left]
    · rwa [← Place.advance_add, ← List.length_append]

theorem of_ahead_nil {p : Place} (h : p.ahead = []) : Scans false p [p.token .endOfInput 0] none := .done (by rw [h]; rfl)

end Scans

namespace Scanner

variable {s : Scanner}

/-! ## One pull -/

theorem scan_of_skip {n : Nat} (h : Lexeme.first s.ahead = .skip n) : s.scan = (s.read n).ignore.scan := by
  rw [scan]
  split <;> simp_all

theorem scan_of_token {kind : Kind} {n : Nat} {owing : Bool} (h : Lexeme.first s.ahead = .token kind n owing) :
    s.scan = s.yield kind n (if owing then .owing else .ready) := by
  rw [scan]
  split <;> simp_all

theorem scan_of_invalid {e : ScanError} {n : Nat} (h : Lexeme.first s.ahead = .invalid e n) : s.scan = s.fail e n := by
  rw [scan]
  split <;> simp_all

theorem scan_of_done (h : Lexeme.first s.ahead = .done) : s.scan = s.yield .endOfInput 0 (.stopped none) := by
  rw [scan]
  split <;> simp_all

/-! ## The stream -/

theorem stream_of_running (h : s.isStopped = false) : s.stream = s.pull :: s.pull.scanner.stream := by
  rw [stream, dif_pos h]

theorem tokens_of_running (h : s.isStopped = false) : s.tokens = s.pull.token :: s.pull.scanner.tokens := by
  rw [tokens, stream_of_running h, List.map_cons, tokens]

theorem finish_of_running (h : s.isStopped = false) : s.finish = s.pull.scanner.finish := by
  rw [finish, stream_of_running h, finish, List.getLast?_cons]
  cases s.pull.scanner.stream.getLast? <;> rfl

theorem stream_of_stopped (h : s.isStopped = true) : s.stream = [] := by
  rw [stream, dif_neg (by simp [h])]

theorem tokens_of_stopped (h : s.isStopped = true) : s.tokens = [] := by rw [tokens, stream_of_stopped h, List.map_nil]

theorem finish_of_stopped (h : s.isStopped = true) : s.finish = s := by rw [finish, stream_of_stopped h]; rfl

/-! ## The scan of a scanner

Between two pulls the mark is where the cursor is: nothing is read of which no token has been made. -/

theorem ahead_eq_pos (s : Scanner) : s.ahead = s.cursor.pos.ahead := s.ahead_eq

theorem token_yield (hm : s.cursor.mark = s.cursor.pos) (kind : Kind) (n : Nat) (phase : Phase) :
    (s.yield kind n phase).token = s.cursor.pos.token kind n := by
  simp only [yield, emit, read, Cursor.emit, Cursor.lit, Cursor.advance, Place.token, hm]

theorem token_fail (hm : s.cursor.mark = s.cursor.pos) (e : ScanError) (n : Nat) :
    (s.fail e n).token = s.cursor.pos.token .invalid n := by
  simp only [fail, emit, read, Cursor.emit, Cursor.lit, Cursor.advance, Place.token, hm]

/-- The tokens of a scanner that is not stopped are those that scanning on brings, if it may scan on. -/
theorem scans_of_scan {owing : Bool} (hphase : s.phase = if owing then .owing else .ready)
    (hm : s.cursor.mark = s.cursor.pos)
    (h : Scans false s.cursor.pos (s.scan.token :: s.scan.scanner.tokens) s.scan.scanner.finish.error?) :
    Scans owing s.cursor.pos s.tokens s.finish.error? := by
  cases owing with
  | false =>
    have hrun : s.isStopped = false := by simp [isStopped, hphase]
    have hpull : s.pull = s.scan := by simp [pull, hphase]
    rw [tokens_of_running hrun, finish_of_running hrun, hpull]
    exact h
  | true =>
    have hrun : s.isStopped = false := by simp [isStopped, hphase]
    rw [tokens_of_running hrun, finish_of_running hrun]
    by_cases hd : Delimited s.ahead
    · have hpull : s.pull = s.scan := by simp only [pull, hphase]; exact if_pos hd
      rw [hpull]
      exact .delimited (s.ahead_eq_pos ▸ hd) h
    · have hpull : s.pull = s.fail .expectedDelimiter 0 := by simp only [pull, hphase]; exact if_neg hd
      have hstop : (s.fail .expectedDelimiter 0).scanner.isStopped = true := rfl
      rw [hpull, token_fail hm, tokens_of_stopped hstop, finish_of_stopped hstop]
      exact .undelimited (s.ahead_eq_pos ▸ hd)

theorem scans_scan (s : Scanner) (hm : s.cursor.mark = s.cursor.pos) :
    Scans false s.cursor.pos (s.scan.token :: s.scan.scanner.tokens) s.scan.scanner.finish.error? := by
  have hadv := Lexeme.advances_first s.ahead
  have hne : Lexeme.first s.ahead ≠ .done → 0 < s.ahead.length := fun h =>
    List.length_pos_iff.2 fun hnil => h (by rw [hnil]; rfl)
  cases hf : Lexeme.first s.ahead with
  | skip n =>
    rw [hf, Lexeme.advances_skip] at hadv
    have hlt : s.ahead.length - n < s.ahead.length := Nat.sub_lt (hne (by simp [hf])) hadv
    rw [scan_of_skip hf]
    exact .skip (s.ahead_eq_pos ▸ hf) (scans_scan (s.read n).ignore rfl)
  | token kind n owing =>
    rw [hf, Lexeme.advances_token] at hadv
    have hlt : s.ahead.length - n < s.ahead.length := Nat.sub_lt (hne (by simp [hf])) hadv
    rw [scan_of_token hf, token_yield hm]
    have hnext := scans_scan (s.yield kind n (if owing then .owing else .ready)).scanner rfl
    exact .token (s.ahead_eq_pos ▸ hf) (scans_of_scan rfl rfl hnext)
  | invalid e n =>
    have hstop : (s.fail e n).scanner.isStopped = true := rfl
    rw [scan_of_invalid hf, token_fail hm, tokens_of_stopped hstop, finish_of_stopped hstop]
    exact .invalid (s.ahead_eq_pos ▸ hf)
  | done =>
    have hstop : (s.yield .endOfInput 0 (.stopped none)).scanner.isStopped = true := rfl
    rw [scan_of_done hf, token_yield hm, tokens_of_stopped hstop, finish_of_stopped hstop]
    exact .done (s.ahead_eq_pos ▸ hf)
termination_by s.ahead.length
decreasing_by all_goals simpa only [yield, emit, ignore, read, List.length_drop] using hlt

/-- **The tokens of a source are those of its scan**, and the error is that of its scan. -/
theorem scans_iff (name : String) (source : List UInt8) {ts : List Token} {e? : Option ScanError} :
    Scans false ⟨.start, source⟩ ts e? ↔
      (ofBytes name source).tokens = ts ∧ (ofBytes name source).finish.error? = e? := by
  have h : Scans false ⟨.start, source⟩ (ofBytes name source).tokens (ofBytes name source).finish.error? :=
    scans_of_scan rfl rfl (scans_scan (ofBytes name source) rfl)
  constructor
  · exact fun h' => h.unique h'
  · rintro ⟨rfl, rfl⟩
    exact h

end Scanner
end SchemeLexer
