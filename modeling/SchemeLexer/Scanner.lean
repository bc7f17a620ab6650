import SchemeLexer.Event
import SchemeLexer.Lexeme.First
import SchemeLexer.Text.Cursor
/-!
# Scanner — tokens pulled from a source one at a time

A scanner reads lexeme after lexeme and hands out the tokens.  Its state is a cursor and a phase: it is ready for any
lexeme, or the last token owes a delimiter, or it has stopped, at the end of the input or at an error that it keeps.

The stream of a source is what `tokens` lists: every pull until the scanner has stopped.  `remaining_pull` says that
a pull comes nearer to that, so the list ends.
-/
namespace SchemeLexer

inductive Phase
  | ready
  /-- The text ahead has to begin with a delimiter. -/
  | owing
  /-- The last token has been handed out; the error is there if it was an invalid one. -/
  | stopped (error? : Option ScanError)
  deriving Repr, DecidableEq

/-- A scanner.  The characters ahead of the cursor are kept beside it. -/
structure Scanner where
  name     : String
  cursor   : Cursor
  phase    : Phase
  ahead    : List Char := cursor.ahead
  ahead_eq : ahead = cursor.ahead := by rfl

namespace Scanner

def ofBytes (name : String) (source : List UInt8) : Scanner :=
  { name, cursor := .ofBytes source, phase := .ready }

/-- The error the scan ended with, if it did. -/
def error? (s : Scanner) : Option ScanError :=
  match s.phase with
  | .stopped e? => e?
  | _ => none

def errorMessage (s : Scanner) : String := (s.error?.map ScanError.message).getD ""

def isStopped (s : Scanner) : Bool :=
  match s.phase with
  | .stopped _ => true
  | _ => false

def read (n : Nat) (s : Scanner) : Scanner :=
  { s with cursor := s.cursor.advance n, ahead := s.ahead.drop n, ahead_eq := by rw [s.ahead_eq, Cursor.ahead_advance] }

def ignore (s : Scanner) : Scanner :=
  { s with cursor := s.cursor.ignore, ahead_eq := by rw [s.ahead_eq, Cursor.ahead_ignore] }

/-- Makes a token of what was read, and goes on in another phase. -/
def emit (s : Scanner) (kind : Kind) (phase : Phase) : Token × Scanner :=
  ((s.cursor.emit kind).1,
    { s with cursor := (s.cursor.emit kind).2, phase, ahead_eq := by rw [s.ahead_eq, Cursor.ahead_emit] })

/-- What a pull brings: a token, what the scanner reports of it, and the scanner after it. -/
structure Pull where
  token   : Token
  event?  : Option Event
  scanner : Scanner

/-- Hands out a token of the `n` characters ahead. -/
def yield (s : Scanner) (kind : Kind) (n : Nat) (phase : Phase) : Pull :=
  let (t, s') := (s.read n).emit kind phase
  ⟨t, some (.scanned s.name kind t.position.offset), s'⟩

/-- Stops at an error that the `n` characters ahead show. -/
def fail (s : Scanner) (e : ScanError) (n : Nat) : Pull :=
  let (t, s') := (s.read n).emit .invalid (.stopped (some e))
  ⟨t, some (.failed s.name t.position.line t.position.column e), s'⟩

/-- Reads lexemes up to the first that is not to be skipped. -/
def scan (s : Scanner) : Pull :=
  match _h : Lexeme.first s.ahead with
  | .skip n => scan (s.read n).ignore
  | .token kind n owing => s.yield kind n (if owing then .owing else .ready)
  | .invalid e n => s.fail e n
  | .done => s.yield .endOfInput 0 (.stopped none)
termination_by s.ahead.length
decreasing_by
  have hn : 0 < n := by simpa [_h] using Lexeme.advances_first s.ahead
  have hne : s.ahead ≠ [] := by rintro he; simp [he] at _h
  have := List.length_pos_iff.2 hne
  simp only [ignore, read, List.length_drop]
  omega

/-- The next token.  A scanner that has stopped hands out empty tokens at the end of what it read, and reports
nothing. -/
def pull (s : Scanner) : Pull :=
  match s.phase with
  | .ready => s.scan
  | .owing => if endsToken s.ahead.head? then s.scan else s.fail .expectedDelimiter 0
  | .stopped _ =>
    let (t, s') := s.emit .endOfInput s.phase
    ⟨t, none, s'⟩

/-- The next token of the stream, `none` behind its last. -/
def next? (s : Scanner) : Option Pull := if s.isStopped then none else some s.pull

def pulls : Nat → Scanner → List Pull
  | 0, _ => []
  | n + 1, s =>
    let p := s.pull
    p :: pulls n p.scanner

def events (n : Nat) (s : Scanner) : List Event := (pulls n s).filterMap (·.event?)

/-- A bound on the tokens that the stream has still to bring. -/
def remaining (s : Scanner) : Nat := if s.isStopped then 0 else s.ahead.length + 1

theorem remaining_scan (s : Scanner) : s.scan.scanner.remaining < s.ahead.length + 1 := by
  induction h : s.ahead.length using Nat.strongRecOn generalizing s with
  | ind k ih =>
    subst h
    have hadv := Lexeme.advances_first s.ahead
    unfold scan
    split
    · rename_i n hf
      rw [hf] at hadv
      have hne : s.ahead ≠ [] := by rintro he; simp [he] at hf
      have hpos := List.length_pos_iff.2 hne
      have hlt : (s.read n).ignore.ahead.length < s.ahead.length := by
        simp only [Lexeme.advances_skip] at hadv
        simp only [ignore, read, List.length_drop]; omega
      have := ih _ hlt (s.read n).ignore rfl
      omega
    · rename_i kind n owing hf
      rw [hf] at hadv
      have hne : s.ahead ≠ [] := by rintro he; simp [he] at hf
      have hpos := List.length_pos_iff.2 hne
      simp only [Lexeme.advances_token] at hadv
      cases owing <;> simp [remaining, yield, emit, read, isStopped] <;> omega
    · simp [remaining, fail, emit, isStopped]
    · simp [remaining, yield, emit, isStopped]

/-- **A pull comes nearer to the end of the stream.** -/
theorem remaining_pull {s : Scanner} (h : s.isStopped = false) : s.pull.scanner.remaining < s.remaining := by
  have hr : s.remaining = s.ahead.length + 1 := by simp [remaining, h]
  rw [hr]
  unfold pull
  split
  · exact remaining_scan s
  · split
    · exact remaining_scan s
    · simp [remaining, fail, emit, isStopped]
  · rename_i hp; simp [isStopped, hp] at h

/-- The pulls until the scanner has stopped, the last of them that which stopped it. -/
def stream (s : Scanner) : List Pull :=
  if h : s.isStopped = false then
    let p := s.pull
    have : p.scanner.remaining < s.remaining := remaining_pull h
    p :: stream p.scanner
  else []
termination_by s.remaining

def tokens (s : Scanner) : List Token := s.stream.map (·.token)

/-- The scanner at the end of its stream. -/
def finish (s : Scanner) : Scanner := (s.stream.getLast?.map (·.scanner)).getD s

end Scanner
end SchemeLexer
