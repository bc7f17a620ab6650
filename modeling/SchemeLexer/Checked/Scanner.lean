import SchemeLexer.Checked.Lexeme
import SchemeLexer.Session
/-!
# Checked/Scanner — a machine that pulls tokens

A machine that pulls tokens with a cursor, every operation that could fault among its steps.  What it is ready for and
the first error are two things to it, and skipped text takes it round a loop.  It answers the calls of a session, and
reports what it pulls: a failure only if it has kept none before.
-/
namespace SchemeLexer
namespace Checked

structure Machine where
  cursor : Cursor
  state  : State
  error? : Option ScanError

namespace Machine

def ofBytes (source : List UInt8) : Machine := ⟨.ofBytes source, .start, none⟩

/-- A bound on the steps to the end of the source: a delimiter may be looked for once before each lexeme. -/
def toGo (m : Machine) : Nat := 2 * m.cursor.pos.rest.length + if m.state = .delimiter then 1 else 0

end Machine

def checkDelimiter (c : Cursor) : Step × Cursor :=
  let (x?, d) := c.peek
  if endsToken x? then (.skip .start, d) else (.fail .expectedDelimiter, d)

def step (source : List UInt8) (m : Machine) : Except Fault (Step × Cursor) :=
  match m.state with
  | .start => scanToken source m.cursor
  | .delimiter => .ok (checkDelimiter m.cursor)
  | .exhausted => .ok (.emit .endOfInput .exhausted, m.cursor)

/-- The next token, and the machine behind it.  An error is kept if it is the first. -/
def nextToken (source : List UInt8) (m : Machine) : Except Fault (Token × Machine) :=
  match step source m with
  | .ok (.skip next, c) =>
    if (Machine.mk c next m.error?).toGo < m.toGo then nextToken source ⟨c, next, m.error?⟩ else .error .stuck
  | .ok (.emit kind next, c) => do
    let (t, c) ← emit source kind c
    .ok (t, ⟨c, next, m.error?⟩)
  | .ok (.fail e, c) => do
    let (t, c) ← emit source .invalid c
    .ok (t, ⟨c, .exhausted, m.error?.or (some e)⟩)
  | .error fault => .error fault
termination_by m.toGo

def call (source : List UInt8) (m : Machine) : Call → Except Fault (Option Token × Machine)
  | .next =>
    if m.state = .exhausted then .ok (none, m)
    else do
      let (t, m) ← nextToken source m
      .ok (some t, m)
  | .pull => do
    let (t, m) ← nextToken source m
    .ok (some t, m)

/-- The answers to one call after the other, and the machine after them. -/
def session (source : List UInt8) : Machine → List Call → Except Fault (List (Option Token) × Machine)
  | m, [] => .ok ([], m)
  | m, c :: calls => do
    let (t?, m) ← call source m c
    let (ts, m) ← session source m calls
    .ok (t? :: ts, m)

/-! ## What the machine reports -/

/-- What the machine reports of an error that it meets: nothing if it has kept one before. -/
def record (name : String) (m : Machine) (t : Token) (e : ScanError) : Option Event :=
  if m.error?.isSome then none else some (.failed name t.position.line t.position.column e)

/-- The next token, what the machine reports of it, and the machine behind it. -/
def logged (name : String) (source : List UInt8) (m : Machine) : Except Fault (Token × Option Event × Machine) :=
  match step source m with
  | .ok (.skip next, c) =>
    if (Machine.mk c next m.error?).toGo < m.toGo then logged name source ⟨c, next, m.error?⟩ else .error .stuck
  | .ok (.emit kind next, c) => do
    let (t, c) ← emit source kind c
    .ok (t, if m.state = .exhausted then none else some (.scanned name t.kind t.position.offset), ⟨c, next, m.error?⟩)
  | .ok (.fail e, c) => do
    let (t, c) ← emit source .invalid c
    .ok (t, record name m t e, ⟨c, .exhausted, m.error?.or (some e)⟩)
  | .error fault => .error fault
termination_by m.toGo

/-- What the machine reports of some pulls. -/
def log (name : String) (source : List UInt8) : Nat → Machine → Except Fault (List Event)
  | 0, _ => .ok []
  | n + 1, m => do
    let (_, event?, m) ← logged name source m
    let events ← log name source n m
    .ok (event?.toList ++ events)

end Checked
end SchemeLexer
