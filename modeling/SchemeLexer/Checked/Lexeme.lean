import SchemeLexer.Checked.Number
import SchemeLexer.Lexeme.First
/-!
# Checked/Lexeme — lexemes read with a cursor

The rules of the grammar run on a cursor.  Each looks at characters as it reads them, takes back the one too many, goes
back to the start of the token where another rule has to read it, and answers with a `Step`: what becomes of the text
since the mark, and whether a delimiter has to follow.
-/
namespace SchemeLexer
namespace Checked

/-- What a scanner is ready for. -/
inductive State
  | start
  /-- A delimiter. -/
  | delimiter
  | exhausted
  deriving Repr, DecidableEq

/-- What becomes of the text that a rule has read. -/
inductive Step
  | skip (next : State)
  | emit (kind : Kind) (next : State)
  | fail (e : ScanError)
  deriving Repr, DecidableEq

/-- The step of a rule that may have ended in an error. -/
def Step.ofError? (kind : Kind) (next : State) : Option ScanError → Step
  | none => .emit kind next
  | some e => .fail e

/-! ## Words -/

/-- The kind of a word: behind a sign, five are numbers. -/
def wordKind : List UInt8 → Kind
  | [] => .identifier
  | b :: word =>
    if (b = 0x2B ∨ b = 0x2D) ∧ Lexeme.isSignedNumber (Utf8.chars word) then .number else .identifier

def identifier (source : List UInt8) (c : Cursor) : Except Fault (Step × Cursor) := do
  let (_, d) := c.acceptWhile isSubsequent none
  let text ← lit source d
  .ok (.emit (wordKind text) .delimiter, d)

def number (c : Cursor) : Except Fault (Step × Cursor) := do
  let (e?, d) ← scanComplex .decimal c
  .ok (.ofError? .number .delimiter e?, d)

/-- What follows a dot. -/
def dot (source : List UInt8) (c : Cursor) : Except Fault (Step × Cursor) :=
  match c.next with
  | (some x, d) =>
    if isDelimiter x then .ok (.emit .dot .start, d.backup)
    else if isDotSubsequent x then identifier source d
    else if isDigit x then number d.rewind
    else .ok (.fail .invalidAfterDot, d)
  | (none, d) => .ok (.emit .dot .start, d.backup)

/-- What follows a sign and a dot. -/
def signDot (source : List UInt8) (c : Cursor) : Except Fault (Step × Cursor) :=
  match c.next with
  | (some x, d) =>
    if isDigit x then number d.rewind
    else if isDotSubsequent x then identifier source d
    else .ok (.fail .invalidAfterDot, d)
  | (none, d) => .ok (.fail .invalidAfterDot, d)

/-- What follows the sign `x`. -/
def sign (source : List UInt8) (x : Char) (c : Cursor) : Except Fault (Step × Cursor) :=
  match c.next with
  | (some y, d) =>
    if isDelimiter y then .ok (.emit .identifier .start, d.backup)
    else if y = '.' then signDot source d
    else if isDigit y then number d.rewind
    else if isSignSubsequent y then identifier source d
    else .ok (.fail (.invalidAfterSign x), d)
  | (none, d) => .ok (.emit .identifier .start, d.backup)

/-! ## Enclosed text -/

/-- Whether an escape sequence follows its backslash. -/
def escape (q : Char) (c : Cursor) : Bool × Cursor :=
  match c.next with
  | (some x, d) =>
    if x = 'x' then
      let (n, e) := d.acceptWhile isHexDigit none
      if n = 0 then (false, e)
      else
        let (y?, f) := e.next
        (decide (y? = some ';'), f)
    else if Lexeme.isEscapeLetter x ∨ x = q then (true, d)
    else if isInlineWhitespace x then
      let (_, e) := d.acceptWhile isInlineWhitespace none
      let (y?, f) := e.next
      if y? = some '\n' then
        let (_, g) := f.acceptWhile isInlineWhitespace none
        (true, g)
      else (false, f)
    else if x = '\n' then
      let (_, e) := d.acceptWhile isInlineWhitespace none
      (true, e)
    else (false, d)
  | (none, d) => (false, d)

/-- The text behind an opening mark. -/
def quoted (q : Char) (kind : Kind) (c : Cursor) : Except Fault (Step × Cursor) :=
  match c.next with
  | (some x, d) =>
    if x = q then .ok (.emit kind .start, d)
    else if x = '\\' then
      match escape q d with
      | (true, e) => again c e fun _ => quoted q kind e
      | (false, e) => .ok (.fail .invalidEscape, e)
    else again c d fun _ => quoted q kind d
  | (none, d) => .ok (.fail .unexpectedEof, d)
termination_by c.pos.rest.length

/-! ## Comments -/

def lineComment (c : Cursor) : Except Fault (Step × Cursor) :=
  match c.next with
  | (some x, d) => if x = '\n' then .ok (.skip .start, d.ignore) else again c d fun _ => lineComment d
  | (none, d) => .ok (.skip .start, d.ignore)
termination_by c.pos.rest.length

/-- A character inside a block comment.  What has to be open to be closed is checked. -/
def turn (s : Lexeme.Nesting) (x : Char) : Except Fault Lexeme.Nesting :=
  if x = '#' then
    if s.half = .bar then if s.depth = 0 then .error .depth else .ok ⟨s.depth - 1, .neither⟩
    else .ok ⟨s.depth, .hash⟩
  else if x = '|' then if s.half = .hash then .ok ⟨s.depth + 1, .neither⟩ else .ok ⟨s.depth, .bar⟩
  else .ok ⟨s.depth, .neither⟩

/-- A block comment of which `n` characters have been read.  Two of them open a comment, so that `n` bounds how many
are open. -/
def nestedComment (s : Lexeme.Nesting) (n : Nat) (c : Cursor) : Except Fault (Step × Cursor) :=
  if s.depth = 0 then .ok (.skip .start, c.ignore)
  else
    match c.next with
    | (some x, d) =>
      match turn s x with
      | .ok s' => if s'.depth ≤ 1 + (n + 1) / 2 then again c d fun _ => nestedComment s' (n + 1) d else .error .depth
      | .error fault => .error fault
    | (none, d) => .ok (.fail .unexpectedEof, d)
termination_by c.pos.rest.length

/-! ## What a hash sign begins -/

def directive (c : Cursor) : Step × Cursor :=
  match c.next with
  | (some x, d) =>
    if isInitial x then
      let (_, e) := d.acceptWhile isSubsequent none
      (.emit .directive .delimiter, e)
    else (.fail .invalidDirective, d)
  | (none, d) => (.fail .invalidDirective, d)

def character (c : Cursor) : Step × Cursor :=
  match c.next with
  | (some x, d) =>
    match d.next with
    | (some y, e) =>
      if isDelimiter y then (.emit .character .start, e.backup)
      else if (x = 'x' ∨ x = 'X') ∧ isHexDigit y then
        let (_, f) := e.acceptWhile isHexDigit none
        (.emit .character .delimiter, f)
      else if isInitial x ∧ isSubsequent y then
        let (_, f) := e.acceptWhile isSubsequent none
        (.emit .character .delimiter, f)
      else (.fail .invalidCharacter, e)
    | (none, e) => (.emit .character .start, e.backup)
  | (none, d) => (.fail .unexpectedEof, d)

/-- A word behind a hash sign, its first character read. -/
def hashWord (source : List UInt8) (c : Cursor) : Except Fault (Step × Cursor) := do
  let (_, d) := c.acceptWhile isSubsequent none
  let text ← lit source d
  let word ← dropFirst text
  if Lexeme.booleans.any (Caseless.sameWord (Utf8.chars word)) then .ok (.emit .boolean .delimiter, d)
  else if Caseless.sameWord (Utf8.chars word) Lexeme.byteVector then
    let (x?, e) := d.next
    if x? = some '(' then .ok (.emit .openByteVector .start, e) else .ok (.fail .expectedOpenParen, e)
  else .ok (.fail .invalidHashWord, d)

/-- The letters of the markers before a number. -/
def markerLetters : List Char := ['x', 'X', 'd', 'D', 'b', 'B', 'o', 'O', 'i', 'I', 'e', 'E']

def hash (source : List UInt8) (c : Cursor) : Except Fault (Step × Cursor) :=
  match c.next with
  | (some x, d) =>
    if x = '|' then nestedComment .opened 0 d
    else if x = '!' then .ok (directive d)
    else if x = '\\' then .ok (character d)
    else if x = '(' then .ok (.emit .openVector .start, d)
    else if x = ';' then .ok (.emit .commentDatum .start, d)
    else if markerLetters.contains x then do
      let (e?, e) ← scanPrefixed ⟨none, false⟩ d.backup
      .ok (.ofError? .number .delimiter e?, e)
    else if isInitial x then hashWord source d
    else .ok (.fail .invalidAfterHash, d)
  | (none, d) => .ok (.fail .unexpectedEof, d)

/-! ## The first character -/

def comma (c : Cursor) : Step × Cursor :=
  let (at', d) := c.accept ['@']
  (.emit (if at' then .commaAt else .comma) .start, d)

/-- Reads one lexeme.  The tokens of one character stand last; no rule above them begins with theirs. -/
def scanToken (source : List UInt8) (c : Cursor) : Except Fault (Step × Cursor) :=
  match c.next with
  | (some x, d) =>
    if isInitial x then identifier source d
    else if isWhitespace x then .ok (.skip .start, d.ignore)
    else if isDigit x then number d.backup
    else if x = '|' then quoted '|' .identifier d
    else if x = '"' then quoted '"' .string d
    else if x = ',' then .ok (comma d)
    else if x = ';' then lineComment d
    else if x = '#' then hash source d
    else if x = '.' then dot source d
    else if isSign x then sign source x d
    else
      match Lexeme.punctuation? x with
      | some kind => .ok (.emit kind .start, d)
      | none => .ok (.fail .illegalCharacter, d)
  | (none, d) => .ok (.emit .endOfInput .exhausted, d)

end Checked
end SchemeLexer
