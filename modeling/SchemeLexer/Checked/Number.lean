import SchemeLexer.Checked.Cursor
import SchemeLexer.Number.Complex
/-!
# Checked/Number — numbers read with a cursor

The rules for numbers as a descent over a cursor, a character at a time.  A rule answers what it has found and the
failure that has been noted; where one has been noted already it gives up.  There are two operations here that could
fault: going back to where a lone decimal point stands, and asking for the radix of a marker.
-/
namespace SchemeLexer
namespace Checked

open Number (isExponentMark isImaginaryUnit)

/-- What a rule for a part of a number answers: whether there is a real number, whether there is the bare imaginary
unit, and the failure noted. -/
structure Found where
  real     : Bool
  unit     : Bool
  failure? : Option ScanError
  deriving Repr, DecidableEq

/-- Notes a failure, unless there is one. -/
def note (e : ScanError) (failure? : Option ScanError) : Option ScanError := failure?.or (some e)

def uinteger (r : Radix) (c : Cursor) : Bool × Cursor :=
  let (n, d) := c.acceptWhile r.isDigit none
  (decide (0 < n), d)

/-- A decimal point, and whether digits follow it. -/
def fraction (r : Radix) (c : Cursor) : Bool × Cursor :=
  let (point, d) := c.accept ['.']
  if point then uinteger r d else (false, d)

/-- What follows the mantissa of a decimal. -/
def exponent (failure? : Option ScanError) (c : Cursor) : Found × Cursor :=
  let (mark, d) := c.accept ['e', 'E']
  if mark then
    let (_, d) := d.accept ['+', '-']
    let (n, d) := d.acceptWhile isDigit none
    if n = 0 then (⟨false, false, note .invalidExponent failure?⟩, d) else (⟨true, false, failure?⟩, d)
  else (⟨true, false, failure?⟩, d)

/-- What follows the digits of a decimal, if there are any.  A lone decimal point is left for another rule. -/
def decimal (r : Radix) (digits : Bool) (failure? : Option ScanError) (c : Cursor) : Except Fault (Found × Cursor) :=
  if failure?.isSome ∨ r ≠ .decimal then .ok (⟨false, false, failure?⟩, c)
  else
    let (digitsBehind, d) := fraction r c
    if digits || digitsBehind then .ok (exponent failure? d)
    else do
      let d ← reset c.pos d
      .ok (⟨false, false, failure?⟩, d)

def ureal (r : Radix) (failure? : Option ScanError) (c : Cursor) : Except Fault (Found × Cursor) :=
  if failure?.isSome then .ok (⟨false, false, failure?⟩, c)
  else
    let (numerator, d) := uinteger r c
    match d.next with
    | (some x, e) =>
      if x = '/' ∧ numerator then
        let (denominator, e) := uinteger r e
        if denominator then .ok (⟨true, false, failure?⟩, e)
        else .ok (⟨false, false, note .invalidFraction failure?⟩, e)
      else if x = '.' ∨ isExponentMark x then decimal r numerator failure? e.backup
      else .ok (⟨numerator, false, failure?⟩, e.backup)
    | (none, e) => .ok (⟨numerator, false, failure?⟩, e.backup)

/-- One of the words `inf.0` and `nan.0`, or the imaginary unit that the one begins with. -/
def uinfnanOrUnit (failure? : Option ScanError) (c : Cursor) : Found × Cursor :=
  if failure?.isSome then (⟨false, false, failure?⟩, c)
  else
    let (n, d) := c.acceptWord Number.infinity
    if n = 0 then
      let (m, d) := d.acceptWord Number.notANumber
      (⟨decide (m = 5), false, failure?⟩, d)
    else (⟨decide (n = 5), decide (n = 1), failure?⟩, d)

/-- What may stand behind a sign. -/
def signed (r : Radix) (failure? : Option ScanError) (c : Cursor) : Except Fault (Found × Cursor) := do
  let (found, d) ← ureal r failure? c
  if found.real then .ok (found, d) else .ok (uinfnanOrUnit found.failure? d)

def realOrUnit (r : Radix) (failure? : Option ScanError) (c : Cursor) : Except Fault (Found × Cursor) :=
  let (sign, d) := c.accept ['+', '-']
  if sign then signed r failure? d else ureal r failure? d

def imaginaryUnit (c : Cursor) : Option ScanError × Cursor :=
  let (x?, d) := c.next
  (if x?.any isImaginaryUnit then none else some .expectedImaginaryUnit, d)

/-- The error of a number: the failure noted, or that none has been found. -/
def conclude (failure? : Option ScanError) (found : Bool) : Option ScanError :=
  failure?.or (if found then none else some .invalidNumber)

/-- What may follow a real number. -/
def afterReal (r : Radix) (failure? : Option ScanError) (c : Cursor) : Except Fault (Option ScanError × Cursor) :=
  match c.next with
  | (some x, d) =>
    if isSign x then do
      let (imaginary, e) ← signed r failure? d
      if imaginary.real then .ok (imaginaryUnit e)
      else .ok (conclude imaginary.failure? imaginary.unit, e)
    else if x = '@' then do
      let (angle, e) ← realOrUnit r failure? d
      .ok (conclude angle.failure? angle.real, e)
    else if isImaginaryUnit x then .ok (conclude failure? true, d)
    else .ok (conclude failure? true, d.backup)
  | (none, d) => .ok (conclude failure? true, d.backup)

def scanComplex (r : Radix) (c : Cursor) : Except Fault (Option ScanError × Cursor) := do
  let (found, d) ← realOrUnit r none c
  if found.real then afterReal r found.failure? d else .ok (conclude found.failure? found.unit, d)

/-- The small letters that designate a radix. -/
def isDesignator (l : Char) : Bool := l = 'b' || l = 'o' || l = 'd' || l = 'x'

/-- The radix of a letter, which has to designate one. -/
def radixOf (l : Char) : Except Fault Radix :=
  if isDesignator l then
    match Radix.ofDesignator l with
    | .ok r => .ok r
    | .error unknown => .error (.designator unknown.designator)
  else .error (.designator l)

/-- The markers of a number read so far: the letter that designates the radix, and whether there was one for the
exactness. -/
structure Markers where
  designator? : Option Char
  exact       : Bool
  deriving Repr, DecidableEq

def Markers.add? (m : Markers) (x : Char) : Option Markers :=
  let l := Caseless.fold x
  if isDesignator l ∧ m.designator?.isNone then some { m with designator? := some l }
  else if (l = 'e' ∨ l = 'i') ∧ !m.exact then some { m with exact := true }
  else none

/-- Further markers behind a hash sign, and the number. -/
def scanPrefixed (m : Markers) (c : Cursor) : Except Fault (Option ScanError × Cursor) :=
  match c.next with
  | (some x, d) =>
    match m.add? x with
    | some m' =>
      let (more, e) := d.accept ['#']
      if more then again c e fun _ => scanPrefixed m' e
      else do
        let r ← radixOf (m'.designator?.getD 'd')
        scanComplex r e
    | none => .ok (some .invalidPrefix, d)
  | (none, d) => .ok (some .invalidPrefix, d)
termination_by c.pos.rest.length

end Checked
end SchemeLexer
