import SchemeLexer.Number.Radix
import SchemeLexer.Reading
import SchemeLexer.Text.Run
/-!
# Real — the real parts of a number

A real number is a magnitude with or without a sign, or a sign and one of the words `inf.0` and `nan.0`.  A magnitude
is a run of digits of the radix, two such runs with a slash between them, or, in radix ten, digits with a decimal point
or an exponent.

Where a real number is expected, a text begins with one (`Shape.real`), or with a bare imaginary unit behind its sign
(`Shape.unit`), or with neither (`Shape.absent`), or goes wrong inside one (`Shape.fault`).  In each case the answer
counts the characters taken: the rest of the number goes on after them, and an error is reported there.
-/
namespace SchemeLexer
namespace Number

/-- What a text begins with where a real number is expected. -/
inductive Shape
  | real
  | unit
  | absent
  | fault (e : ScanError)
  deriving Repr, DecidableEq

/-- A shape and the characters taken for it. -/
structure Part where
  shape : Shape
  taken : Nat
  deriving Repr, DecidableEq

namespace Part

/-- The part that stands behind `n` characters read before. -/
def shift (n : Nat) (p : Part) : Part := { p with taken := n + p.taken }

@[simp] theorem shape_shift (n : Nat) (p : Part) : (p.shift n).shape = p.shape := rfl

@[simp] theorem taken_shift (n : Nat) (p : Part) : (p.shift n).taken = n + p.taken := rfl

end Part

def isExponentMark (c : Char) : Bool := c = 'e' || c = 'E'

/-- The characters of a sign at the head of the text, if there is one. -/
def signLength (cs : List Char) : Nat := if cs.head?.any isSign then 1 else 0

/-- The characters of a decimal point and the digits after it, if there is one. -/
def fractionLength : List Char → Nat
  | [] => 0
  | c :: cs => if c = '.' then 1 + Text.run isDigit cs else 0

/-- What follows a mantissa of `n` characters: an exponent, or nothing that belongs to the magnitude.  An exponent mark
has to have digits. -/
def exponent (n : Nat) : List Char → Part
  | [] => ⟨.real, n⟩
  | c :: cs =>
    if isExponentMark c then
      let s := signLength cs
      let k := Text.run isDigit (cs.drop s)
      if k = 0 then ⟨.fault .invalidExponent, n + 1 + s⟩ else ⟨.real, n + 1 + s + k⟩
    else ⟨.real, n⟩

/-- What follows `n` digits before a decimal point or an exponent mark.  A point needs digits on one of its sides, an
exponent mark needs them before it; where they are missing nothing is taken. -/
def decimal (n : Nat) (cs : List Char) : Part :=
  let f := fractionLength cs
  if n = 0 ∧ f ≤ 1 then ⟨.absent, 0⟩ else exponent (n + f) (cs.drop f)

/-- The magnitude at the head of a text.  Outside radix ten digits that a decimal point or an exponent mark follows are
taken, and are no magnitude. -/
def magnitude (r : Radix) (cs : List Char) : Part :=
  let n := Text.run r.isDigit cs
  match cs.drop n with
  | [] => if n = 0 then ⟨.absent, 0⟩ else ⟨.real, n⟩
  | c :: rest =>
    if c = '/' ∧ n ≠ 0 then
      let d := Text.run r.isDigit rest
      if d = 0 then ⟨.fault .invalidFraction, n + 1⟩ else ⟨.real, n + 1 + d⟩
    else if c = '.' ∨ isExponentMark c then
      if r = .decimal then decimal n (c :: rest) else ⟨.absent, n⟩
    else if n = 0 then ⟨.absent, 0⟩ else ⟨.real, n⟩

def infinity : List Char := ['i', 'n', 'f', '.', '0']

def notANumber : List Char := ['n', 'a', 'n', '.', '0']

/-- One of the words at the head of a text.  The first letter of the one is the imaginary unit, if no more of the word
follows it; any other piece of a word is taken in vain. -/
def special (cs : List Char) : Part :=
  let k := Caseless.matched infinity cs
  let m := Caseless.matched notANumber cs
  if k = 5 then ⟨.real, 5⟩
  else if k = 1 then ⟨.unit, 1⟩
  else if k = 0 then ⟨if m = 5 then .real else .absent, m⟩
  else ⟨.absent, k⟩

def signed (r : Radix) (cs : List Char) : Part :=
  let p := magnitude r cs
  if p.shape = .absent then (special (cs.drop p.taken)).shift p.taken else p

def real (r : Radix) : List Char → Part
  | [] => ⟨.absent, 0⟩
  | c :: cs => if isSign c then (signed r cs).shift 1 else magnitude r (c :: cs)

end Number
end SchemeLexer
