import SchemeLexer.Reading
import SchemeLexer.Token
/-!
# Lexeme — what stands at the head of the text ahead

A lexeme is what one rule of the grammar finds at the head of a text: something to skip, a token, an error, or the end
of the input.  It says how many characters it is long and nothing about where it stands.
-/
namespace SchemeLexer

inductive Lexeme
  /-- Whitespace or a comment. -/
  | skip (length : Nat)
  /-- A token.  Where `owing` is set the text after it has to begin with a delimiter. -/
  | token (kind : Kind) (length : Nat) (owing : Bool)
  /-- Text that breaks the grammar, up to where that shows. -/
  | invalid (error : ScanError) (length : Nat)
  /-- Nothing: the text is empty. -/
  | done
  deriving Repr, DecidableEq

namespace Lexeme

def length : Lexeme → Nat
  | skip n => n
  | token _ n _ => n
  | invalid _ n => n
  | done => 0

/-- A token that ends by itself. -/
def closed (kind : Kind) (n : Nat) : Lexeme := .token kind n false

/-- A token that ends only where a delimiter does not go on with it. -/
def word (kind : Kind) (n : Nat) : Lexeme := .token kind n true

/-- The lexeme of a rule that reads a token. -/
def ofReading (kind : Kind) (owing : Bool) (r : Reading) : Lexeme :=
  match r.error? with
  | none => .token kind r.taken owing
  | some e => .invalid e r.taken

/-- What holds of the token and of the error holds of the answer of a rule that reads a token. -/
theorem ofReading_induction {P : Lexeme → Prop} {kind : Kind} {owing : Bool} {r : Reading}
    (hok : r.error? = none → P (token kind r.taken owing))
    (hbad : ∀ e, r.error? = some e → P (invalid e r.taken)) : P (ofReading kind owing r) := by
  unfold ofReading
  split
  · rename_i h; exact hok h
  · rename_i e h; exact hbad e h

/-! ## Progress -/

/-- What is skipped and what is a token is not empty, so that reading on comes nearer to the end. -/
def Advances : Lexeme → Prop
  | skip n | token _ n _ => 0 < n
  | invalid .. | done => True

@[simp] theorem advances_skip (n : Nat) : (skip n).Advances ↔ 0 < n := Iff.rfl

@[simp] theorem advances_token (kind : Kind) (n : Nat) (owing : Bool) :
    (token kind n owing).Advances ↔ 0 < n := Iff.rfl

@[simp] theorem advances_invalid (e : ScanError) (n : Nat) : (invalid e n).Advances := trivial

@[simp] theorem advances_done : done.Advances := trivial

@[simp] theorem advances_closed (kind : Kind) (n : Nat) : (closed kind n).Advances ↔ 0 < n := Iff.rfl

@[simp] theorem advances_word (kind : Kind) (n : Nat) : (word kind n).Advances ↔ 0 < n := Iff.rfl

theorem advances_ite {p : Prop} [Decidable p] {a b : Lexeme} (ha : a.Advances) (hb : b.Advances) :
    (if p then a else b).Advances := iteInduction (fun _ => ha) fun _ => hb

theorem advances_ofReading {kind : Kind} {owing : Bool} {r : Reading} (h : r.error? = none → 0 < r.taken) :
    (ofReading kind owing r).Advances := ofReading_induction h fun _ _ => trivial

end Lexeme
end SchemeLexer
