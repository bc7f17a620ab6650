/-!
# Utf8 — bytes read as characters

A source is a list of bytes and need not be well-formed UTF-8.  It reads as a list of *glyphs*: each well-formed
sequence is its own character, and each maximal ill-formed one is a single replacement character.  A sequence is
ill-formed from the first byte that no well-formed sequence could have there, so what was read before that byte is
one glyph, and reading starts afresh at it.

`decode_cons` is the reading, one glyph at a time.
-/
namespace SchemeLexer
namespace Utf8

/-- U+FFFD, what ill-formed bytes read as. -/
def replacement : Char := Char.ofNat 0xFFFD

/-- What a lead byte announces: the bits of the code point that it carries itself, and for each byte that has to
follow the lowest and the highest value it may have.  The first range is the narrow one where the whole range would
let in an overlong form, a surrogate or a number past U+10FFFF. -/
structure Lead where
  bits  : Nat
  trail : List (UInt8 × UInt8)
  deriving Repr, DecidableEq

/-- The range of a trail byte that nothing narrows. -/
def anyTrail : UInt8 × UInt8 := (0x80, 0xBF)

/-- What a byte announces at the start of a sequence, `none` where no sequence starts with it. -/
def Lead.ofByte? (b : UInt8) : Option Lead :=
  if b < 0x80 then some ⟨b.toNat, []⟩
  else if b < 0xC2 then none
  else if b < 0xE0 then some ⟨b.toNat - 0xC0, [anyTrail]⟩
  else if b = 0xE0 then some ⟨0x0, [(0xA0, 0xBF), anyTrail]⟩
  else if b = 0xED then some ⟨0xD, [(0x80, 0x9F), anyTrail]⟩
  else if b < 0xF0 then some ⟨b.toNat - 0xE0, [anyTrail, anyTrail]⟩
  else if b = 0xF0 then some ⟨0x0, [(0x90, 0xBF), anyTrail, anyTrail]⟩
  else if b < 0xF4 then some ⟨b.toNat - 0xF0, [anyTrail, anyTrail, anyTrail]⟩
  else if b = 0xF4 then some ⟨0x4, [(0x80, 0x8F), anyTrail, anyTrail]⟩
  else none

/-- The trail bytes at the head of `bs`, as many as lie in their ranges: how many they are, and, when every range has
its byte, the code point they complete. -/
def readTrail : Nat → List (UInt8 × UInt8) → List UInt8 → Nat × Option Nat
  | code, [], _ => (0, some code)
  | _, _ :: _, [] => (0, none)
  | code, (lo, hi) :: ranges, b :: bs =>
    if lo ≤ b ∧ b ≤ hi then
      let (n, code?) := readTrail (code * 64 + (b.toNat - 0x80)) ranges bs
      (n + 1, code?)
    else (0, none)

/-- One character as read: the character, how many bytes it took after its first, and whether they were a well-formed
sequence. -/
structure Glyph where
  char       : Char
  trail      : Nat
  wellFormed : Bool
  deriving Repr, DecidableEq

/-- How many bytes the glyph took.  There is always the first. -/
def Glyph.width (g : Glyph) : Nat := g.trail + 1

/-- The glyph at the head of `b :: bs`. -/
def Glyph.read (b : UInt8) (bs : List UInt8) : Glyph :=
  match Lead.ofByte? b with
  | none => ⟨replacement, 0, false⟩
  | some lead =>
    match readTrail lead.bits lead.trail bs with
    | (n, some code) => ⟨Char.ofNat code, n, true⟩
    | (n, none) => ⟨replacement, n, false⟩

/-- Reads glyphs after passing over `skip` bytes, those that belong to a glyph read already. -/
def decodeFrom : Nat → List UInt8 → List Glyph
  | _, [] => []
  | skip + 1, _ :: bs => decodeFrom skip bs
  | 0, b :: bs => Glyph.read b bs :: decodeFrom (Glyph.read b bs).trail bs

/-- The glyphs of `bs`, from left to right. -/
def decode (bs : List UInt8) : List Glyph := decodeFrom 0 bs

/-- The characters of `bs`, one replacement character for each maximal ill-formed sequence. -/
def chars (bs : List UInt8) : List Char := (decode bs).map Glyph.char

/-- Whether `bs` holds well-formed sequences only. -/
def isValid (bs : List UInt8) : Bool := (decode bs).all Glyph.wellFormed

/-- The text `bs` reads as. -/
def lossy (bs : List UInt8) : String := String.ofList (chars bs)

/-- The bytes of a text. -/
def encode (s : String) : List UInt8 := s.toList.flatMap String.utf8EncodeChar

/-! ## One glyph at a time -/

theorem decodeFrom_eq_drop (skip : Nat) (bs : List UInt8) : decodeFrom skip bs = decode (bs.drop skip) := by
  induction bs generalizing skip with
  | nil => simp [decodeFrom, decode]
  | cons b bs ih => cases skip with
    | zero => rfl
    | succ skip => simpa [decodeFrom] using ih skip

@[simp] theorem decode_nil : decode [] = [] := rfl

/-- **A text is its first glyph, then what the bytes after it read as.** -/
theorem decode_cons (b : UInt8) (bs : List UInt8) :
    decode (b :: bs) = Glyph.read b bs :: decode (bs.drop (Glyph.read b bs).trail) := by
  rw [← decodeFrom_eq_drop]; rfl

@[simp] theorem chars_nil : chars [] = [] := rfl

theorem chars_cons (b : UInt8) (bs : List UInt8) :
    chars (b :: bs) = (Glyph.read b bs).char :: chars (bs.drop (Glyph.read b bs).trail) := by
  simp [chars, decode_cons]

theorem readTrail_le (code : Nat) (ranges : List (UInt8 × UInt8)) (bs : List UInt8) :
    (readTrail code ranges bs).1 ≤ bs.length := by
  induction bs generalizing code ranges with
  | nil => cases ranges <;> simp [readTrail]
  | cons b bs ih => cases ranges with
    | nil => simp [readTrail]
    | cons r ranges =>
      simp only [readTrail]
      split
      · simpa using ih _ ranges
      · simp

/-- A glyph takes no byte that is not there. -/
theorem Glyph.read_trail_le (b : UInt8) (bs : List UInt8) : (Glyph.read b bs).trail ≤ bs.length := by
  unfold Glyph.read
  split
  · simp
  · rename_i lead _
    have := readTrail_le lead.bits lead.trail bs
    split <;> (rename_i h; rw [h] at this; exact this)

end Utf8
end SchemeLexer
