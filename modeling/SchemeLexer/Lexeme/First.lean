import SchemeLexer.Lexeme.Enclosed
import SchemeLexer.Lexeme.Hash
import SchemeLexer.Lexeme.Word
/-!
# First — the lexeme at the head of a text

The first character settles which rule applies.  `advances_first` says that nothing skipped and no token is empty, so
that reading lexeme after lexeme comes to an end.
-/
namespace SchemeLexer
namespace Lexeme

/-- The tokens of one character that nothing behind it can lengthen. -/
def punctuation? (c : Char) : Option Kind :=
  if c = '(' then some .openParen
  else if c = ')' then some .closeParen
  else if c = '\x27' then some .quote
  else if c = '\x60' then some .backquote
  else none

/-- A character that begins nothing longer. -/
def punctuation (c : Char) : Lexeme :=
  match punctuation? c with
  | some kind => closed kind 1
  | none => .invalid .illegalCharacter 1

/-- The text behind a comma. -/
def comma (cs : List Char) : Lexeme := if cs.head? = some '@' then closed .commaAt 2 else closed .comma 1

/-- The lexeme at the head of a text. -/
def first : List Char → Lexeme
  | [] => .done
  | c :: cs =>
    if isInitial c then identifier 1 cs
    else if isWhitespace c then .skip 1
    else if isDigit c then number (c :: cs)
    else if c = '|' then ofReading .identifier false ((enclosed '|' cs).shift 1)
    else if c = '"' then ofReading .string false ((enclosed '"' cs).shift 1)
    else if c = ',' then comma cs
    else if c = ';' then .skip (lineComment cs + 1)
    else if c = '#' then hash cs
    else if c = '.' then dot cs
    else if isSign c then signed c cs
    else punctuation c

@[simp] theorem first_nil : first [] = .done := rfl

/-! ## Progress, rule by rule -/

theorem advances_number (cs : List Char) : (number cs).Advances := advances_ofReading Number.complex_pos

theorem advances_identifier (n : Nat) (cs : List Char) : (identifier (n + 1) cs).Advances := by
  simp only [identifier, advances_word]; omega

theorem advances_shift {kind : Kind} {owing : Bool} (n : Nat) (r : Reading) :
    (ofReading kind owing (r.shift (n + 1))).Advances :=
  advances_ofReading fun _ => by rw [Reading.taken_shift]; omega

theorem advances_dot : ∀ cs : List Char, (dot cs).Advances
  | [] => Nat.one_pos
  | _ :: cs =>
    advances_ite Nat.one_pos <|
    advances_ite (advances_identifier 1 cs) <|
    advances_ite (advances_number _) trivial

theorem advances_signDot (sign : Char) : ∀ cs : List Char, (signDot sign cs).Advances
  | [] => trivial
  | _ :: cs =>
    advances_ite (advances_number _) <|
    advances_ite (advances_identifier 2 cs) trivial

theorem advances_signed (sign : Char) : ∀ cs : List Char, (signed sign cs).Advances
  | [] => Nat.one_pos
  | _ :: cs =>
    advances_ite Nat.one_pos <|
    advances_ite (advances_signDot sign cs) <|
    advances_ite (advances_number _) <|
    advances_ite (Nat.succ_pos _) trivial

theorem advances_blockComment (cs : List Char) : (blockComment cs).Advances := by
  unfold blockComment
  split
  · exact Nat.succ_pos _
  · trivial

theorem advances_directive : ∀ cs : List Char, (directive cs).Advances
  | [] => trivial
  | _ :: _ => advances_ite (Nat.lt_of_lt_of_le (Nat.succ_pos 2) (Nat.le_add_right ..)) trivial

theorem advances_character : ∀ cs : List Char, (character cs).Advances
  | [] => trivial
  | [_] => Nat.succ_pos _
  | _ :: _ :: _ =>
    advances_ite (Nat.succ_pos _) <|
    advances_ite (Nat.lt_of_lt_of_le (Nat.succ_pos 3) (Nat.le_add_right ..)) <|
    advances_ite (Nat.lt_of_lt_of_le (Nat.succ_pos 3) (Nat.le_add_right ..)) trivial

theorem advances_hashWord (cs : List Char) : (hashWord cs).Advances :=
  advances_ite (Nat.succ_pos _) <|
  advances_ite (advances_ite (Nat.succ_pos _) trivial) trivial

theorem advances_hash : ∀ cs : List Char, (hash cs).Advances
  | [] => trivial
  | c :: cs =>
    advances_ite (advances_blockComment cs) <|
    advances_ite (advances_directive cs) <|
    advances_ite (advances_character cs) <|
    advances_ite (Nat.succ_pos _) <|
    advances_ite (Nat.succ_pos _) <|
    advances_ite (advances_shift 0 _) <|
    advances_ite (advances_hashWord (c :: cs)) trivial

theorem advances_comma (cs : List Char) : (comma cs).Advances := advances_ite (Nat.succ_pos _) (Nat.succ_pos _)

theorem advances_punctuation (c : Char) : (punctuation c).Advances := by
  unfold punctuation
  split
  · exact Nat.one_pos
  · trivial

/-- **Nothing skipped and no token is empty.** -/
theorem advances_first : ∀ cs : List Char, (first cs).Advances
  | [] => trivial
  | c :: cs =>
    advances_ite (advances_identifier 0 cs) <|
    advances_ite Nat.one_pos <|
    advances_ite (advances_number _) <|
    advances_ite (advances_shift 0 _) <|
    advances_ite (advances_shift 0 _) <|
    advances_ite (advances_comma cs) <|
    advances_ite (Nat.succ_pos _) <|
    advances_ite (advances_hash cs) <|
    advances_ite (advances_dot cs) <|
    advances_ite (advances_signed c cs) (advances_punctuation c)

end Lexeme
end SchemeLexer
