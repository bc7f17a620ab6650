import SchemeLexer.Proofs.Encodings
import SchemeLexer.Proofs.Quoting
import SchemeLexer.Token
/-!
# Display — a token is known by its written form

The written form of a token is read back field by field (`read?_display`): a number ends where no digit follows, a kind
at the blank behind its name, the text at its closing quote.  So it tells the kind, the place and the characters of the
token, and of a well-formed text the characters are all there is (`display_injective`).
-/
namespace SchemeLexer

open Quoted (behind? behind?_cons decode?)

namespace Kind

theorem ofName?_name (k : Kind) : ofName? k.name = some k := by cases k <;> decide

theorem all_ne_blank_name (k : Kind) : k.name.toList.all (· ≠ ' ') = true := by cases k <;> decide

end Kind

/-- What the written form of a token tells. -/
structure Shown where
  kind     : Kind
  position : Position
  stop     : Nat
  chars    : List Char
  deriving Repr, DecidableEq

namespace Shown

/-- The decimal number at the head of a text, and what is behind it. -/
def number (cs : List Char) : Nat × List Char := (Nat.ofDigitChars 10 (cs.takeWhile isDigit) 0, cs.dropWhile isDigit)

/-- The kind whose name a text begins with, up to a blank, and what is behind it. -/
def kind? (cs : List Char) : Option (Kind × List Char) :=
  (Kind.ofName? (String.ofList (cs.takeWhile (· ≠ ' ')))).map fun k => (k, cs.dropWhile (· ≠ ' '))

/-- Reads the written form of a token. -/
def read? (s : String) : Option Shown := do
  let cs ← behind? '[' s.toList
  let (start, cs) := number cs
  let cs ← behind? '.' cs
  let cs ← behind? '.' cs
  let (stop, cs) := number cs
  let cs ← behind? ']' cs
  let cs ← behind? ' ' cs
  let (line, cs) := number cs
  let cs ← behind? ':' cs
  let (column, cs) := number cs
  let cs ← behind? ' ' cs
  let (kind, cs) ← kind? cs
  let cs ← behind? ' ' cs
  let cs ← behind? '"' cs
  let (chars, _) ← decode? '"' cs
  some ⟨kind, ⟨start, line, column⟩, stop, chars⟩

theorem number_toDigits (n : Nat) {mark : Char} (hmark : isDigit mark = false) (cs : List Char) :
    number (Nat.toDigits 10 n ++ mark :: cs) = (n, mark :: cs) := by
  have hdigits : ∀ c ∈ Nat.toDigits 10 n, isDigit c = true :=
    fun _ hc => Nat.isDigit_of_mem_toDigits (by decide) (by decide) hc
  rw [number, List.takeWhile_append_of_pos hdigits, List.dropWhile_append_of_pos hdigits,
    List.takeWhile_cons_of_neg (by simp [hmark]), List.dropWhile_cons_of_neg (by simp [hmark]), List.append_nil,
    Nat.ofDigitChars_ten_toDigits]

theorem kind?_name (k : Kind) (cs : List Char) : kind? (k.name.toList ++ ' ' :: cs) = some (k, ' ' :: cs) := by
  have hname := List.all_eq_true.1 k.all_ne_blank_name
  rw [kind?, List.takeWhile_append_of_pos hname, List.dropWhile_append_of_pos hname]
  simp [Kind.ofName?_name]

end Shown

namespace Token

theorem toList_display (t : Token) : t.display.toList =
    '[' :: (Nat.toDigits 10 t.position.offset ++ '.' :: '.' :: (Nat.toDigits 10 t.stop ++ ']' :: ' ' ::
      (Nat.toDigits 10 t.position.line ++ ':' :: (Nat.toDigits 10 t.position.column ++ ' ' ::
        (t.kind.name.toList ++ ' ' :: '"' :: ((Utf8.chars t.text).flatMap (Quoted.escape '"') ++ ['"'])))))) := by
  simp [display, Position.text, Quoted.string, Quoted.encode, toString, Nat.repr_eq_ofList_toDigits]

/-- **The written form of a token is read back.** -/
theorem read?_display (t : Token) :
    Shown.read? t.display = some ⟨t.kind, t.position, t.stop, Utf8.chars t.text⟩ := by
  have hchars := Quoted.decode?_flatMap (q := '"') (by decide) (Quoted.writes_escape (by decide)) (Utf8.chars t.text) []
  have hdot : isDigit '.' = false := by decide
  have hbracket : isDigit ']' = false := by decide
  have hcolon : isDigit ':' = false := by decide
  have hblank : isDigit ' ' = false := by decide
  simp only [Shown.read?, toList_display, behind?_cons, bind, Option.bind_some, Shown.kind?_name, hchars,
    Shown.number_toDigits _ hdot, Shown.number_toDigits _ hbracket, Shown.number_toDigits _ hcolon,
    Shown.number_toDigits _ hblank]

/-- **Tokens of well-formed texts that are written alike are the same token.** -/
theorem display_injective {t u : Token} (ht : Utf8.WellFormed t.text) (hu : Utf8.WellFormed u.text)
    (h : t.display = u.display) : t = u := by
  have hshown := congrArg Shown.read? h
  rw [read?_display, read?_display, Option.some.injEq, Shown.mk.injEq] at hshown
  obtain ⟨hkind, hposition, -, hchars⟩ := hshown
  have htext : t.text = u.text := by
    rw [← Utf8.flatMap_encodeChar_of_isValid (Utf8.isValid_iff.2 ht), hchars,
      Utf8.flatMap_encodeChar_of_isValid (Utf8.isValid_iff.2 hu)]
  obtain ⟨kind, text, position⟩ := t
  obtain ⟨kind', text', position'⟩ := u
  rw [mk.injEq]
  exact ⟨hkind, htext, hposition⟩

/-- A string in bytes and in characters: a backslash and a letter, a tab, and an accent, which is written by its number. -/
theorem display_injective_string :
    let t : Token := ⟨.string, [0x22, 0x5C, 0x74, 0x09, 0xCE, 0xBB, 0xCC, 0x81, 0x22], ⟨4, 2, 3⟩⟩
    let u : Token := ⟨.string, Utf8.encode "\"\\t\tλ\u0301\"", ⟨4, 2, 3⟩⟩
    Utf8.WellFormed t.text ∧ Utf8.WellFormed u.text ∧ t.display = u.display ∧
      t.display = "[4..13] 2:3 String \"\\\"\\\\t\\tλ\\u\x7b301\x7d\\\"\"" ∧ t = u := by
  intro t u
  have ht : Utf8.WellFormed t.text := Utf8.isValid_iff.1 (by decide)
  have hu : Utf8.WellFormed u.text := ⟨_, rfl⟩
  have hdisplay : t.display = "[4..13] 2:3 String \"\\\"\\\\t\\tλ\\u\x7b301\x7d\\\"\"" := by decide +kernel
  have hsame : u.display = "[4..13] 2:3 String \"\\\"\\\\t\\tλ\\u\x7b301\x7d\\\"\"" := by decide +kernel
  have halike := hdisplay.trans hsame.symm
  exact ⟨ht, hu, halike, hdisplay, display_injective ht hu halike⟩

end Token
end SchemeLexer
