import SchemeLexer.CharClass
import SchemeLexer.Text.Quoted
/-!
# Quoting — a text between quotes is read back

`decode?` reads what stands before a closing quote, and leaves what stands behind it.  It does not ask which characters
are unprintable: a number between braces stands for its character whatever character that is, and any other character
for itself.  So a text is read back (`decode?_flatMap`) from any writer that writes each of its characters in one of the
ways `Writes` tells, and `escape` is such a writer for any quote that is not one of its letters.
-/
namespace SchemeLexer
namespace Quoted

/-! ## Code points -/

/-- What a hexadecimal digit counts, its letters being small. -/
def digitValue (c : Char) : Nat := if isDigit c then c.toNat - 48 else c.toNat - 87

/-- The number that hexadecimal digits stand for. -/
def number (ds : List Char) : Nat := ds.foldl (fun n c => n * 16 + digitValue c) 0

theorem digitChar_hex : ∀ d : Fin 16, isHexDigit (Nat.digitChar d) = true ∧ digitValue (Nat.digitChar d) = d := by decide

/-- **A number in hexadecimal digits** is read back. -/
theorem number_toDigits (n : Nat) : number (Nat.toDigits 16 n) = n := by
  induction n using Nat.strongRecOn with
  | ind n ih =>
    rw [Nat.toDigits_eq_if (by decide)]
    split
    · rename_i hn
      exact (Nat.zero_add _).trans (digitChar_hex ⟨n, hn⟩).2
    · rename_i hn
      have hlast := (digitChar_hex ⟨n % 16, Nat.mod_lt n (by decide)⟩).2
      have hfirst := ih (n / 16) (by omega)
      rw [number] at hfirst
      rw [number, List.foldl_append, hfirst, List.foldl_cons, List.foldl_nil, hlast]
      exact Nat.div_add_mod' n 16

theorem isHexDigit_of_mem_toDigits {n : Nat} {c : Char} (h : c ∈ Nat.toDigits 16 n) : isHexDigit c = true := by
  induction n using Nat.strongRecOn with
  | ind n ih =>
    rw [Nat.toDigits_eq_if (by decide)] at h
    split at h
    · rename_i hn
      rw [List.mem_singleton.1 h]
      exact (digitChar_hex ⟨n, hn⟩).1
    · rename_i hn
      rcases List.mem_append.1 h with h | h
      · exact ih (n / 16) (by omega) h
      · rw [List.mem_singleton.1 h]
        exact (digitChar_hex ⟨n % 16, Nat.mod_lt n (by decide)⟩).1

/-! ## Characters -/

/-- What is behind a mark that a text begins with. -/
def behind? (mark : Char) : List Char → Option (List Char)
  | [] => none
  | c :: cs => if c = mark then some cs else none

@[simp] theorem behind?_cons (mark : Char) (cs : List Char) : behind? mark (mark :: cs) = some cs := if_pos rfl

/-- The character that is written as a letter after a backslash. -/
def ofLetter? (q l : Char) : Option Char :=
  if l = '0' then some '\x00'
  else if l = 't' then some '\t'
  else if l = 'r' then some '\r'
  else if l = 'n' then some '\n'
  else if l = '\\' ∨ l = q then some l
  else none

/-- The character whose number stands between braces, and what is behind them. -/
def ofBraces? (cs : List Char) : Option (Char × List Char) := do
  let ds ← behind? '\x7b' cs
  let rest ← behind? '\x7d' (ds.dropWhile isHexDigit)
  some (Char.ofNat (number (ds.takeWhile isHexDigit)), rest)

/-- The character written at the head of a text between quotes `q`, and what is behind it.  The quote is none. -/
def unescape? (q : Char) : List Char → Option (Char × List Char)
  | [] => none
  | '\\' :: 'u' :: cs => ofBraces? cs
  | '\\' :: l :: cs => (ofLetter? q l).map fun c => (c, cs)
  | c :: cs => if c = '\\' ∨ c = q then none else some (c, cs)

theorem ofBraces?_codePoint (c : Char) (rest : List Char) :
    ofBraces? ('\x7b' :: (codePoint c ++ '\x7d' :: rest)) = some (c, rest) := by
  have hdigits : ∀ x ∈ codePoint c, isHexDigit x = true := fun _ hx => isHexDigit_of_mem_toDigits hx
  have hbehind : (codePoint c ++ '\x7d' :: rest).dropWhile isHexDigit = '\x7d' :: rest := by
    rw [List.dropWhile_append_of_pos hdigits]
    rfl
  have hhead : (codePoint c ++ '\x7d' :: rest).takeWhile isHexDigit = codePoint c := by
    rw [List.takeWhile_append_of_pos hdigits]
    exact List.append_nil _
  have hnumber : Char.ofNat (number (codePoint c)) = c := by rw [codePoint, number_toDigits, Char.ofNat_toNat]
  simp [ofBraces?, hbehind, hhead, hnumber]

/-- How a character may be written: as a letter after a backslash, by its number, or as itself. -/
inductive Writes (q : Char) : Char → List Char → Prop
  | letter {c l : Char} : l ≠ 'u' → ofLetter? q l = some c → Writes q c ['\\', l]
  | number (c : Char) : Writes q c ('\\' :: 'u' :: '\x7b' :: (codePoint c ++ ['\x7d']))
  | plain {c : Char} : c ≠ '\\' → c ≠ q → Writes q c [c]

theorem writes_escape {q : Char} (hq : q ∉ ['0', 't', 'r', 'n', 'u']) (c : Char) : Writes q c (escape q c) := by
  have hself : c = '\\' ∨ c = q → c ≠ 'u' ∧ ofLetter? q c = some c := by grind [ofLetter?]
  unfold escape
  split
  · rename_i hc
    exact .letter (by decide) (hc ▸ rfl)
  split
  · rename_i hc
    exact .letter (by decide) (hc ▸ rfl)
  split
  · rename_i hc
    exact .letter (by decide) (hc ▸ rfl)
  split
  · rename_i hc
    exact .letter (by decide) (hc ▸ rfl)
  split
  · rename_i hc
    exact .letter (hself hc).1 (hself hc).2
  · rename_i hc
    split
    · exact .number c
    · exact .plain (fun h => hc (Or.inl h)) (fun h => hc (Or.inr h))

/-- **A character is read back** as it was written, whatever stands behind it. -/
theorem Writes.unescape? {q c : Char} {w : List Char} (h : Writes q c w) (rest : List Char) :
    unescape? q (w ++ rest) = some (c, rest) := by
  cases h with
  | letter _ hc => simp [Quoted.unescape?, hc]
  | number => simp [Quoted.unescape?, ofBraces?_codePoint]
  | plain hc hq => simp [Quoted.unescape?, hc, hq]

theorem unescape?_quote {q : Char} (hq : q ≠ '\\') (rest : List Char) : unescape? q (q :: rest) = none := by
  simp [unescape?, hq]

/-! ## Texts -/

theorem length_behind? {mark : Char} {cs rest : List Char} (h : behind? mark cs = some rest) : rest.length < cs.length := by
  cases cs with
  | nil => cases h
  | cons c cs =>
    obtain ⟨-, h⟩ := Option.ite_none_right_eq_some.1 h
    cases h
    exact Nat.lt_succ_self _

theorem length_ofBraces? {c : Char} {cs rest : List Char} (h : ofBraces? cs = some (c, rest)) : rest.length < cs.length := by
  obtain ⟨ds, hds, h⟩ := Option.bind_eq_some_iff.1 h
  obtain ⟨_, hrest, h⟩ := Option.bind_eq_some_iff.1 h
  cases h
  have hlong := (List.dropWhile_sublist isHexDigit (l := ds)).length_le
  have hopened := length_behind? hds
  have hclosed := length_behind? hrest
  omega

/-- Reading a character leaves less of the text. -/
theorem length_unescape? {q c : Char} {cs rest : List Char} (h : unescape? q cs = some (c, rest)) :
    rest.length < cs.length := by
  unfold unescape? at h
  split at h
  · cases h
  · have := length_ofBraces? h
    simp only [List.length_cons]
    omega
  · obtain ⟨_, -, h⟩ := Option.map_eq_some_iff.1 h
    cases h
    simp only [List.length_cons]
    omega
  · obtain ⟨-, h⟩ := Option.ite_none_left_eq_some.1 h
    cases h
    exact Nat.lt_succ_self _

/-- The text before the closing quote `q`, and what is behind that. -/
def decode? (q : Char) (cs : List Char) : Option (List Char × List Char) :=
  match _h : unescape? q cs with
  | some (c, rest) => (decode? q rest).map fun (ds, behind) => (c :: ds, behind)
  | none => (behind? q cs).map fun behind => ([], behind)
termination_by cs.length
decreasing_by exact length_unescape? ‹_›

/-- **A text is read back**, whatever its characters are written as. -/
theorem decode?_flatMap {q : Char} (hq : q ≠ '\\') {write : Char → List Char} (hwrite : ∀ c, Writes q c (write c))
    (cs rest : List Char) : decode? q (cs.flatMap write ++ q :: rest) = some (cs, rest) := by
  induction cs with
  | nil =>
    have hclosed := unescape?_quote hq rest
    rw [List.flatMap_nil, List.nil_append, decode?]
    split
    · simp_all
    · rw [behind?_cons, Option.map_some]
  | cons c cs ih =>
    have hread := (hwrite c).unescape? (cs.flatMap write ++ q :: rest)
    rw [List.flatMap_cons, List.append_assoc, decode?]
    split
    · rename_i h
      cases hread.symm.trans h
      rw [ih, Option.map_some]
    · simp_all

end Quoted
end SchemeLexer
