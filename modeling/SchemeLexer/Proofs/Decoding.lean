import Mathlib.Algebra.GroupWithZero.Nat
import SchemeLexer.Text.Utf8
/-!
# Decoding — glyphs are found where they stand

A glyph depends on its own bytes and on the one byte that ends it.  So a text may be cut between two glyphs
(`decode_take`, `decode_drop`), and two texts may be joined where the second begins with a byte that no glyph reads on
into (`decode_append`).  An ASCII character is its own byte, and nothing else reads as one (`read_of_ascii`).
-/
namespace SchemeLexer
namespace Utf8

/-- A text that no glyph before it reads on into: it is empty, or begins with an ASCII byte. -/
def Fresh (bs : List UInt8) : Prop := ∀ b ∈ bs.head?, b < 0x80

@[simp] theorem fresh_nil : Fresh [] := by simp [Fresh]

@[simp] theorem fresh_cons (b : UInt8) (bs : List UInt8) : Fresh (b :: bs) ↔ b < 0x80 := by simp [Fresh]

theorem Lead.trail_range {b : UInt8} {lead : Lead} (h : Lead.ofByte? b = some lead) :
    ∀ r ∈ lead.trail, 0x80 ≤ r.1 ∧ r.2 ≤ 0xBF := by
  unfold Lead.ofByte? at h
  repeat' split at h
  all_goals first
    | (obtain rfl := Option.some.inj h; simp [anyTrail])
    | cases h

/-! ## Joining -/

theorem readTrail_append {c : List UInt8} (hc : Fresh c) :
    ∀ (code : Nat) (ranges : List (UInt8 × UInt8)) (bs : List UInt8), (∀ r ∈ ranges, 0x80 ≤ r.1 ∧ r.2 ≤ 0xBF) →
      readTrail code ranges (bs ++ c) = readTrail code ranges bs
  | _, [], _, _ => by simp [readTrail]
  | _, (lo, hi) :: ranges, [], h => by
    cases c with
    | nil => rfl
    | cons x c =>
      have hx : x < 0x80 := (fresh_cons x c).1 hc
      have hlo : 0x80 ≤ lo := (h _ List.mem_cons_self).1
      have : ¬ (lo ≤ x ∧ x ≤ hi) := by
        simp only [UInt8.lt_iff_toNat_lt, UInt8.le_iff_toNat_le] at *; omega
      simp [readTrail, this]
  | code, (lo, hi) :: ranges, x :: bs, h => by
    simp only [List.cons_append, readTrail]
    rw [readTrail_append hc _ ranges bs fun r hr => h r (List.mem_cons_of_mem _ hr)]

theorem Glyph.read_append {c : List UInt8} (hc : Fresh c) (b : UInt8) (bs : List UInt8) :
    Glyph.read b (bs ++ c) = Glyph.read b bs := by
  unfold Glyph.read
  cases h : Lead.ofByte? b with
  | none => rfl
  | some lead => simp only [readTrail_append hc lead.bits lead.trail bs (Lead.trail_range h)]

/-- **Two texts read as one**, if no glyph of the first reads on into the second. -/
theorem decode_append {c : List UInt8} (hc : Fresh c) : ∀ bs : List UInt8, decode (bs ++ c) = decode bs ++ decode c
  | [] => rfl
  | b :: bs => by
    rw [List.cons_append, decode_cons, decode_cons, Glyph.read_append hc,
      List.drop_append_of_le_length (Glyph.read_trail_le b bs), decode_append hc (bs.drop _), List.cons_append]
termination_by bs => bs.length

theorem chars_append {c : List UInt8} (hc : Fresh c) (bs : List UInt8) : chars (bs ++ c) = chars bs ++ chars c := by
  simp [chars, decode_append hc]

theorem chars_eq_nil {bs : List UInt8} (h : chars bs = []) : bs = [] := by
  cases bs with
  | nil => rfl
  | cons b bs => rw [chars_cons] at h; cases h

/-! ## Cutting -/

theorem readTrail_take : ∀ (code : Nat) (ranges : List (UInt8 × UInt8)) (bs : List UInt8) (m : Nat),
    (readTrail code ranges bs).1 ≤ m → readTrail code ranges (bs.take m) = readTrail code ranges bs
  | _, [], _, _, _ => by simp [readTrail]
  | _, _ :: _, [], _, _ => by simp
  | code, (lo, hi) :: ranges, x :: bs, m, h => by
    simp only [readTrail] at h ⊢
    by_cases hx : lo ≤ x ∧ x ≤ hi
    · simp only [hx, and_self, if_true] at h
      obtain ⟨m, rfl⟩ : ∃ k, m = k + 1 := ⟨m - 1, by omega⟩
      simp only [List.take_succ_cons, readTrail, hx, and_self, if_true]
      rw [readTrail_take _ ranges bs m (by omega)]
    · cases m <;> simp [readTrail, hx]

theorem Glyph.read_take (b : UInt8) (bs : List UInt8) (m : Nat) (h : (Glyph.read b bs).trail ≤ m) :
    Glyph.read b (bs.take m) = Glyph.read b bs := by
  unfold Glyph.read at h ⊢
  cases hl : Lead.ofByte? b with
  | none => rfl
  | some lead =>
    simp only [hl] at h ⊢
    rw [readTrail_take]
    split at h <;> (rename_i hr; rw [hr]; exact h)

/-- The bytes of the first `n` glyphs. -/
def width (n : Nat) (bs : List UInt8) : Nat := (((decode bs).take n).map Glyph.width).sum

@[simp] theorem width_zero (bs : List UInt8) : width 0 bs = 0 := by simp [width]

@[simp] theorem width_nil (n : Nat) : width n [] = 0 := by simp [width]

theorem width_succ_cons (n : Nat) (b : UInt8) (bs : List UInt8) :
    width (n + 1) (b :: bs) = (Glyph.read b bs).trail + width n (bs.drop (Glyph.read b bs).trail) + 1 := by
  simp only [width, decode_cons, List.take_succ_cons, List.map_cons, List.sum_cons, Glyph.width]
  omega

theorem width_le : ∀ (n : Nat) (bs : List UInt8), width n bs ≤ bs.length
  | 0, _ => by simp
  | _ + 1, [] => by simp
  | n + 1, b :: bs => by
    have := width_le n (bs.drop (Glyph.read b bs).trail)
    have := Glyph.read_trail_le b bs
    simp only [width_succ_cons, List.length_cons, List.length_drop] at *
    omega

theorem length_chars_le : ∀ bs : List UInt8, (chars bs).length ≤ bs.length
  | [] => Nat.le_refl _
  | b :: bs => by
    have := length_chars_le (bs.drop (Glyph.read b bs).trail)
    simp only [chars_cons, List.length_cons, List.length_drop] at *
    omega
termination_by bs => bs.length
decreasing_by simp only [List.length_drop, List.length_cons]; omega

/-- **The widths add up to the length**: every byte belongs to exactly one glyph. -/
theorem sum_width_decode (bs : List UInt8) : ((decode bs).map Glyph.width).sum = bs.length := by
  induction h : bs.length using Nat.strongRecOn generalizing bs with
  | ind n ih =>
    subst h
    cases bs with
    | nil => simp
    | cons b bs =>
      have hle := Glyph.read_trail_le b bs
      have := ih (bs.length - (Glyph.read b bs).trail) (by rw [List.length_cons]; omega)
        (bs.drop (Glyph.read b bs).trail) (by simp)
      simp only [decode_cons, List.map_cons, List.sum_cons, this, Glyph.width, List.length_cons]
      omega

theorem width_of_length_le {n : Nat} {bs : List UInt8} (h : (decode bs).length ≤ n) : width n bs = bs.length := by
  rw [width, List.take_of_length_le h, sum_width_decode]

theorem width_add : ∀ (m n : Nat) (bs : List UInt8), width (m + n) bs = width m bs + width n (bs.drop (width m bs))
  | 0, _, _ => by simp
  | _ + 1, _, [] => by simp
  | m + 1, n, b :: bs => by
    rw [Nat.add_right_comm, width_succ_cons, width_succ_cons, width_add m n, List.drop_succ_cons, ← List.drop_drop]
    omega

/-- **What stands between two glyphs reads as it did** before the text was cut off behind it. -/
theorem decode_take : ∀ (n : Nat) (bs : List UInt8), decode (bs.take (width n bs)) = (decode bs).take n
  | 0, _ => by simp
  | _ + 1, [] => by simp
  | n + 1, b :: bs => by
    have hle := Glyph.read_trail_le b bs
    rw [width_succ_cons, List.take_succ_cons, decode_cons, Glyph.read_take b bs _ (Nat.le_add_right ..),
      List.drop_take, Nat.add_sub_cancel_left, decode_take n, decode_cons, List.take_succ_cons]

theorem decode_drop : ∀ (n : Nat) (bs : List UInt8), decode (bs.drop (width n bs)) = (decode bs).drop n
  | 0, _ => by simp
  | _ + 1, [] => by simp
  | n + 1, b :: bs => by
    rw [width_succ_cons, List.drop_succ_cons, ← List.drop_drop, decode_drop n, decode_cons, List.drop_succ_cons]

theorem chars_take (n : Nat) (bs : List UInt8) : chars (bs.take (width n bs)) = (chars bs).take n := by
  simp [chars, decode_take, List.map_take]

theorem chars_drop (n : Nat) (bs : List UInt8) : chars (bs.drop (width n bs)) = (chars bs).drop n := by
  simp [chars, decode_drop, List.map_drop]

/-- **A text is cut where its characters are.** -/
theorem exists_append_of_chars {bs : List UInt8} {cs ds : List Char} (h : chars bs = cs ++ ds) :
    ∃ x y, bs = x ++ y ∧ chars x = cs ∧ chars y = ds := by
  refine ⟨bs.take (width cs.length bs), bs.drop (width cs.length bs), (List.take_append_drop ..).symm, ?_, ?_⟩
  · rw [chars_take, h, List.take_left]
  · rw [chars_drop, h, List.drop_left]

theorem width_append {c : List UInt8} (hc : Fresh c) {n : Nat} {bs : List UInt8} (h : n ≤ (chars bs).length) :
    width n (bs ++ c) = width n bs := by
  rw [width, decode_append hc, List.take_append_of_le_length (by simpa [chars] using h), width]

theorem width_mono {k n : Nat} (h : k ≤ n) (bs : List UInt8) : width k bs ≤ width n bs := by
  have hadd := width_add k (n - k) bs
  rw [Nat.add_sub_cancel' h] at hadd
  omega

/-- Characters of a part of a text are as wide there as in all of it. -/
theorem width_take {k n : Nat} (h : k ≤ n) (bs : List UInt8) : width k (bs.take (width n bs)) = width k bs := by
  rw [width, decode_take, List.take_take, Nat.min_eq_left h, width]

/-- A text without its last `n` characters. -/
def withoutLast (n : Nat) (bs : List UInt8) : List UInt8 := bs.take (width ((chars bs).length - n) bs)

/-! ## ASCII -/

theorem Glyph.read_ascii {b : UInt8} (hb : b < 0x80) (bs : List UInt8) :
    Glyph.read b bs = ⟨Char.ofNat b.toNat, 0, true⟩ := by
  simp [Glyph.read, Lead.ofByte?, hb, readTrail]

theorem readTrail_first {code : Nat} {r : UInt8 × UInt8} {ranges : List (UInt8 × UInt8)} {bs : List UInt8} {k : Nat}
    (h : (readTrail code (r :: ranges) bs).2 = some k) :
    ∃ x bs', r.1 ≤ x ∧ x ≤ r.2 ∧ (readTrail (code * 64 + (x.toNat - 0x80)) ranges bs').2 = some k := by
  cases bs with
  | nil => simp [readTrail] at h
  | cons x bs =>
    simp only [readTrail] at h
    split at h
    · rename_i hx; exact ⟨x, bs, hx.1, hx.2, h⟩
    · simp at h

theorem readTrail_bounds : ∀ (ranges : List (UInt8 × UInt8)) {code : Nat} {bs : List UInt8} {k : Nat},
    (∀ r ∈ ranges, 0x80 ≤ r.1 ∧ r.2 ≤ 0xBF) → (readTrail code ranges bs).2 = some k →
      code * 64 ^ ranges.length ≤ k ∧ k < (code + 1) * 64 ^ ranges.length
  | [], code, bs, k, _, h => by
    simp only [readTrail, Option.some.injEq] at h
    simp only [List.length_nil, Nat.pow_zero, Nat.mul_one]
    omega
  | r :: ranges, code, bs, k, hr, h => by
    obtain ⟨x, bs', hlo, hhi, hk⟩ := readTrail_first h
    obtain ⟨h1, h2⟩ := readTrail_bounds ranges (fun r hm => hr r (List.mem_cons_of_mem _ hm)) hk
    have hx : x.toNat - 0x80 < 64 := by
      have hr := (hr r List.mem_cons_self).2
      simp only [UInt8.le_iff_toNat_le, UInt8.reduceToNat] at hhi hr; omega
    rw [List.length_cons, Nat.pow_succ, Nat.mul_comm (64 ^ ranges.length), ← Nat.mul_assoc, ← Nat.mul_assoc]
    constructor
    · calc code * 64 * 64 ^ ranges.length
        _ ≤ (code * 64 + (x.toNat - 0x80)) * 64 ^ ranges.length := Nat.mul_le_mul_right _ (Nat.le_add_right ..)
        _ ≤ k := h1
    · calc k < (code * 64 + (x.toNat - 0x80) + 1) * 64 ^ ranges.length := h2
        _ ≤ (code + 1) * 64 * 64 ^ ranges.length := Nat.mul_le_mul_right _ (by omega)

theorem readTrail_scalar {b : UInt8} {lead : Lead} {bs : List UInt8} {k : Nat} (hl : Lead.ofByte? b = some lead)
    (hb : ¬ b < 0x80) (h : (readTrail lead.bits lead.trail bs).2 = some k) : 0x80 ≤ k ∧ k.isValidChar := by
  have hr := Lead.trail_range hl
  unfold Lead.ofByte? at hl
  simp only [UInt8.lt_iff_toNat_lt, ← UInt8.toNat_inj, UInt8.reduceToNat] at hl hb
  rw [if_neg hb] at hl
  repeat' split at hl
  all_goals first
    | (obtain rfl := Option.some.inj hl
       obtain ⟨x, bs', hlo, hhi, hk⟩ := readTrail_first h
       have hk := readTrail_bounds _ (fun r hm => hr r (List.mem_cons_of_mem _ hm)) hk
       simp only [anyTrail, UInt8.le_iff_toNat_le, UInt8.reduceToNat, List.length_cons, List.length_nil,
         Nat.isValidChar] at *
       omega)
    | cases hl

theorem toNat_ofNat_of_isValidChar {n : Nat} (h : n.isValidChar) : (Char.ofNat n).toNat = n := by
  rw [Char.ofNat, dif_pos h]
  rfl

/-- **Only an ASCII byte reads as an ASCII character.** -/
theorem read_of_ascii {b : UInt8} {bs : List UInt8} (h : (Glyph.read b bs).char.toNat < 0x80) : b < 0x80 := by
  refine Decidable.byContradiction fun hb => ?_
  have hrep : ¬ replacement.toNat < 0x80 := by decide
  unfold Glyph.read at h
  split at h
  · exact hrep h
  · rename_i lead hl
    split at h
    · rename_i n code hr
      obtain ⟨hge, hv⟩ := readTrail_scalar hl hb (congrArg Prod.snd hr)
      simp only [toNat_ofNat_of_isValidChar hv] at h
      omega
    · exact hrep h

theorem fresh_of_chars {bs : List UInt8} {c : Char} {cs : List Char} (h : chars bs = c :: cs) (hc : c.toNat < 0x80) :
    Fresh bs := by
  cases bs with
  | nil => exact fresh_nil
  | cons b bs =>
    rw [chars_cons, List.cons.injEq] at h
    exact (fresh_cons b bs).2 (read_of_ascii (h.1 ▸ hc))

def ascii (cs : List Char) : List UInt8 := cs.map fun c => UInt8.ofNat c.toNat

@[simp] theorem ascii_nil : ascii [] = [] := rfl

@[simp] theorem ascii_cons (c : Char) (cs : List Char) : ascii (c :: cs) = UInt8.ofNat c.toNat :: ascii cs := rfl

@[simp] theorem length_ascii (cs : List Char) : (ascii cs).length = cs.length := by simp [ascii]

theorem ascii_append (cs ds : List Char) : ascii (cs ++ ds) = ascii cs ++ ascii ds := List.map_append

def IsAscii (cs : List Char) : Prop := ∀ c ∈ cs, c.toNat < 0x80

instance (cs : List Char) : Decidable (IsAscii cs) := List.decidableBAll (fun c : Char => c.toNat < 0x80) cs

theorem ofNat_toNat_char {b : UInt8} (h : b < 0x80) : UInt8.ofNat (Char.ofNat b.toNat).toNat = b := by
  have hb : b.toNat < 0x80 := h
  have hv : b.toNat.isValidChar := Or.inl (by omega)
  rw [toNat_ofNat_of_isValidChar hv, UInt8.ofNat_toNat]

theorem encodeChar_ascii {c : Char} (h : c.toNat < 0x80) : String.utf8EncodeChar c = [UInt8.ofNat c.toNat] := by
  have : c.val.toNat ≤ 127 := Nat.le_of_lt_succ h
  simp only [String.utf8EncodeChar, this, if_true]
  rfl

theorem encode_ascii {cs : List Char} (h : IsAscii cs) : encode (String.ofList cs) = ascii cs := by
  rw [encode, String.toList_ofList, ascii, List.map_eq_flatMap, List.flatMap_def, List.flatMap_def,
    List.map_congr_left fun c hc => encodeChar_ascii (h c hc)]

theorem byte_lt_of_ascii {c : Char} (h : c.toNat < 0x80) : UInt8.ofNat c.toNat < 0x80 := by
  rw [UInt8.lt_iff_toNat_lt, UInt8.toNat_ofNat']
  simp only [UInt8.reduceToNat]
  omega

theorem read_ascii_char {c : Char} (h : c.toNat < 0x80) (bs : List UInt8) :
    Glyph.read (UInt8.ofNat c.toNat) bs = ⟨c, 0, true⟩ := by
  rw [Glyph.read_ascii (byte_lt_of_ascii h), UInt8.toNat_ofNat', Nat.mod_eq_of_lt (by omega), Char.ofNat_toNat]

/-- **An ASCII text in front is read byte for byte.** -/
theorem chars_ascii_append : ∀ {cs : List Char}, IsAscii cs → ∀ rest, chars (ascii cs ++ rest) = cs ++ chars rest
  | [], _, rest => rfl
  | c :: cs, h, rest => by
    have hc := h c List.mem_cons_self
    have ih := chars_ascii_append (fun d hd => h d (List.mem_cons_of_mem _ hd)) rest
    rw [ascii_cons, List.cons_append, chars_cons, read_ascii_char hc, List.drop_zero, ih, List.cons_append]

theorem chars_ascii {cs : List Char} (h : IsAscii cs) : chars (ascii cs) = cs := by
  have happend := chars_ascii_append h []
  rwa [List.append_nil, chars_nil, List.append_nil] at happend

theorem fresh_ascii {cs : List Char} (h : IsAscii cs) : Fresh (ascii cs) := by
  cases cs with
  | nil => exact fresh_nil
  | cons c cs => exact (fresh_cons ..).2 (byte_lt_of_ascii (h c List.mem_cons_self))

theorem width_ascii_append : ∀ {cs : List Char}, IsAscii cs → ∀ rest, width cs.length (ascii cs ++ rest) = cs.length
  | [], _, _ => by simp
  | c :: cs, h, rest => by
    have ih := width_ascii_append (fun d hd => h d (List.mem_cons_of_mem _ hd)) rest
    rw [ascii_cons, List.cons_append, List.length_cons, width_succ_cons, read_ascii_char (h c List.mem_cons_self),
      List.drop_zero, ih, Nat.zero_add]

/-- A text up to an ASCII character is as wide as it is long, whatever stands behind. -/
theorem width_append_ascii {c : Char} (hc : c.toNat < 0x80) (bs rest : List UInt8) :
    width ((chars bs).length + 1) (bs ++ ascii [c] ++ rest) = (bs ++ ascii [c]).length := by
  have hone : IsAscii [c] := by simpa [IsAscii] using hc
  have hfresh : Fresh (ascii [c] ++ rest) := (fresh_cons ..).2 (byte_lt_of_ascii hc)
  have hall : width (chars bs).length bs = bs.length := width_of_length_le (by simp [chars])
  have hlast : width 1 (ascii [c] ++ rest) = 1 := width_ascii_append hone rest
  rw [width_add, List.append_assoc, width_append hfresh (Nat.le_refl _), hall, List.drop_left, hlast, List.length_append,
    length_ascii, List.length_singleton]

/-- **A text that reads as an ASCII text in front has its bytes in front.** -/
theorem eq_ascii_append : ∀ {cs tail : List Char} {s : List UInt8}, IsAscii cs → chars s = cs ++ tail →
    ∃ rest, s = ascii cs ++ rest ∧ chars rest = tail
  | [], _, s, _, hs => ⟨s, rfl, hs⟩
  | c :: cs, _, [], _, hs => by simp at hs
  | c :: cs, tail, b :: bs, h, hs => by
    rw [chars_cons, List.cons_append, List.cons.injEq] at hs
    have hc : (Glyph.read b bs).char.toNat < 0x80 := hs.1 ▸ h c List.mem_cons_self
    have hr := Glyph.read_ascii (read_of_ascii hc) bs
    rw [hr] at hs
    obtain ⟨rest, hrest, htail⟩ := eq_ascii_append (fun d hd => h d (List.mem_cons_of_mem _ hd)) hs.2
    refine ⟨rest, ?_, htail⟩
    rw [List.drop_zero] at hrest
    rw [hrest, ascii_cons, ← hs.1, ofNat_toNat_char (read_of_ascii hc), List.cons_append]

theorem eq_ascii_of_chars {cs : List Char} (h : IsAscii cs) {w : List UInt8} (hw : chars w = cs) : w = ascii cs := by
  obtain ⟨rest, rfl, hrest⟩ := eq_ascii_append h (hw.trans (List.append_nil cs).symm)
  rw [chars_eq_nil hrest, List.append_nil]

theorem exists_cons_of_chars {c : Char} {cs : List Char} {s : List UInt8} (hc : c.toNat < 0x80)
    (h : chars s = c :: cs) : ∃ rest, s = UInt8.ofNat c.toNat :: rest ∧ chars rest = cs := by
  have hascii : IsAscii [c] := by simpa [IsAscii] using hc
  exact eq_ascii_append hascii h

end Utf8
end SchemeLexer
