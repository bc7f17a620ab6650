import SchemeLexer.Proofs.Decoding
/-!
# Encodings — what bytes are to be read as

A source is read by a table of lead bytes.  `Decodes` says what it is to be read as without one: the encoding of a
character is that character, and where no encoding stands, the longest beginning of one is a single replacement, or a
single byte is if it begins none.  `decodes_iff` says that the glyphs of a source are exactly that.

What joins the two is the table: the encodings are the lead bytes with trail bytes in their ranges, no more
(`encodeChar_of_trail`) and no fewer (`exists_spells`).
-/
namespace SchemeLexer
namespace Utf8

/-! ## What the decoder is to find -/

/-- A text that the encoding of some character begins with. -/
def Initial (u : List UInt8) : Prop := ∃ c : Char, u <+: String.utf8EncodeChar c

/-- What one replacement stands for at the head of `bs`, where no encoding stands: a beginning of an encoding, as long
as there is one, or a byte that begins none. -/
structure MaximalSubpart (u bs : List UInt8) : Prop where
  head    : u <+: bs
  initial : u.length = 1 ∨ (u ≠ [] ∧ Initial u)
  longest : ∀ v, v <+: bs → Initial v → v.length ≤ u.length

/-- The lossy decoding of a source: its characters, how wide each is, and whether it was encoded there. -/
inductive Decodes : List UInt8 → List Glyph → Prop
  | nil : Decodes [] []
  | scalar (c : Char) {bs : List UInt8} {gs : List Glyph} :
    Decodes bs gs → Decodes (String.utf8EncodeChar c ++ bs) (⟨c, c.utf8Size - 1, true⟩ :: gs)
  | illFormed {u bs : List UInt8} {gs : List Glyph} :
    (∀ c, ¬ String.utf8EncodeChar c <+: u ++ bs) → MaximalSubpart u (u ++ bs) → Decodes bs gs →
      Decodes (u ++ bs) (⟨replacement, u.length - 1, false⟩ :: gs)

/-! ## Trails -/

/-- Trail bytes, each in its range, that complete a code point `k`. -/
inductive Trail : Nat → List (UInt8 × UInt8) → List UInt8 → Nat → Prop
  | nil {code : Nat} : Trail code [] [] code
  | cons {code k : Nat} {r : UInt8 × UInt8} {ranges : List (UInt8 × UInt8)} {x : UInt8} {xs : List UInt8} :
    r.1 ≤ x ∧ x ≤ r.2 → Trail (code * 64 + (x.toNat - 0x80)) ranges xs k → Trail code (r :: ranges) (x :: xs) k

section
variable {code n k : Nat} {ranges : List (UInt8 × UInt8)} {xs v bs : List UInt8}

-- A trail is taken apart while its code is still a variable: `cases` would unfold the sum that stands for it.
theorem Trail.of_nil (h : Trail code [] xs k) : xs = [] ∧ code = k := by
  cases h
  exact ⟨rfl, rfl⟩

theorem Trail.exists_cons {r : UInt8 × UInt8} (h : Trail code (r :: ranges) xs k) :
    ∃ x ys, xs = x :: ys ∧ (r.1 ≤ x ∧ x ≤ r.2) ∧ Trail (code * 64 + (x.toNat - 0x80)) ranges ys k := by
  cases h with
  | cons hx h => exact ⟨_, _, rfl, hx, h⟩

theorem readTrail_of_trail (h : Trail code ranges xs k) (bs : List UInt8) :
    readTrail code ranges (xs ++ bs) = (xs.length, some k) := by
  induction h with
  | nil => simp only [readTrail, List.length_nil]
  | cons hx _ ih => simp only [List.cons_append, readTrail, hx, and_self, if_true, ih, List.length_cons]

theorem trail_of_readTrail (h : readTrail code ranges bs = (n, some k)) : Trail code ranges (bs.take n) k := by
  induction ranges generalizing code n bs with
  | nil =>
    simp only [readTrail, Prod.mk.injEq, Option.some.injEq] at h
    obtain ⟨rfl, rfl⟩ := h
    exact .nil
  | cons r ranges ih =>
    cases bs with
    | nil => simp [readTrail] at h
    | cons x bs =>
      simp only [readTrail] at h
      split at h
      · rename_i hx
        obtain ⟨rfl, hk⟩ := Prod.mk.inj h
        exact .cons hx (ih (Prod.ext rfl hk))
      · simp at h

/-- **What a trail begins with is read**, wherever it stands. -/
theorem le_readTrail (h : Trail code ranges xs k) (hxs : v <+: xs) (hbs : v <+: bs) (code' : Nat) :
    v.length ≤ (readTrail code' ranges bs).1 := by
  induction h generalizing v bs code' with
  | nil =>
    rw [List.prefix_nil.1 hxs]
    exact Nat.zero_le _
  | cons hx _ ih =>
    cases v with
    | nil => exact Nat.zero_le _
    | cons y v =>
      obtain ⟨rfl, htail⟩ := List.cons_prefix_cons.1 hxs
      obtain ⟨bs, rfl⟩ := hbs
      simp only [List.cons_append, readTrail, hx, and_self, if_true, List.length_cons]
      exact Nat.succ_le_succ (ih htail (List.prefix_append ..) _)

/-- **Whatever was read can be completed.** -/
theorem exists_trail (hr : ∀ r ∈ ranges, r.1 ≤ r.2) (code : Nat) (bs : List UInt8) :
    ∃ ys k, Trail code ranges (bs.take (readTrail code ranges bs).1 ++ ys) k := by
  induction ranges generalizing code bs with
  | nil => exact ⟨[], code, by simpa only [readTrail] using .nil⟩
  | cons r ranges ih =>
    have hcomplete := ih fun r hm => hr r (List.mem_cons_of_mem _ hm)
    have hafresh : ∃ ys k, Trail code (r :: ranges) ys k := by
      obtain ⟨ys, k, hys⟩ := hcomplete (code * 64 + (r.1.toNat - 0x80)) []
      rw [List.take_nil, List.nil_append] at hys
      exact ⟨r.1 :: ys, k, .cons ⟨UInt8.le_refl _, hr r List.mem_cons_self⟩ hys⟩
    cases bs with
    | nil => simpa only [List.take_nil, List.nil_append] using hafresh
    | cons x bs =>
      simp only [readTrail]
      split
      · rename_i hx
        obtain ⟨ys, k, hys⟩ := hcomplete (code * 64 + (x.toNat - 0x80)) bs
        exact ⟨ys, k, .cons hx hys⟩
      · simpa only [List.take_zero, List.nil_append] using hafresh

end

/-! ## The table -/

namespace Lead

variable {b : UInt8}

theorem ofByte?_one (hb : b.toNat < 0x80) : ofByte? b = some ⟨b.toNat, []⟩ := by
  rw [ofByte?, if_pos (UInt8.lt_iff_toNat_lt.2 hb)]

theorem ofByte?_two (hb : 0xC2 ≤ b.toNat ∧ b.toNat < 0xE0) : ofByte? b = some ⟨b.toNat - 0xC0, [anyTrail]⟩ := by
  unfold ofByte?
  simp only [UInt8.lt_iff_toNat_lt, UInt8.reduceToNat]
  rw [if_neg (by omega), if_neg (by omega), if_pos hb.2]

theorem anyTrail_iff (x : UInt8) : (anyTrail.1 ≤ x ∧ x ≤ anyTrail.2) ↔ 0x80 ≤ x.toNat ∧ x.toNat ≤ 0xBF := by
  simp only [anyTrail, UInt8.le_iff_toNat_le, UInt8.reduceToNat]

/-- A second byte of three makes no overlong form and no surrogate. -/
theorem ofByte?_three (hb : 0xE0 ≤ b.toNat ∧ b.toNat < 0xF0) :
    ∃ r, ofByte? b = some ⟨b.toNat - 0xE0, [r, anyTrail]⟩ ∧ ∀ x : UInt8, (r.1 ≤ x ∧ x ≤ r.2) ↔
      (0x80 ≤ x.toNat ∧ x.toNat ≤ 0xBF) ∧ (b.toNat = 0xE0 → 0xA0 ≤ x.toNat) ∧ (b.toNat = 0xED → x.toNat ≤ 0x9F) := by
  unfold ofByte?
  simp only [UInt8.lt_iff_toNat_lt, UInt8.le_iff_toNat_le, ← UInt8.toNat_inj, UInt8.reduceToNat]
  rw [if_neg (by omega), if_neg (by omega), if_neg (by omega)]
  split
  · rename_i h
    exact ⟨(0xA0, 0xBF), by rw [h], fun x => by simp only [UInt8.reduceToNat]; omega⟩
  · rename_i h
    split
    · rename_i h'
      exact ⟨(0x80, 0x9F), by rw [h'], fun x => by simp only [UInt8.reduceToNat]; omega⟩
    · rename_i h'
      rw [if_pos hb.2]
      exact ⟨anyTrail, rfl, fun x => by simp only [anyTrail, UInt8.reduceToNat]; omega⟩

/-- A second byte of four makes no overlong form and no number past the last code point. -/
theorem ofByte?_four (hb : 0xF0 ≤ b.toNat ∧ b.toNat < 0xF5) :
    ∃ r, ofByte? b = some ⟨b.toNat - 0xF0, [r, anyTrail, anyTrail]⟩ ∧ ∀ x : UInt8, (r.1 ≤ x ∧ x ≤ r.2) ↔
      (0x80 ≤ x.toNat ∧ x.toNat ≤ 0xBF) ∧ (b.toNat = 0xF0 → 0x90 ≤ x.toNat) ∧ (b.toNat = 0xF4 → x.toNat ≤ 0x8F) := by
  unfold ofByte?
  simp only [UInt8.lt_iff_toNat_lt, UInt8.le_iff_toNat_le, ← UInt8.toNat_inj, UInt8.reduceToNat]
  rw [if_neg (by omega), if_neg (by omega), if_neg (by omega), if_neg (by omega), if_neg (by omega), if_neg (by omega)]
  split
  · rename_i h
    exact ⟨(0x90, 0xBF), by rw [h], fun x => by simp only [UInt8.reduceToNat]; omega⟩
  · rename_i h
    split
    · rename_i h'
      exact ⟨anyTrail, rfl, fun x => by simp only [anyTrail, UInt8.reduceToNat]; omega⟩
    · rename_i h'
      rw [if_pos (by omega)]
      exact ⟨(0x80, 0x8F), by rw [show b.toNat = 0xF4 by omega], fun x => by simp only [UInt8.reduceToNat]; omega⟩

/-- No range of a trail byte is empty. -/
def Proper (lead? : Option Lead) : Prop := ∀ lead ∈ lead?, ∀ r ∈ lead.trail, r.1 ≤ r.2

theorem proper_none : Proper none := fun _ h => by cases h

theorem proper_some {bits : Nat} {trail : List (UInt8 × UInt8)} (h : trail.all (fun r => r.1 ≤ r.2) = true) :
    Proper (some ⟨bits, trail⟩) := by
  rintro _ ⟨⟩ r hr
  exact of_decide_eq_true (List.all_eq_true.1 h r hr)

theorem proper_ite {p : Prop} [Decidable p] {x y : Option Lead} (hx : Proper x) (hy : Proper y) :
    Proper (if p then x else y) := iteInduction (fun _ => hx) fun _ => hy

theorem proper_ofByte? (b : UInt8) : Proper (ofByte? b) :=
  proper_ite (proper_some rfl) <|
  proper_ite proper_none <|
  proper_ite (proper_some rfl) <|
  proper_ite (proper_some rfl) <|
  proper_ite (proper_some rfl) <|
  proper_ite (proper_some rfl) <|
  proper_ite (proper_some rfl) <|
  proper_ite (proper_some rfl) <|
  proper_ite (proper_some rfl) proper_none

theorem ofByte?_none (hb : 0x80 ≤ b.toNat ∧ b.toNat < 0xC2 ∨ 0xF5 ≤ b.toNat) : ofByte? b = none := by
  unfold ofByte?
  simp only [UInt8.lt_iff_toNat_lt, ← UInt8.toNat_inj, UInt8.reduceToNat]
  rcases hb with hb | hb
  · rw [if_neg (by omega), if_pos hb.2]
  · rw [if_neg (by omega), if_neg (by omega), if_neg (by omega), if_neg (by omega), if_neg (by omega),
      if_neg (by omega), if_neg (by omega), if_neg (by omega), if_neg (by omega)]

end Lead

theorem utf8EncodeChar_ofNat {k : Nat} (h : k.isValidChar) : String.utf8EncodeChar (Char.ofNat k) =
    if k ≤ 127 then [UInt8.ofNat k]
    else if k ≤ 2047 then [UInt8.ofNat (k / 64 % 32 + 192), UInt8.ofNat (k % 64 + 128)]
    else if k ≤ 65535 then
      [UInt8.ofNat (k / 4096 % 16 + 224), UInt8.ofNat (k / 64 % 64 + 128), UInt8.ofNat (k % 64 + 128)]
    else
      [UInt8.ofNat (k / 262144 % 8 + 240), UInt8.ofNat (k / 4096 % 64 + 128), UInt8.ofNat (k / 64 % 64 + 128),
        UInt8.ofNat (k % 64 + 128)] := by
  have hk : (Char.ofNat k).val.toNat = k := toNat_ofNat_of_isValidChar h
  rw [String.utf8EncodeChar, hk]

theorem ofNat_eq_byte {n : Nat} {b : UInt8} (h : n = b.toNat) : UInt8.ofNat n = b := by
  rw [h, UInt8.ofNat_toNat]

theorem encodeChar_one {b : UInt8} (hb : b.toNat < 0x80) : String.utf8EncodeChar (Char.ofNat b.toNat) = [b] := by
  rw [utf8EncodeChar_ofNat (Or.inl (by omega)), if_pos (by omega), UInt8.ofNat_toNat]

theorem encodeChar_two {b x : UInt8} (hb : 0xC2 ≤ b.toNat ∧ b.toNat < 0xE0) (hx : 0x80 ≤ x.toNat ∧ x.toNat ≤ 0xBF) :
    String.utf8EncodeChar (Char.ofNat ((b.toNat - 0xC0) * 64 + (x.toNat - 0x80))) = [b, x] := by
  rw [utf8EncodeChar_ofNat (Or.inl (by omega)), if_neg (by omega), if_pos (by omega), ofNat_eq_byte (b := b) (by omega),
    ofNat_eq_byte (b := x) (by omega)]

theorem encodeChar_three {b x y : UInt8} (hb : 0xE0 ≤ b.toNat ∧ b.toNat < 0xF0)
    (hx : 0x80 ≤ x.toNat ∧ x.toNat ≤ 0xBF) (hy : 0x80 ≤ y.toNat ∧ y.toNat ≤ 0xBF)
    (hoverlong : b.toNat = 0xE0 → 0xA0 ≤ x.toNat) (hsurrogate : b.toNat = 0xED → x.toNat ≤ 0x9F) :
    String.utf8EncodeChar (Char.ofNat (((b.toNat - 0xE0) * 64 + (x.toNat - 0x80)) * 64 + (y.toNat - 0x80))) =
      [b, x, y] := by
  have hvalid : (((b.toNat - 0xE0) * 64 + (x.toNat - 0x80)) * 64 + (y.toNat - 0x80)).isValidChar := by
    unfold Nat.isValidChar
    omega
  rw [utf8EncodeChar_ofNat hvalid, if_neg (by omega), if_neg (by omega), if_pos (by omega),
    ofNat_eq_byte (b := b) (by omega), ofNat_eq_byte (b := x) (by omega), ofNat_eq_byte (b := y) (by omega)]

theorem encodeChar_four {b x y z : UInt8} (hb : 0xF0 ≤ b.toNat ∧ b.toNat < 0xF5)
    (hx : 0x80 ≤ x.toNat ∧ x.toNat ≤ 0xBF) (hy : 0x80 ≤ y.toNat ∧ y.toNat ≤ 0xBF) (hz : 0x80 ≤ z.toNat ∧ z.toNat ≤ 0xBF)
    (hoverlong : b.toNat = 0xF0 → 0x90 ≤ x.toNat) (htop : b.toNat = 0xF4 → x.toNat ≤ 0x8F) :
    String.utf8EncodeChar (Char.ofNat
      ((((b.toNat - 0xF0) * 64 + (x.toNat - 0x80)) * 64 + (y.toNat - 0x80)) * 64 + (z.toNat - 0x80))) =
        [b, x, y, z] := by
  have hvalid :
      ((((b.toNat - 0xF0) * 64 + (x.toNat - 0x80)) * 64 + (y.toNat - 0x80)) * 64 + (z.toNat - 0x80)).isValidChar := by
    unfold Nat.isValidChar
    omega
  rw [utf8EncodeChar_ofNat hvalid, if_neg (by omega), if_neg (by omega), if_neg (by omega),
    ofNat_eq_byte (b := b) (by omega), ofNat_eq_byte (b := x) (by omega), ofNat_eq_byte (b := y) (by omega),
    ofNat_eq_byte (b := z) (by omega)]

/-- **A lead byte and its trail** encode the character that they are read as. -/
theorem encodeChar_of_trail {b : UInt8} {lead : Lead} {xs : List UInt8} {k : Nat} (hl : Lead.ofByte? b = some lead)
    (h : Trail lead.bits lead.trail xs k) : String.utf8EncodeChar (Char.ofNat k) = b :: xs := by
  by_cases hnone : 0x80 ≤ b.toNat ∧ b.toNat < 0xC2 ∨ 0xF5 ≤ b.toNat
  · rw [Lead.ofByte?_none hnone] at hl
    cases hl
  by_cases h1 : b.toNat < 0x80
  · obtain rfl := Option.some.inj ((Lead.ofByte?_one h1).symm.trans hl)
    obtain ⟨rfl, rfl⟩ := h.of_nil
    exact encodeChar_one h1
  by_cases h2 : b.toNat < 0xE0
  · have hb : 0xC2 ≤ b.toNat ∧ b.toNat < 0xE0 := by omega
    obtain rfl := Option.some.inj ((Lead.ofByte?_two hb).symm.trans hl)
    obtain ⟨x, xs, rfl, hx, h⟩ := h.exists_cons
    obtain ⟨rfl, rfl⟩ := h.of_nil
    exact encodeChar_two hb ((Lead.anyTrail_iff x).1 hx)
  by_cases h3 : b.toNat < 0xF0
  · have hb : 0xE0 ≤ b.toNat ∧ b.toNat < 0xF0 := by omega
    obtain ⟨r, hr, hrange⟩ := Lead.ofByte?_three hb
    obtain rfl := Option.some.inj (hr.symm.trans hl)
    obtain ⟨x, xs, rfl, hx, h⟩ := h.exists_cons
    obtain ⟨y, xs, rfl, hy, h⟩ := h.exists_cons
    obtain ⟨rfl, rfl⟩ := h.of_nil
    obtain ⟨htrail, hoverlong, hsurrogate⟩ := (hrange x).1 hx
    exact encodeChar_three hb htrail ((Lead.anyTrail_iff y).1 hy) hoverlong hsurrogate
  · have hb : 0xF0 ≤ b.toNat ∧ b.toNat < 0xF5 := by omega
    obtain ⟨r, hr, hrange⟩ := Lead.ofByte?_four hb
    obtain rfl := Option.some.inj (hr.symm.trans hl)
    obtain ⟨x, xs, rfl, hx, h⟩ := h.exists_cons
    obtain ⟨y, xs, rfl, hy, h⟩ := h.exists_cons
    obtain ⟨z, xs, rfl, hz, h⟩ := h.exists_cons
    obtain ⟨rfl, rfl⟩ := h.of_nil
    obtain ⟨htrail, hoverlong, htop⟩ := (hrange x).1 hx
    exact encodeChar_four hb htrail ((Lead.anyTrail_iff y).1 hy) ((Lead.anyTrail_iff z).1 hz) hoverlong htop

/-- A byte that is written as a number. -/
theorem toNat_ofNat_byte {n : Nat} (h : n < 256) : (UInt8.ofNat n).toNat = n := by
  rw [UInt8.toNat_ofNat', Nat.mod_eq_of_lt h]

/-- A lead byte and a trail that spell a code point. -/
def Spells (b : UInt8) (xs : List UInt8) (k : Nat) : Prop :=
  ∃ lead, Lead.ofByte? b = some lead ∧ Trail lead.bits lead.trail xs k

theorem spells_one {k : Nat} (hk : k < 0x80) : Spells (UInt8.ofNat k) [] k := by
  have hb := toNat_ofNat_byte (n := k) (by omega)
  exact ⟨_, Lead.ofByte?_one (by omega), by rw [hb]; exact .nil⟩

theorem spells_two {k : Nat} (hk : 0x80 ≤ k ∧ k < 0x800) :
    Spells (UInt8.ofNat (k / 64 % 32 + 192)) [UInt8.ofNat (k % 64 + 128)] k := by
  have hb := toNat_ofNat_byte (n := k / 64 % 32 + 192) (by omega)
  have hx := toNat_ofNat_byte (n := k % 64 + 128) (by omega)
  -- The bytes are let go of, so that the code point may be put for the bits that they carry.
  generalize UInt8.ofNat (k / 64 % 32 + 192) = b at *
  generalize UInt8.ofNat (k % 64 + 128) = x at *
  obtain rfl : (b.toNat - 0xC0) * 64 + (x.toNat - 0x80) = k := by omega
  exact ⟨_, Lead.ofByte?_two (by omega), .cons ((Lead.anyTrail_iff x).2 (by omega)) .nil⟩

theorem spells_three {k : Nat} (hk : 0x800 ≤ k ∧ k < 0x10000) (hsurrogate : k < 0xD800 ∨ 0xDFFF < k) :
    Spells (UInt8.ofNat (k / 4096 % 16 + 224)) [UInt8.ofNat (k / 64 % 64 + 128), UInt8.ofNat (k % 64 + 128)] k := by
  have hb := toNat_ofNat_byte (n := k / 4096 % 16 + 224) (by omega)
  have hx := toNat_ofNat_byte (n := k / 64 % 64 + 128) (by omega)
  have hy := toNat_ofNat_byte (n := k % 64 + 128) (by omega)
  generalize UInt8.ofNat (k / 4096 % 16 + 224) = b at *
  generalize UInt8.ofNat (k / 64 % 64 + 128) = x at *
  generalize UInt8.ofNat (k % 64 + 128) = y at *
  obtain ⟨r, hr, hrange⟩ := Lead.ofByte?_three (b := b) (by omega)
  obtain rfl : ((b.toNat - 0xE0) * 64 + (x.toNat - 0x80)) * 64 + (y.toNat - 0x80) = k := by omega
  exact ⟨_, hr, .cons ((hrange x).2 (by omega)) (.cons ((Lead.anyTrail_iff y).2 (by omega)) .nil)⟩

theorem spells_four {k : Nat} (hk : 0x10000 ≤ k ∧ k < 0x110000) :
    Spells (UInt8.ofNat (k / 262144 % 8 + 240))
      [UInt8.ofNat (k / 4096 % 64 + 128), UInt8.ofNat (k / 64 % 64 + 128), UInt8.ofNat (k % 64 + 128)] k := by
  have hb := toNat_ofNat_byte (n := k / 262144 % 8 + 240) (by omega)
  have hx := toNat_ofNat_byte (n := k / 4096 % 64 + 128) (by omega)
  have hy := toNat_ofNat_byte (n := k / 64 % 64 + 128) (by omega)
  have hz := toNat_ofNat_byte (n := k % 64 + 128) (by omega)
  generalize UInt8.ofNat (k / 262144 % 8 + 240) = b at *
  generalize UInt8.ofNat (k / 4096 % 64 + 128) = x at *
  generalize UInt8.ofNat (k / 64 % 64 + 128) = y at *
  generalize UInt8.ofNat (k % 64 + 128) = z at *
  obtain ⟨r, hr, hrange⟩ := Lead.ofByte?_four (b := b) (by omega)
  obtain rfl : (((b.toNat - 0xF0) * 64 + (x.toNat - 0x80)) * 64 + (y.toNat - 0x80)) * 64 + (z.toNat - 0x80) = k := by
    omega
  exact ⟨_, hr, .cons ((hrange x).2 (by omega))
    (.cons ((Lead.anyTrail_iff y).2 (by omega)) (.cons ((Lead.anyTrail_iff z).2 (by omega)) .nil))⟩

/-- **An encoding is a lead byte and its trail.** -/
theorem exists_spells (c : Char) : ∃ b xs, String.utf8EncodeChar c = b :: xs ∧ Spells b xs c.toNat := by
  have hvalid : c.toNat.isValidChar := c.valid
  have hencode := utf8EncodeChar_ofNat hvalid
  rw [Char.ofNat_toNat] at hencode
  unfold Nat.isValidChar at hvalid
  rw [hencode]
  by_cases h1 : c.toNat ≤ 127
  · rw [if_pos h1]
    exact ⟨_, _, rfl, spells_one (by omega)⟩
  by_cases h2 : c.toNat ≤ 2047
  · rw [if_neg h1, if_pos h2]
    exact ⟨_, _, rfl, spells_two (by omega)⟩
  by_cases h3 : c.toNat ≤ 65535
  · rw [if_neg h1, if_neg h2, if_pos h3]
    exact ⟨_, _, rfl, spells_three (by omega) (by omega)⟩
  · rw [if_neg h1, if_neg h2, if_neg h3]
    exact ⟨_, _, rfl, spells_four (by omega)⟩

/-! ## Glyphs -/

namespace Glyph

variable {b : UInt8} {bs : List UInt8}

theorem read_of_encodeChar {c : Char} {xs : List UInt8} (h : String.utf8EncodeChar c = b :: xs) (bs : List UInt8) :
    read b (xs ++ bs) = ⟨c, xs.length, true⟩ := by
  obtain ⟨b', xs', hc, lead, hl, htrail⟩ := exists_spells c
  obtain ⟨rfl, rfl⟩ := List.cons.inj (h.symm.trans hc)
  simp only [read, hl, readTrail_of_trail htrail, Char.ofNat_toNat]

/-- **A well-formed glyph** stands for the encoding of its character. -/
theorem encodeChar_of_wellFormed (h : (read b bs).wellFormed = true) :
    String.utf8EncodeChar (read b bs).char = b :: bs.take (read b bs).trail := by
  unfold read at h ⊢
  split
  · rename_i hl
    simp only [hl] at h
    cases h
  · rename_i lead hl
    split
    · rename_i hread
      exact encodeChar_of_trail hl (trail_of_readTrail hread)
    · rename_i hread
      simp only [hl, hread] at h
      cases h

theorem not_encodeChar_of_illFormed (h : (read b bs).wellFormed = false) (c : Char) :
    ¬ String.utf8EncodeChar c <+: b :: bs := by
  rintro ⟨rest, hrest⟩
  obtain ⟨b', xs, hc, -⟩ := exists_spells c
  rw [hc, List.cons_append, List.cons.injEq] at hrest
  obtain ⟨rfl, rfl⟩ := hrest
  rw [read_of_encodeChar hc] at h
  cases h

/-- An ill-formed glyph is of a byte that leads nothing, or of a trail that is not complete. -/
theorem read_of_illFormed (h : (read b bs).wellFormed = false) :
    (Lead.ofByte? b = none ∧ read b bs = ⟨replacement, 0, false⟩) ∨
      ∃ lead, Lead.ofByte? b = some lead ∧
        read b bs = ⟨replacement, (readTrail lead.bits lead.trail bs).1, false⟩ := by
  unfold read at h ⊢
  split
  · rename_i hl
    exact Or.inl ⟨hl, rfl⟩
  · rename_i lead hl
    refine Or.inr ⟨lead, hl, ?_⟩
    split
    · rename_i hread
      simp only [hl, hread] at h
      cases h
    · rename_i hread
      rw [hread]

theorem eq_of_illFormed (h : (read b bs).wellFormed = false) :
    read b bs = ⟨replacement, (read b bs).trail, false⟩ := by
  rcases read_of_illFormed h with ⟨-, hread⟩ | ⟨lead, -, hread⟩ <;> rw [hread]

/-- What was read of a trail, with its lead byte in front, is a beginning of an encoding. -/
theorem initial_take {lead : Lead} (hl : Lead.ofByte? b = some lead) (bs : List UInt8) :
    Initial (b :: bs.take (readTrail lead.bits lead.trail bs).1) := by
  obtain ⟨ys, k, hys⟩ := exists_trail (Lead.proper_ofByte? b lead hl) lead.bits bs
  refine ⟨Char.ofNat k, ?_⟩
  rw [encodeChar_of_trail hl hys, ← List.cons_append]
  exact List.prefix_append ..

/-- **An ill-formed glyph** stands for as much as may begin an encoding. -/
theorem maximalSubpart_of_illFormed (h : (read b bs).wellFormed = false) :
    MaximalSubpart (b :: bs.take (read b bs).trail) (b :: bs) where
  head := List.cons_prefix_cons.2 ⟨rfl, List.take_prefix ..⟩
  initial := by
    rcases read_of_illFormed h with ⟨-, hread⟩ | ⟨lead, hl, hread⟩
    · rw [hread]
      exact Or.inl rfl
    · rw [hread]
      exact Or.inr ⟨List.cons_ne_nil _ _, initial_take hl bs⟩
  longest v hv hinitial := by
    rw [List.length_cons, List.length_take, Nat.min_eq_left (read_trail_le b bs)]
    cases v with
    | nil => exact Nat.zero_le _
    | cons y v =>
      obtain ⟨rfl, hbs⟩ := List.cons_prefix_cons.1 hv
      obtain ⟨c, hc⟩ := hinitial
      obtain ⟨b', xs, hencode, lead, hl, htrail⟩ := exists_spells c
      rw [hencode] at hc
      obtain ⟨rfl, hxs⟩ := List.cons_prefix_cons.1 hc
      rcases read_of_illFormed h with ⟨hnone, -⟩ | ⟨lead', hl', hread⟩
      · rw [hl] at hnone
        cases hnone
      · obtain rfl := Option.some.inj (hl.symm.trans hl')
        rw [hread]
        exact Nat.succ_le_succ (le_readTrail htrail hxs hbs _)

end Glyph

/-! ## The decoding -/

namespace MaximalSubpart

variable {u v bs : List UInt8}

theorem length_pos (h : MaximalSubpart u bs) : 0 < u.length := by
  rcases h.initial with hone | ⟨hne, -⟩
  · omega
  · exact List.length_pos_iff.2 hne

theorem length_le (hu : MaximalSubpart u bs) (hv : MaximalSubpart v bs) : u.length ≤ v.length := by
  rcases hu.initial with hone | ⟨-, hinitial⟩
  · rw [hone]
    exact hv.length_pos
  · exact hv.longest u hu.head hinitial

end MaximalSubpart

theorem eq_decode_of_decodes {bs : List UInt8} {gs : List Glyph} (h : Decodes bs gs) : gs = decode bs := by
  induction h with
  | nil => rfl
  | @scalar c bs gs _ ih =>
    obtain ⟨b, xs, hc, -⟩ := exists_spells c
    have hwidth : c.utf8Size - 1 = xs.length := by
      rw [← String.length_utf8EncodeChar, hc, List.length_cons, Nat.add_sub_cancel]
    rw [hc, List.cons_append, decode_cons, Glyph.read_of_encodeChar hc, List.drop_left, ih, hwidth]
  | @illFormed u bs gs hnone hu _ ih =>
    cases u with
    | nil => exact absurd hu.length_pos (Nat.lt_irrefl 0)
    | cons b u =>
      have hill : (Glyph.read b (u ++ bs)).wellFormed = false := by
        rw [Bool.eq_false_iff]
        intro hwell
        refine hnone (Glyph.read b (u ++ bs)).char ?_
        rw [Glyph.encodeChar_of_wellFormed hwell]
        exact List.cons_prefix_cons.2 ⟨rfl, List.take_prefix ..⟩
      have hread := Glyph.maximalSubpart_of_illFormed hill
      have htrail : (Glyph.read b (u ++ bs)).trail = u.length := by
        have hle := hu.length_le hread
        have hge := hread.length_le hu
        rw [List.length_cons, List.length_cons, List.length_take,
          Nat.min_eq_left (Glyph.read_trail_le b (u ++ bs))] at hle hge
        omega
      rw [List.cons_append, decode_cons, htrail, List.drop_left, ih, Glyph.eq_of_illFormed hill, htrail]
      rfl

theorem decodes_decode : ∀ bs : List UInt8, Decodes bs (decode bs)
  | [] => .nil
  | b :: bs => by
    have ih := decodes_decode (bs.drop (Glyph.read b bs).trail)
    have hsplit : (b :: bs.take (Glyph.read b bs).trail) ++ bs.drop (Glyph.read b bs).trail = b :: bs := by
      rw [List.cons_append, List.take_append_drop]
    have hlength : (b :: bs.take (Glyph.read b bs).trail).length - 1 = (Glyph.read b bs).trail := by
      rw [List.length_cons, List.length_take, Nat.min_eq_left (Glyph.read_trail_le b bs), Nat.add_sub_cancel]
    rw [decode_cons]
    cases h : (Glyph.read b bs).wellFormed with
    | true =>
      have hencode := Glyph.encodeChar_of_wellFormed h
      have hscalar := Decodes.scalar (Glyph.read b bs).char ih
      rw [← String.length_utf8EncodeChar, hencode, hlength, hsplit, ← h] at hscalar
      exact hscalar
    | false =>
      have hill := Decodes.illFormed (hsplit ▸ Glyph.not_encodeChar_of_illFormed h)
        (hsplit ▸ Glyph.maximalSubpart_of_illFormed h) ih
      rw [hlength, hsplit, ← Glyph.eq_of_illFormed h] at hill
      exact hill
termination_by bs => bs.length
decreasing_by simp only [List.length_drop, List.length_cons]; omega

/-- **The glyphs of a source are its lossy decoding**, the only one. -/
theorem decodes_iff {bs : List UInt8} {gs : List Glyph} : Decodes bs gs ↔ gs = decode bs :=
  ⟨eq_decode_of_decodes, fun h => h ▸ decodes_decode bs⟩

/-- A byte that begins no encoding, a beginning that lacks its last byte, and a surrogate. -/
example : decode [0xFF, 0xE2, 0x82, 0x41, 0xED, 0xA0, 0x80] =
    [⟨replacement, 0, false⟩, ⟨replacement, 1, false⟩, ⟨'A', 0, true⟩, ⟨replacement, 0, false⟩, ⟨replacement, 0, false⟩,
      ⟨replacement, 0, false⟩] := by decide

/-! ## Well-formed sources -/

/-- The bytes are those of a text. -/
def WellFormed (bs : List UInt8) : Prop := ∃ text : String, bs = encode text

/-- **A text is what its bytes are read as.** -/
theorem decode_flatMap_encodeChar (cs : List Char) :
    decode (cs.flatMap String.utf8EncodeChar) = cs.map fun c => ⟨c, c.utf8Size - 1, true⟩ := by
  refine (eq_decode_of_decodes ?_).symm
  induction cs with
  | nil => exact .nil
  | cons c cs ih =>
    rw [List.flatMap_cons, List.map_cons]
    exact .scalar c ih

/-- **Characters that were encoded** are encoded as they were. -/
theorem Decodes.flatMap_encodeChar {bs : List UInt8} {gs : List Glyph} (h : Decodes bs gs)
    (hgs : ∀ g ∈ gs, g.wellFormed = true) : (gs.map Glyph.char).flatMap String.utf8EncodeChar = bs := by
  induction h with
  | nil => rfl
  | scalar c _ ih => rw [List.map_cons, List.flatMap_cons, ih (List.forall_mem_cons.1 hgs).2]
  | illFormed => cases (List.forall_mem_cons.1 hgs).1

theorem flatMap_encodeChar_of_isValid {bs : List UInt8} (h : isValid bs = true) :
    (chars bs).flatMap String.utf8EncodeChar = bs :=
  (decodes_decode bs).flatMap_encodeChar (List.all_eq_true.1 h)

theorem isValid_iff {bs : List UInt8} : isValid bs = true ↔ WellFormed bs := by
  constructor
  · intro h
    refine ⟨lossy bs, ?_⟩
    rw [encode, lossy, String.toList_ofList, flatMap_encodeChar_of_isValid h]
  · rintro ⟨text, rfl⟩
    rw [isValid, encode, decode_flatMap_encodeChar]
    simp

end Utf8
end SchemeLexer
