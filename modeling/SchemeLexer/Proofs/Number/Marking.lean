import SchemeLexer.Number.Marked
import SchemeLexer.Proofs.Number.Grammar
/-!
# Marking — the markers in front of a number

A number behind a hash sign has a letter for its radix, a letter for its exactness, or both in either order with a hash
sign between them (`Marking`).  The rule for such a number goes round once for each letter and remembers what it has
had: `Marked m` is what it goes round for when it has had the marks `m`.  Behind that it reads a number of the radix
marked, and it reads a number nowhere else (`afterMarks_cases`).
-/
namespace SchemeLexer
namespace Number

/-- The letters that designate a radix. -/
def designators : List (Char × Radix) :=
  [('b', .binary), ('B', .binary), ('o', .octal), ('O', .octal), ('d', .decimal), ('D', .decimal),
    ('x', .hexadecimal), ('X', .hexadecimal)]

/-- The letters that say whether a number is exact. -/
def exactnessLetters : List Char := ['e', 'E', 'i', 'I']

/-- The markers of a number behind its first hash sign, and the radix that they give it. -/
inductive Marking : List Char → Radix → Prop
  | radix {c : Char} {r : Radix} : (c, r) ∈ designators → Marking [c] r
  | exactness {c : Char} : c ∈ exactnessLetters → Marking [c] .decimal
  | radixExactness {c d : Char} {r : Radix} : (c, r) ∈ designators → d ∈ exactnessLetters → Marking [c, '#', d] r
  | exactnessRadix {c d : Char} {r : Radix} : c ∈ exactnessLetters → (d, r) ∈ designators → Marking [c, '#', d] r

/-! ## Letters -/

/-- What is like a small letter is that letter or its capital. -/
theorem eq_or_eq_of_fold {c d e : Char} (hd : 97 ≤ d.toNat ∧ d.toNat ≤ 122) (he : e.toNat + 32 = d.toNat)
    (h : Caseless.fold c = d) : c = d ∨ c = e := by
  rwa [Caseless.fold_eq_iff hd, ← he, Nat.add_right_cancel_iff, he, Char.toNat_inj, Char.toNat_inj] at h

theorem ofDesignator?_iff {c : Char} {r : Radix} : Radix.ofDesignator? c = some r ↔ (c, r) ∈ designators := by
  constructor
  · intro h
    have hletter : ∀ {d e : Char}, 97 ≤ d.toNat ∧ d.toNat ≤ 122 → e.toNat + 32 = d.toNat → (d, r) ∈ designators →
        (e, r) ∈ designators → Caseless.fold c = d → (c, r) ∈ designators := by
      intro d e hd he hdr her hfold
      rcases eq_or_eq_of_fold hd he hfold with rfl | rfl
      · exact hdr
      · exact her
    unfold Radix.ofDesignator? at h
    repeat' split at h
    all_goals cases h
    · exact hletter (d := 'b') (e := 'B') (by decide) rfl (by decide) (by decide) ‹_›
    · exact hletter (d := 'o') (e := 'O') (by decide) rfl (by decide) (by decide) ‹_›
    · exact hletter (d := 'd') (e := 'D') (by decide) rfl (by decide) (by decide) ‹_›
    · exact hletter (d := 'x') (e := 'X') (by decide) rfl (by decide) (by decide) ‹_›
  · exact (by decide : ∀ p ∈ designators, Radix.ofDesignator? p.1 = some p.2) (c, r)

theorem ofChar?_radix_iff {c : Char} {r : Radix} : Marker.ofChar? c = some (.radix r) ↔ (c, r) ∈ designators := by
  rw [← ofDesignator?_iff, Marker.ofChar?]
  cases Radix.ofDesignator? c with
  | none => simp
  | some r' => simp

theorem mem_exactnessLetters {c : Char} : c ∈ exactnessLetters ↔ c = 'e' ∨ c = 'E' ∨ c = 'i' ∨ c = 'I' := by
  simp [exactnessLetters]

theorem ofChar?_exactness_iff {c : Char} : Marker.ofChar? c = some .exactness ↔ c ∈ exactnessLetters := by
  constructor
  · intro h
    unfold Marker.ofChar? at h
    split at h
    · cases h
    · split at h
      · rename_i hfold
        rcases hfold with hfold | hfold
        · rcases eq_or_eq_of_fold (e := 'E') (by decide) rfl hfold with rfl | rfl <;> decide
        · rcases eq_or_eq_of_fold (e := 'I') (by decide) rfl hfold with rfl | rfl <;> decide
      · cases h
  · intro h
    rcases mem_exactnessLetters.1 h with rfl | rfl | rfl | rfl <;> rfl

theorem isLetter_of_marker {c : Char} (h : (Marker.ofChar? c).isSome = true) : isLetter c = true := by
  cases hc : Marker.ofChar? c with
  | none => rw [hc] at h; cases h
  | some k =>
    cases k with
    | radix r => exact (by decide : ∀ p ∈ designators, isLetter p.1 = true) (c, r) (ofChar?_radix_iff.1 hc)
    | exactness =>
      rcases mem_exactnessLetters.1 (ofChar?_exactness_iff.1 hc) with rfl | rfl | rfl | rfl <;> rfl

/-! ## One marker more -/

section
variable {m m' : Marks} {c : Char}

/-- A further marker is a letter of a sort that was not had before. -/
theorem add_cases (hm : (Marker.ofChar? c).bind m.add? = some m') :
    (∃ r, (c, r) ∈ designators ∧ m.radix? = none ∧ m' = { m with radix? := some r }) ∨
      (c ∈ exactnessLetters ∧ m.exactness = false ∧ m' = { m with exactness := true }) := by
  obtain ⟨k, hk, hadd⟩ := Option.bind_eq_some_iff.1 hm
  cases k with
  | radix r =>
    simp only [Marks.add?] at hadd
    split at hadd
    · rename_i hnone
      exact Or.inl ⟨r, ofChar?_radix_iff.1 hk, by simpa using hnone, (Option.some.inj hadd).symm⟩
    · cases hadd
  | exactness =>
    simp only [Marks.add?] at hadd
    split at hadd
    · cases hadd
    · rename_i hnone
      exact Or.inr ⟨ofChar?_exactness_iff.1 hk, by simpa using hnone, (Option.some.inj hadd).symm⟩

theorem add_radix {r : Radix} (hc : (c, r) ∈ designators) (hm : m.radix? = none) :
    (Marker.ofChar? c).bind m.add? = some { m with radix? := some r } := by
  simp [ofChar?_radix_iff.2 hc, Marks.add?, hm]

theorem add_exactness (hc : c ∈ exactnessLetters) (hm : m.exactness = false) :
    (Marker.ofChar? c).bind m.add? = some { m with exactness := true } := by
  simp [ofChar?_exactness_iff.2 hc, Marks.add?, hm]

variable (hm : (Marker.ofChar? c).bind m.add? = some m')
include hm

theorem toNat_lt_of_marker : c.toNat < 0x80 := by
  obtain ⟨k, hk, -⟩ := Option.bind_eq_some_iff.1 hm
  have hletter : isLetter c = true := isLetter_of_marker (by rw [hk]; rfl)
  exact toNat_lt_of_isSubsequent (isSubsequent_of_isInitial (by rw [isInitial, hletter, Bool.true_or]))

theorem afterMarks_hash (cs : List Char) : afterMarks m (c :: '#' :: cs) = (afterMarks m' cs).shift 2 := by
  rw [afterMarks, hm]
  exact if_pos rfl

/-- Where no further marker is begun a number is read. -/
theorem afterMarks_behind {t : List Char} (ht : t.head? ≠ some '#') :
    afterMarks m (c :: t) = (complex m'.radix t).shift 1 := by
  rw [afterMarks, hm]
  cases t with
  | nil => rfl
  | cons d t => exact if_neg fun hd => ht (congrArg some hd)

theorem afterMarks_cons {d : Char} (hd : d ≠ '#') (cs : List Char) :
    afterMarks m (c :: d :: cs) = (complex m'.radix (d :: cs)).shift 1 :=
  afterMarks_behind hm fun hhash => hd (Option.some.inj hhash)

end

/-! ## All of them -/

/-- Further markers behind the marks `m`, and the radix that comes of them. -/
inductive Marked : Marks → List Char → Radix → Prop
  | last {m m' : Marks} {c : Char} : (Marker.ofChar? c).bind m.add? = some m' → Marked m [c] m'.radix
  | more {m m' : Marks} {c : Char} {w : List Char} {r : Radix} :
    (Marker.ofChar? c).bind m.add? = some m' → Marked m' w r → Marked m (c :: '#' :: w) r

section
variable {m : Marks} {w : List Char} {r : Radix}

theorem Marked.isAscii (h : Marked m w r) : Utf8.IsAscii w := by
  induction h with
  | last hm => exact List.forall_mem_singleton.2 (toNat_lt_of_marker hm)
  | more hm _ ih => exact List.forall_mem_cons.2 ⟨toNat_lt_of_marker hm, List.forall_mem_cons.2 ⟨by decide, ih⟩⟩

theorem Marked.exists_cons (h : Marked m w r) : ∃ c v, w = c :: v ∧ (Marker.ofChar? c).isSome = true := by
  have hsome : ∀ {m m' : Marks} {c : Char}, (Marker.ofChar? c).bind m.add? = some m' →
      (Marker.ofChar? c).isSome = true := by
    intro m m' c hm
    obtain ⟨k, hk, -⟩ := Option.bind_eq_some_iff.1 hm
    rw [hk]
    rfl
  cases h with
  | last hm => exact ⟨_, [], rfl, hsome hm⟩
  | more hm => exact ⟨_, _, rfl, hsome hm⟩

/-- **Behind the markers a number is read.** -/
theorem Marked.afterMarks (h : Marked m w r) {t : List Char} (ht : t.head? ≠ some '#') :
    afterMarks m (w ++ t) = (complex r t).shift w.length := by
  induction h with
  | last hm => exact afterMarks_behind hm ht
  | more hm _ ih =>
    rw [List.cons_append, List.cons_append, afterMarks_hash hm, ih, Reading.shift_shift, List.length_cons,
      List.length_cons, Nat.add_comm]

/-- **Markers end in one place.** -/
theorem Marked.unique (h : Marked m w r) {t w' t' : List Char} {r' : Radix} (h' : Marked m w' r')
    (ht : t.head? ≠ some '#') (ht' : t'.head? ≠ some '#') (heq : w ++ t = w' ++ t') : w = w' ∧ r = r' := by
  induction h generalizing w' with
  | last hm =>
    cases h' with
    | last hm' =>
      obtain ⟨rfl, -⟩ := List.cons.inj heq
      rw [hm, Option.some.injEq] at hm'
      exact ⟨rfl, congrArg Marks.radix hm'⟩
    | more => exact absurd (congrArg List.head? (List.cons.inj heq).2) ht
  | more hm _ ih =>
    cases h' with
    | last => exact absurd (congrArg List.head? (List.cons.inj heq).2.symm) ht'
    | more hm' h' =>
      obtain ⟨rfl, htail⟩ := List.cons.inj heq
      rw [hm, Option.some.injEq] at hm'
      subst hm'
      obtain ⟨rfl, rfl⟩ := ih h' (List.cons.inj htail).2
      exact ⟨rfl, rfl⟩

/-- **A text begins with markers**, behind which a number is read, or the error is that it does not. -/
theorem afterMarks_cases : ∀ (m : Marks) (cs : List Char),
    (∃ w r t, cs = w ++ t ∧ Marked m w r ∧ t.head? ≠ some '#') ∨ (afterMarks m cs).error? = some .invalidPrefix
  | _, [] => Or.inr rfl
  | m, c :: cs => by
    cases hm : (Marker.ofChar? c).bind m.add? with
    | none => exact Or.inr (by rw [Number.afterMarks, hm]; rfl)
    | some m' =>
      by_cases hhash : cs.head? = some '#'
      · obtain ⟨ds, rfl⟩ := List.head?_eq_some_iff.1 hhash
        rcases afterMarks_cases m' ds with ⟨w, r, t, rfl, hw, ht⟩ | herror
        · exact Or.inl ⟨c :: '#' :: w, r, t, rfl, .more hm hw, ht⟩
        · exact Or.inr (by rw [afterMarks_hash hm, Reading.error?_shift, herror])
      · exact Or.inl ⟨[c], m'.radix, cs, rfl, .last hm, hhash⟩
termination_by _ cs => cs.length

theorem not_marked_full {r' : Radix} : ¬ Marked ⟨some r', true⟩ w r := by
  have hadd : ∀ {c : Char} {m' : Marks}, (Marker.ofChar? c).bind (Marks.add? ⟨some r', true⟩) ≠ some m' := by
    intro c m' hm
    rcases add_cases hm with ⟨_, _, hnone, _⟩ | ⟨_, hnone, _⟩ <;> cases hnone
  intro h
  cases h with
  | last hm => exact hadd hm
  | more hm => exact hadd hm

/-- **From no marks on** it is one letter, or two of different sorts. -/
theorem marked_iff : Marked ⟨none, false⟩ w r ↔ Marking w r := by
  constructor
  · intro h
    cases h with
    | last hm =>
      rcases add_cases hm with ⟨r, hc, -, rfl⟩ | ⟨hc, -, rfl⟩
      · exact .radix hc
      · exact .exactness hc
    | more hm h =>
      rcases add_cases hm with ⟨r', hc, -, rfl⟩ | ⟨hc, -, rfl⟩
      · cases h with
        | last hm =>
          rcases add_cases hm with ⟨_, -, hnone, -⟩ | ⟨hd, -, rfl⟩
          · cases hnone
          · exact .radixExactness hc hd
        | more hm h =>
          rcases add_cases hm with ⟨_, -, hnone, -⟩ | ⟨hd, -, rfl⟩
          · cases hnone
          · exact absurd h not_marked_full
      · cases h with
        | last hm =>
          rcases add_cases hm with ⟨r', hd, -, rfl⟩ | ⟨-, hnone, -⟩
          · exact .exactnessRadix hc hd
          · cases hnone
        | more hm h =>
          rcases add_cases hm with ⟨r', hd, -, rfl⟩ | ⟨-, hnone, -⟩
          · exact absurd h not_marked_full
          · cases hnone
  · intro h
    cases h with
    | radix hc => exact .last (add_radix hc rfl)
    | exactness hc => exact .last (add_exactness hc rfl)
    | radixExactness hc hd => exact .more (add_radix hc rfl) (.last (add_exactness hd rfl))
    | exactnessRadix hc hd => exact .more (add_exactness hc rfl) (.last (add_radix hd rfl))

end

end Number
end SchemeLexer
