import SchemeLexer.Proofs.Layout
/-!
# Opening — the token that a source begins with

The lexeme at the head of a source is the first thing that a scanner makes of it: a token of it is the first token, and
an error of it the whole stream (`head?_tokens_of_first`, `tokens_of_first_invalid`).  The other way round, a first token
that stands at the start of its source is the lexeme at the head (`opens_iff`).
-/
namespace SchemeLexer

open Utf8 (IsAscii ascii chars width)

theorem Scans.offset_le {owing : Bool} {p : Place} {ts : List Token} {e? : Option ScanError} (h : Scans owing p ts e?) :
    ∀ t ∈ ts, p.position.offset ≤ t.position.offset := by
  induction h with
  | skip _ _ ih => exact fun t ht => Nat.le_trans (Place.offset_le_advance ..) (ih t ht)
  | token _ _ ih =>
    intro t ht
    rcases List.mem_cons.1 ht with rfl | ht
    · exact Nat.le_refl _
    · exact Nat.le_trans (Place.offset_le_advance ..) (ih t ht)
  | invalid => exact fun t ht => List.mem_singleton.1 ht ▸ Nat.le_refl _
  | done => exact fun t ht => List.mem_singleton.1 ht ▸ Nat.le_refl _
  | delimited _ _ ih => exact ih
  | undelimited => exact fun t ht => List.mem_singleton.1 ht ▸ Nat.le_refl _

theorem Utf8.width_pos {n : Nat} {bs : List UInt8} (hn : 0 < n) (h : bs ≠ []) : 0 < width n bs := by
  cases n with
  | zero => cases hn
  | succ n =>
    cases bs with
    | nil => exact absurd rfl h
    | cons b bs => rw [width_succ_cons]; omega

/-- The text of a token that an ASCII character ends. -/
theorem Place.token_append_ascii {c : Char} (hc : c.toNat < 0x80) (q : Position) (w rest : List UInt8) (kind : Kind) :
    Place.token ⟨q, w ++ ascii [c] ++ rest⟩ kind ((chars w).length + 1) = ⟨kind, w ++ ascii [c], q⟩ := by
  have htext := Place.slice_advance ((chars w).length + 1) ⟨q, w ++ ascii [c] ++ rest⟩
  rw [Utf8.width_append_ascii hc, List.take_left] at htext
  rw [Place.token, htext]

theorem Place.token_ascii {cs : List Char} (h : IsAscii cs) (q : Position) (rest : List UInt8) (kind : Kind) :
    Place.token ⟨q, ascii cs ++ rest⟩ kind cs.length = ⟨kind, ascii cs, q⟩ := by
  have htext := Place.slice_advance cs.length ⟨q, ascii cs ++ rest⟩
  rw [Utf8.width_ascii_append h, List.take_left' (Utf8.length_ascii cs)] at htext
  rw [Place.token, htext]

namespace Scanner

variable {name : String} {source : List UInt8}

theorem head?_tokens_of_first {kind : Kind} {n : Nat} {owing : Bool}
    (h : Lexeme.first (chars source) = .token kind n owing) :
    (ofBytes name source).tokens.head? = some (Place.token ⟨.start, source⟩ kind n) := by
  have hscan := ((scans_iff name source).2 ⟨rfl, rfl⟩).inv
  rw [Place.ahead, h] at hscan
  obtain ⟨us, hts, -⟩ := hscan
  rw [hts]
  rfl

theorem tokens_of_first_invalid {e : ScanError} {n : Nat} (h : Lexeme.first (chars source) = .invalid e n) :
    (ofBytes name source).tokens = [Place.token ⟨.start, source⟩ .invalid n] ∧
      (ofBytes name source).finish.error? = some e :=
  (scans_iff name source).1 (.invalid h)

/-- A first token at the start of its source is the lexeme at the head. -/
theorem first_of_head?_tokens {t : Token} (h : (ofBytes name source).tokens.head? = some t)
    (hstart : t.position.offset = 0) (hkind : t.kind.isTerminal = false) :
    ∃ n owing, Lexeme.first (chars source) = .token t.kind n owing ∧ t = Place.token ⟨.start, source⟩ t.kind n := by
  have hscan := ((scans_iff name source).2 ⟨rfl, rfl⟩).inv
  rw [Place.ahead] at hscan
  cases hf : Lexeme.first (chars source) with
  | skip n =>
    rw [hf] at hscan
    have hadv := Lexeme.advances_first (chars source)
    rw [hf, Lexeme.advances_skip] at hadv
    have hne : source ≠ [] := by
      rintro rfl
      cases hf
    have hpos := Utf8.width_pos hadv hne
    have hle := hscan.offset_le t (List.mem_of_head? h)
    rw [Place.offset_advance, hstart] at hle
    exact absurd (Nat.le_trans (Nat.le_add_left ..) hle) (Nat.not_le_of_lt hpos)
  | token kind n owing =>
    rw [hf] at hscan
    obtain ⟨us, hts, -⟩ := hscan
    rw [hts, List.head?_cons, Option.some.injEq] at h
    subst h
    exact ⟨n, owing, rfl, rfl⟩
  | invalid e n =>
    rw [hf] at hscan
    rw [hscan.1, List.head?_cons, Option.some.injEq] at h
    subst h
    cases hkind
  | done =>
    rw [hf] at hscan
    rw [hscan.1, List.head?_cons, Option.some.injEq] at h
    subst h
    cases hkind

/-- A source begins with a token: its first one is of this kind and this text, and stands at its start. -/
def Opens (name : String) (source : List UInt8) (kind : Kind) (w : List UInt8) : Prop :=
  ∃ t, (ofBytes name source).tokens.head? = some t ∧ t.position.offset = 0 ∧ t.kind = kind ∧ t.text = w

/-- **A source begins with a token** exactly when that is the lexeme at its head. -/
theorem opens_iff {kind : Kind} (hkind : kind.isTerminal = false) {w : List UInt8} : Opens name source kind w ↔
    ∃ n owing, Lexeme.first (chars source) = .token kind n owing ∧ Place.token ⟨.start, source⟩ kind n = ⟨kind, w, .start⟩ := by
  constructor
  · rintro ⟨t, ht, hstart, rfl, rfl⟩
    obtain ⟨n, owing, hf, heq⟩ := first_of_head?_tokens ht hstart hkind
    have hposition : t.position = .start := by rw [heq, Place.token]
    exact ⟨n, owing, hf, by rw [← heq, ← hposition]⟩
  · rintro ⟨n, owing, hf, heq⟩
    exact ⟨_, head?_tokens_of_first hf, rfl, rfl, congrArg Token.text heq⟩

end Scanner
end SchemeLexer
