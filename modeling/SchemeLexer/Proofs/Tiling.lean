import SchemeLexer.Proofs.Extent
import SchemeLexer.Proofs.Scans
/-!
# Tiling — tokens and blanks make up the source

The tokens of a source lie in it in order, each where its position says, and what lies between them is blank.  So
nothing of a source but blanks is missing from its tokens, and nothing stands in two of them.

`Tiles` says so of the tokens from an offset on, and a scan makes it true one lexeme at a time (`Scans.tiles`).  The
invariant is `BlankSince`: the text between the end of the last token and the present place is blank.
-/
namespace SchemeLexer

open Lexeme (Blank OpenEnded)

/-- The texts in front of each token, from the token before it or from an offset in front of the first. -/
def gaps (source : List UInt8) : Nat → List Token → List (List UInt8)
  | _, [] => []
  | i, t :: ts => source.extract i t.position.offset :: gaps source t.stop ts

/-- Texts of two lists in turn. -/
def interleave : List (List UInt8) → List (List UInt8) → List UInt8
  | x :: xs, y :: ys => x ++ y ++ interleave xs ys
  | _, _ => []

@[simp] theorem interleave_nil (ys : List (List UInt8)) : interleave [] ys = [] := rfl

@[simp] theorem interleave_cons (x y : List UInt8) (xs ys : List (List UInt8)) :
    interleave (x :: xs) (y :: ys) = x ++ y ++ interleave xs ys := rfl

/-- A gap that may stand in front of a token: it is blank, or ends the source in a line comment. -/
def IsGap (source gap : List UInt8) (t : Token) : Prop :=
  Blank (Utf8.chars gap) ∨
    (OpenEnded (Utf8.chars gap) ∧ t.kind = .endOfInput ∧ t.position.offset = source.length)

/-- Tokens that lie in a source without a loss. -/
structure Tiling (source : List UInt8) (ts : List Token) : Prop where
  ordered  : ts.Pairwise fun t u => t.position.offset < u.position.offset ∧ t.stop ≤ u.position.offset
  text     : ∀ t ∈ ts, t.stop ≤ source.length ∧ t.text = source.extract t.position.offset t.stop
  nonempty : ∀ t ∈ ts, t.kind.isTerminal = false → t.text ≠ []
  gap      : ∀ x ∈ (gaps source 0 ts).zip ts, IsGap source x.1 x.2
  /-- A gap is nothing but the end of the input to a scanner. -/
  silent   : ∀ name, ∀ g ∈ gaps source 0 ts, (Scanner.ofBytes name g).tokens.map Token.kind = [.endOfInput]
  /-- Without an error, the tokens and the gaps are the source. -/
  whole    : (∀ t ∈ ts, t.kind ≠ .invalid) →
    (∃ t ∈ ts.getLast?, t.stop = source.length) ∧ interleave (gaps source 0 ts) (ts.map Token.text) = source
  /-- With an error, they are the source up to the end of the token that shows it. -/
  upTo     : ∀ t ∈ ts, t.kind = .invalid → interleave (gaps source 0 ts) (ts.map Token.text) = source.take t.stop

/-! ## Where a token lies -/

/-- A place of a source: what is ahead of it is what the source holds from its offset on. -/
def Place.Within (source : List UInt8) (p : Place) : Prop :=
  p.position.offset + p.rest.length = source.length ∧ source.drop p.position.offset = p.rest

theorem Place.within_start (source : List UInt8) : Place.Within source ⟨.start, source⟩ := ⟨Nat.zero_add _, rfl⟩

theorem Place.Within.advance {source : List UInt8} {p : Place} (h : p.Within source) (n : Nat) :
    (p.advance n).Within source := by
  constructor
  · rw [Place.offset_advance_add_length, h.1]
  · rw [Place.offset_advance, Place.rest_advance, ← List.drop_drop, h.2]

theorem Place.Within.slice {source : List UInt8} {p : Place} (h : p.Within source) (q : Place) :
    p.slice q = source.extract p.position.offset q.position.offset := by
  rw [List.extract_eq_take_drop, h.2, Place.slice]

theorem Place.stop_token (p : Place) (kind : Kind) (n : Nat) :
    (p.token kind n).stop = (p.advance n).position.offset := Place.length_slice n p

theorem Place.chars_text_token (p : Place) (kind : Kind) (n : Nat) :
    Utf8.chars (p.token kind n).text = p.ahead.take n := Place.chars_slice n p

theorem Place.text_ne_nil {p : Place} {n : Nat} (hn : 0 < n) (h : p.ahead ≠ []) (kind : Kind) :
    (p.token kind n).text ≠ [] := by
  intro htext
  have hnil := p.chars_text_token kind n
  rw [htext, Utf8.chars_nil] at hnil
  rcases List.take_eq_nil_iff.1 hnil.symm with hzero | hnil
  · omega
  · exact h hnil

theorem Place.text_token_ne_nil {p : Place} {kind : Kind} {n : Nat} {owing : Bool}
    (h : Lexeme.first p.ahead = .token kind n owing) : (p.token kind n).text ≠ [] := by
  have hadv := Lexeme.advances_first p.ahead
  rw [h, Lexeme.advances_token] at hadv
  refine Place.text_ne_nil hadv (fun hnil => ?_) kind
  rw [hnil] at h
  cases h

/-- A token that lies in a source behind an offset, a gap in front of it. -/
structure Placed (source : List UInt8) (i : Nat) (t : Token) : Prop where
  after  : i ≤ t.position.offset
  inside : t.stop ≤ source.length
  text   : t.text = source.extract t.position.offset t.stop
  gap    : IsGap source (source.extract i t.position.offset) t

theorem Place.Within.placed {source : List UInt8} {m p : Place} (hm : m.Within source) (hp : p.Within source)
    (hle : m.position.offset ≤ p.position.offset) {kind : Kind} {n : Nat}
    (hgap : IsGap source (m.slice p) (p.token kind n)) : Placed source m.position.offset (p.token kind n) where
  after := hle
  inside := by
    have := (hp.advance n).1
    rw [Place.stop_token]
    omega
  text := by rw [Place.stop_token]; exact hp.slice _
  gap := by rw [hm.slice] at hgap; exact hgap

/-! ## The text since the last token

The last token ended at the place `m`, and at the place `p` the scan stands now. -/

/-- Nothing but a blank text lies between two places. -/
def BlankSince (m p : Place) : Prop := ∃ k, p = m.advance k ∧ Blank (m.ahead.take k)

/-- The source has ended in a line comment. -/
def OpenSince (m p : Place) : Prop := ∃ k, p = m.advance k ∧ OpenEnded (m.ahead.take k) ∧ p.ahead = []

namespace BlankSince

variable {m p : Place}

theorem refl (p : Place) : BlankSince p p := ⟨0, rfl, .nil⟩

theorem blank (h : BlankSince m p) : Blank (Utf8.chars (m.slice p)) := by
  obtain ⟨k, rfl, hb⟩ := h
  rw [Place.chars_slice]
  exact hb

theorem offset_le (h : BlankSince m p) : m.position.offset ≤ p.position.offset := by
  obtain ⟨k, rfl, -⟩ := h
  exact Place.offset_le_advance k m

theorem take_add (m : Place) (k n : Nat) : m.ahead.take (k + n) = m.ahead.take k ++ (m.advance k).ahead.take n := by
  rw [Place.ahead_advance, List.take_add]

theorem atmosphere (h : BlankSince m p) {u rest : List Char} (hp : p.ahead = u ++ rest) (hu : Lexeme.Atmosphere u) :
    BlankSince m (p.advance u.length) := by
  obtain ⟨k, rfl, hb⟩ := h
  refine ⟨k + u.length, (Place.advance_add ..).symm, ?_⟩
  rw [take_add, hp, List.take_left]
  exact hb.append hu.blank

theorem lineComment (h : BlankSince m p) {v : List Char} (hp : p.ahead = ';' :: v) (hv : '\n' ∉ v) :
    OpenSince m (p.advance (v.length + 1)) := by
  obtain ⟨k, rfl, hb⟩ := h
  refine ⟨k + (v.length + 1), (Place.advance_add ..).symm, ?_, ?_⟩
  · rw [take_add, hp, ← List.length_cons, List.take_length]
    exact hb.openEnded hv
  · rw [Place.ahead_advance, hp, ← List.length_cons, List.drop_length]

end BlankSince

theorem OpenSince.openEnded {m p : Place} (h : OpenSince m p) : OpenEnded (Utf8.chars (m.slice p)) := by
  obtain ⟨k, rfl, ho, -⟩ := h
  rw [Place.chars_slice]
  exact ho

theorem OpenSince.offset_le {m p : Place} (h : OpenSince m p) : m.position.offset ≤ p.position.offset := by
  obtain ⟨k, rfl, -⟩ := h
  exact Place.offset_le_advance k m

theorem OpenSince.ahead {m p : Place} (h : OpenSince m p) : p.ahead = [] := by
  obtain ⟨k, -, -, hnil⟩ := h
  exact hnil

/-! ## The scan of a source -/

/-- Tokens that lie in a source one behind the other, from an offset to its end or to an error. -/
inductive Tiles (source : List UInt8) : Nat → List Token → Prop
  | last {i : Nat} {t : Token} : Placed source i t →
    t.kind = .invalid ∨ (t.kind = .endOfInput ∧ t.stop = source.length) → Tiles source i [t]
  | cons {i : Nat} {t : Token} {ts : List Token} : Placed source i t → t.kind.isTerminal = false → t.text ≠ [] →
    Tiles source t.stop ts → Tiles source i (t :: ts)

theorem Place.Within.last {source : List UInt8} {p : Place} (hp : p.Within source) (h : p.ahead = []) :
    p.position.offset = source.length := by
  have := hp.1
  rwa [Utf8.chars_eq_nil h] at this

/-- **A scan lays its tokens out one behind the other**, a blank text in front of each. -/
theorem Scans.tiles {source : List UInt8} {owing : Bool} {p : Place} {ts : List Token} {e? : Option ScanError}
    (h : Scans owing p ts e?) : ∀ {m : Place}, m.Within source → p.Within source → BlankSince m p ∨ OpenSince m p →
      Tiles source m.position.offset ts := by
  induction h with
  | @skip p n ts e? hf _ ih =>
    intro m hm hp hgap
    rcases hgap with hb | ho
    · rcases Lexeme.skips_first hf with ⟨u, rest, hu, rfl, ha⟩ | ⟨v, hv, rfl, hnl⟩
      · exact ih hm (hp.advance _) (Or.inl (hb.atmosphere hu ha))
      · exact ih hm (hp.advance _) (Or.inr (hb.lineComment hv hnl))
    · rw [ho.ahead] at hf; cases hf
  | @token p kind n owing ts e? hf _ ih =>
    intro m hm hp hgap
    rcases hgap with hb | ho
    · obtain ⟨hkind, -⟩ := Lexeme.settled_first p.ahead kind n owing hf
      have htail := ih (hp.advance n) (hp.advance n) (Or.inl (.refl _))
      rw [← Place.stop_token p kind] at htail
      exact .cons (hm.placed hp hb.offset_le (Or.inl hb.blank)) hkind (Place.text_token_ne_nil hf) htail
    · rw [ho.ahead] at hf; cases hf
  | @invalid p e n hf =>
    intro m hm hp hgap
    rcases hgap with hb | ho
    · exact .last (hm.placed hp hb.offset_le (Or.inl hb.blank)) (Or.inl rfl)
    · rw [ho.ahead] at hf; cases hf
  | @done p hf =>
    intro m hm hp hgap
    have hend := hp.last (Lexeme.eq_nil_of_done hf)
    have hstop : (p.token .endOfInput 0).stop = source.length := by rw [Place.stop_token, Place.advance_zero, hend]
    rcases hgap with hb | ho
    · exact .last (hm.placed hp hb.offset_le (Or.inl hb.blank)) (Or.inr ⟨rfl, hstop⟩)
    · exact .last (hm.placed hp ho.offset_le (Or.inr ⟨ho.openEnded, rfl, hend⟩)) (Or.inr ⟨rfl, hstop⟩)
  | delimited _ _ ih => exact ih
  | @undelimited p hd =>
    intro m hm hp hgap
    rcases hgap with hb | ho
    · exact .last (hm.placed hp hb.offset_le (Or.inl hb.blank)) (Or.inl rfl)
    · rw [ho.ahead] at hd; exact absurd delimited_nil hd

theorem Scanner.tiles_tokens (name : String) (source : List UInt8) :
    Tiles source 0 (ofBytes name source).tokens := by
  have h := (scans_iff name source).2 ⟨rfl, rfl⟩
  exact h.tiles (Place.within_start source) (Place.within_start source) (Or.inl (.refl _))

/-! ## What tiling says -/

namespace Tiles

variable {source : List UInt8} {i : Nat} {ts : List Token}

theorem ne_nil (h : Tiles source i ts) : ts ≠ [] := by cases h <;> simp

theorem placed (h : Tiles source i ts) : ∀ t ∈ ts, ∃ j, i ≤ j ∧ Placed source j t := by
  induction h with
  | last hp =>
    intro t ht
    rw [List.mem_singleton.1 ht]
    exact ⟨_, Nat.le_refl _, hp⟩
  | cons hp _ _ _ ih =>
    intro t ht
    rcases List.mem_cons.1 ht with rfl | ht
    · exact ⟨_, Nat.le_refl _, hp⟩
    · obtain ⟨j, hj, hp'⟩ := ih t ht
      refine ⟨j, ?_, hp'⟩
      have := hp.after
      unfold Token.stop at hj
      omega

theorem after (h : Tiles source i ts) : ∀ t ∈ ts, i ≤ t.position.offset := by
  intro t ht
  obtain ⟨j, hj, hp⟩ := h.placed t ht
  exact Nat.le_trans hj hp.after

theorem ordered (h : Tiles source i ts) :
    ts.Pairwise fun t u => t.position.offset < u.position.offset ∧ t.stop ≤ u.position.offset := by
  induction h with
  | last => exact List.pairwise_singleton ..
  | @cons i t ts _ _ htext hrest ih =>
    refine List.Pairwise.cons ?_ ih
    intro u hu
    have hstop : t.stop ≤ u.position.offset := hrest.after u hu
    have hpos := List.length_pos_iff.2 htext
    refine ⟨?_, hstop⟩
    unfold Token.stop at hstop
    omega

theorem nonempty (h : Tiles source i ts) : ∀ t ∈ ts, t.kind.isTerminal = false → t.text ≠ [] := by
  induction h with
  | last _ hkind =>
    intro t ht hterm
    rw [List.mem_singleton.1 ht] at hterm
    rcases hkind with hkind | ⟨hkind, -⟩
    · rw [hkind] at hterm; cases hterm
    · rw [hkind] at hterm; cases hterm
  | cons _ _ htext _ ih =>
    intro t ht hterm
    rcases List.mem_cons.1 ht with rfl | ht
    · exact htext
    · exact ih t ht hterm

theorem gap (h : Tiles source i ts) : ∀ x ∈ (gaps source i ts).zip ts, IsGap source x.1 x.2 := by
  induction h with
  | last hp =>
    intro x hx
    rw [gaps, gaps, List.zip_cons_cons, List.zip_nil_left, List.mem_singleton] at hx
    rw [hx]
    exact hp.gap
  | cons hp _ _ _ ih =>
    intro x hx
    rw [gaps, List.zip_cons_cons, List.mem_cons] at hx
    rcases hx with rfl | hx
    · exact hp.gap
    · exact ih x hx

theorem extract_append (source : List UInt8) {i j k : Nat} (hij : i ≤ j) (hjk : j ≤ k) :
    source.extract i j ++ source.extract j k = source.extract i k := by
  have hk : k - i = (j - i) + (k - j) := by omega
  have hj : i + (j - i) = j := by omega
  simp only [List.extract_eq_take_drop]
  rw [hk, List.take_add, List.drop_drop, hj]

/-- The gaps and the texts are the source up to the end of the last token, which alone may be of a terminal kind. -/
theorem covers (h : Tiles source i ts) : ∃ t, ts.getLast? = some t ∧ i ≤ t.stop ∧
    (t.kind = .invalid ∨ (t.kind = .endOfInput ∧ t.stop = source.length)) ∧
    (∀ u ∈ ts, u.kind.isTerminal = true → u = t) ∧
    interleave (gaps source i ts) (ts.map Token.text) = source.extract i t.stop := by
  induction h with
  | @last i t hp hkind =>
    have hstop : t.position.offset ≤ t.stop := Nat.le_add_right ..
    refine ⟨t, rfl, Nat.le_trans hp.after hstop, hkind, fun u hu _ => List.mem_singleton.1 hu, ?_⟩
    rw [gaps, gaps, List.map_cons, List.map_nil, interleave_cons, interleave_nil, List.append_nil, hp.text,
      extract_append source hp.after hstop]
  | @cons i t ts hp hkind _ hrest ih =>
    obtain ⟨l, hlast, hle, hterm, honly, heq⟩ := ih
    have hstop : t.position.offset ≤ t.stop := Nat.le_add_right ..
    have hi : i ≤ t.stop := Nat.le_trans hp.after hstop
    refine ⟨l, ?_, Nat.le_trans hi hle, hterm, ?_, ?_⟩
    · rw [List.getLast?_cons_of_ne_nil hrest.ne_nil, hlast]
    · intro u hu hterm
      rcases List.mem_cons.1 hu with rfl | hu
      · rw [hkind] at hterm; cases hterm
      · exact honly u hu hterm
    · rw [gaps, List.map_cons, interleave_cons, heq, hp.text, extract_append source hp.after hstop,
        extract_append source hi hle]

end Tiles

theorem IsGap.silent {source g : List UInt8} {t : Token} (h : IsGap source g t) (name : String) :
    (Scanner.ofBytes name g).tokens.map Token.kind = [.endOfInput] := by
  have hscan : ∃ t, Scans false ⟨.start, g⟩ [t] none ∧ t.kind = .endOfInput := by
    rcases h with hb | ⟨⟨u, v, hg, hu, hv⟩, -⟩
    · refine ⟨_, .blank hb (List.append_nil _).symm (.of_ahead_nil ?_), rfl⟩
      rw [Place.ahead_advance]
      exact List.drop_length
    · have hahead : (Place.advance u.length ⟨.start, g⟩).ahead = ';' :: v := by
        rw [Place.ahead_advance, Place.ahead, hg, List.drop_left]
      refine ⟨_, .blank hu hg (.skip (hahead ▸ Lexeme.first_open hv) (.of_ahead_nil ?_)), rfl⟩
      rw [Place.ahead_advance, hahead, ← List.length_cons, List.drop_length]
  obtain ⟨t, ht, hkind⟩ := hscan
  rw [((Scanner.scans_iff name g).1 ht).1, List.map_singleton, hkind]

theorem exists_mem_zip_gaps {source g : List UInt8} : ∀ {i : Nat} {ts : List Token}, g ∈ gaps source i ts →
    ∃ t, (g, t) ∈ (gaps source i ts).zip ts
  | _, [], hg => by cases hg
  | i, t :: ts, hg => by
    rw [gaps, List.mem_cons] at hg
    rcases hg with rfl | hg
    · exact ⟨t, List.mem_cons_self⟩
    · obtain ⟨u, hu⟩ := exists_mem_zip_gaps hg
      exact ⟨u, List.mem_cons_of_mem _ hu⟩

/-- **The tokens of a source tile it.** -/
theorem tiling_tokens (name : String) (source : List UInt8) : Tiling source (Scanner.ofBytes name source).tokens := by
  have h := Scanner.tiles_tokens name source
  obtain ⟨l, hlast, -, hkind, honly, heq⟩ := h.covers
  rw [List.extract_eq_take_drop, List.drop_zero, Nat.sub_zero] at heq
  constructor
  case ordered => exact h.ordered
  case text =>
    intro t ht
    obtain ⟨j, -, hp⟩ := h.placed t ht
    exact ⟨hp.inside, hp.text⟩
  case nonempty => exact h.nonempty
  case gap => exact h.gap
  case silent =>
    intro name g hg
    obtain ⟨t, ht⟩ := exists_mem_zip_gaps hg
    exact (h.gap _ ht).silent name
  case whole =>
    intro hvalid
    rcases hkind with hkind | ⟨-, hstop⟩
    · exact absurd hkind (hvalid l (List.mem_of_getLast? hlast))
    · exact ⟨⟨l, hlast, hstop⟩, by rw [heq, hstop, List.take_length]⟩
  case upTo =>
    intro t ht hkind
    rw [heq, honly t ht (by rw [hkind]; rfl)]

end SchemeLexer
