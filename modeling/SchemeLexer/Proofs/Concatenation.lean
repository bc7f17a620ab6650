import SchemeLexer.Proofs.Layout
/-!
# Concatenation — a source with another behind it

Where a source that has no error ends, a source that begins with a delimiter may go on: the tokens of both together are
the tokens of the first and then those of the second, carried to where the second now stands (`Position.behind`).

Two facts meet here.  A scan that another source follows finds what it found before it (`Scans.join`), and a scan does
not mind where its source stands (`Scans.behind`).
-/
namespace SchemeLexer

open Utf8 (Glyph)
open Lexeme (Blank OpenEnded)

/-- A position of a source that stands behind `a`. -/
def Position.behind (a : List UInt8) (p : Position) : Position where
  offset := p.offset + a.length
  line   := p.line + (Utf8.chars a).count '\n'
  column := if p.line = 1 then p.column + ((Position.start.past a).column - 1) else p.column

def Place.behind (a : List UInt8) (p : Place) : Place := ⟨p.position.behind a, p.rest⟩

def Token.behind (a : List UInt8) (t : Token) : Token := { t with position := t.position.behind a }

/-- Whether a source, of which these are the tokens, ends inside a line comment. -/
def EndsInComment (source : List UInt8) (ts : List Token) : Prop :=
  ∃ g ∈ (gaps source 0 ts).getLast?, OpenEnded (Utf8.chars g)

/-! ## A scan elsewhere -/

theorem Position.line_le_after (p : Position) (g : Glyph) : p.line ≤ (p.after g).line := by
  unfold Position.after
  split
  · exact Nat.le_succ _
  · exact Nat.le_refl _

theorem Position.after_behind (a : List UInt8) {p : Position} (hp : 1 ≤ p.line) (g : Glyph) :
    (p.behind a).after g = (p.after g).behind a := by
  have hline : p.line + 1 ≠ 1 := by omega
  unfold Position.after
  by_cases hg : g.char = '\n'
  · simp only [if_pos hg, Position.behind, if_neg hline, Position.mk.injEq, and_true]
    omega
  · simp only [if_neg hg, Position.behind]
    split
    · simp only [Position.mk.injEq, true_and]
      omega
    · simp only [Position.mk.injEq, and_true]
      omega

namespace Place

theorem line_le_advance : ∀ (n : Nat) (p : Place), p.position.line ≤ (advance n p).position.line
  | 0, _ => Nat.le_refl _
  | _ + 1, ⟨_, []⟩ => Nat.le_refl _
  | n + 1, ⟨q, b :: bs⟩ => by
    rw [advance_succ_cons]
    exact Nat.le_trans (q.line_le_after _) (line_le_advance n ⟨_, _⟩)

theorem advance_behind (a : List UInt8) : ∀ (n : Nat) (p : Place), 1 ≤ p.position.line →
    advance n (p.behind a) = (advance n p).behind a
  | 0, _, _ => rfl
  | _ + 1, ⟨_, []⟩, _ => rfl
  | n + 1, ⟨q, b :: bs⟩, hp => by
    have hline := Nat.le_trans hp (q.line_le_after (Glyph.read b bs))
    have ih := advance_behind a n ⟨q.after (Glyph.read b bs), bs.drop (Glyph.read b bs).trail⟩ hline
    have hbehind : behind a ⟨q, b :: bs⟩ = ⟨q.behind a, b :: bs⟩ := rfl
    rw [advance_succ_cons, ← ih, hbehind, advance_succ_cons, Position.after_behind a hp]
    rfl

theorem token_behind (a : List UInt8) {p : Place} (hp : 1 ≤ p.position.line) (kind : Kind) (n : Nat) :
    (p.behind a).token kind n = (p.token kind n).behind a := by
  have hslice : (p.behind a).slice ((advance n p).behind a) = p.slice (advance n p) := by
    simp only [slice, behind, Position.behind, Nat.add_sub_add_right]
  rw [token, advance_behind a n p hp, hslice]
  rfl

end Place

/-- **A scan does not mind where its source stands.** -/
theorem Scans.behind (a : List UInt8) {owing : Bool} {p : Place} {ts : List Token} {e? : Option ScanError}
    (h : Scans owing p ts e?) (hp : 1 ≤ p.position.line) :
    Scans owing (p.behind a) (ts.map (Token.behind a)) e? := by
  induction h with
  | @skip p n ts e? hf _ ih =>
    refine .skip hf ?_
    rw [Place.advance_behind a n p hp]
    exact ih (Nat.le_trans hp (Place.line_le_advance n p))
  | @token p kind n owing ts e? hf _ ih =>
    rw [List.map_cons, ← Place.token_behind a hp]
    refine .token hf ?_
    rw [Place.advance_behind a n p hp]
    exact ih (Nat.le_trans hp (Place.line_le_advance n p))
  | invalid hf =>
    rw [List.map_singleton, ← Place.token_behind a hp]
    exact .invalid hf
  | done hf =>
    rw [List.map_singleton, ← Place.token_behind a hp]
    exact .done hf
  | delimited hd _ ih => exact .delimited hd (ih hp)
  | undelimited hd =>
    rw [List.map_singleton, ← Place.token_behind a hp]
    exact .undelimited hd

/-! ## The seam -/

theorem Place.past_advance {n : Nat} {p : Place} (h : n ≤ p.ahead.length) :
    (p.advance n).position.past (p.advance n).rest = p.position.past p.rest := by
  have hlen : (Utf8.chars (p.advance n).rest).length = p.ahead.length - n := by
    rw [← List.length_drop, ← Place.ahead_advance, Place.ahead]
  have hadd : Place.advance (n + (p.ahead.length - n)) p = Place.advance (p.ahead.length - n) (p.advance n) :=
    Place.advance_add ..
  rw [Nat.add_sub_cancel' h] at hadd
  rw [Position.past, Position.past, hlen, ← hadd, Place.ahead]

theorem Place.past_of_ahead_nil {p : Place} (h : p.ahead = []) : p.position.past p.rest = p.position := by
  rw [Position.past, ← Place.ahead, h]
  rfl

theorem Place.token_of_ahead_nil {p : Place} (h : p.ahead = []) :
    p.token .endOfInput 0 = ⟨.endOfInput, [], p.position.past p.rest⟩ := by
  rw [Place.past_of_ahead_nil h, Place.token, Place.slice, Utf8.chars_eq_nil h, List.take_nil]

theorem Place.token_followedBy {b : List UInt8} (hfresh : Utf8.Fresh b) {p : Place} {n : Nat}
    (h : n ≤ p.ahead.length) (kind : Kind) : (p.followedBy b).token kind n = p.token kind n := by
  rw [Place.token, Place.slice_followedBy hfresh h]
  rfl

theorem gaps_getLast? {source g : List UInt8} {i : Nat} {t : Token} {ts : List Token}
    (h : g ∈ (gaps source t.stop ts).getLast?) : g ∈ (gaps source i (t :: ts)).getLast? := by
  rw [Option.mem_def] at h
  rw [gaps, List.getLast?_cons, h]
  rfl

theorem Scans.eq_of_ahead_nil {p : Place} {ts : List Token} {e? : Option ScanError} (h : Scans false p ts e?)
    (hp : p.ahead = []) : ts = [p.token .endOfInput 0] ∧ e? = none := h.unique (.of_ahead_nil hp)

/-- Behind a line comment that ends a source comes nothing, or the newline that ends the comment. -/
theorem Scans.join_open {b : List UInt8} (hfresh : Utf8.Fresh b) (hb : b = [] ∨ b.head? = some 0x0A) {p : Place}
    {v : List Char} (hp : p.ahead = ';' :: v) (hv : '\n' ∉ v) {us : List Token} {f? : Option ScanError}
    (h : Scans false ⟨p.position.past p.rest, b⟩ us f?) : Scans false (p.followedBy b) us f? := by
  have hall : Place.advance p.ahead.length (p.followedBy b) = ⟨p.position.past p.rest, b⟩ :=
    Place.advance_all hfresh p.position p.rest
  have hahead : (p.followedBy b).ahead = ';' :: v ++ Utf8.chars b := by rw [Place.ahead_followedBy hfresh, hp]
  rw [hp, List.length_cons] at hall
  cases b with
  | nil =>
    rw [Utf8.chars_nil, List.append_nil] at hahead
    refine .skip (hahead ▸ Lexeme.first_open hv) ?_
    rwa [hall]
  | cons x b =>
    obtain rfl : x = 0x0A := by simpa using hb
    have hnewline : Utf8.chars (0x0A :: b) = ['\n'] ++ Utf8.chars b := Utf8.chars_cons ..
    have hskip := Lexeme.first_atmosphere (.space (c := '\n') rfl) (Utf8.chars b)
    have hline : Lexeme.Atmosphere (';' :: (v ++ ['\n'])) := .line hv
    have hfirst := Lexeme.first_atmosphere hline (Utf8.chars b)
    rw [← hnewline] at hskip
    refine .skip (n := v.length + 1 + 1) ?_ ?_
    · rw [hahead, hnewline]
      simpa using hfirst
    · have hnext := h.inv
      rw [Place.ahead, hskip] at hnext
      rw [Place.advance_add, hall]
      exact hnext

/-! ## Two sources -/

theorem Delimited.append {cs ds : List Char} (hcs : Delimited cs) (hds : Delimited ds) : Delimited (cs ++ ds) := by
  cases cs with
  | nil => exact hds
  | cons c cs => exact hcs

/-- **A scan without an error goes on where another source follows.**  As in `Scans.tiles`, a blank text lies between
the last token, which ended at `m`, and the present place. -/
theorem Scans.join {source b : List UInt8} (hfresh : Utf8.Fresh b) (hdel : Delimited (Utf8.chars b)) {owing : Bool}
    {p : Place} {ts : List Token} {e? : Option ScanError} (h : Scans owing p ts e?) :
    ∀ {m : Place}, e? = none → m.Within source → p.Within source → BlankSince m p →
      ((∃ g ∈ (gaps source m.position.offset ts).getLast?, OpenEnded (Utf8.chars g)) → b = [] ∨ b.head? = some 0x0A) →
      ∀ {us : List Token} {f? : Option ScanError}, Scans false ⟨p.position.past p.rest, b⟩ us f? →
        ∃ init, ts = init ++ [⟨.endOfInput, [], p.position.past p.rest⟩] ∧ Scans owing (p.followedBy b) (init ++ us) f? := by
  induction h with
  | @skip p n ts e? hf hrest ih =>
    intro m he hm hp hb hopen us f? hus
    rcases Lexeme.skips_first hf with ⟨u, rest, hu, rfl, ha⟩ | ⟨v, hv, rfl, hnl⟩
    · have hle : u.length ≤ p.ahead.length := by rw [hu, List.length_append]; omega
      rw [← Place.past_advance hle] at hus ⊢
      obtain ⟨init, hts, hinit⟩ := ih he hm (hp.advance _) (hb.atmosphere hu ha) hopen hus
      refine ⟨init, hts, .skip (n := u.length) ?_ ?_⟩
      · rw [Place.ahead_followedBy hfresh, hu, List.append_assoc]
        exact Lexeme.first_atmosphere ha _
      · rw [Place.advance_followedBy hfresh _ _ hle]
        exact hinit
    · -- the one case in which it matters what `b` begins with: `a` ends here, in the line comment
      have hle : v.length + 1 ≤ p.ahead.length := by rw [hv]; exact Nat.le_refl _
      have ho := hb.lineComment hv hnl
      obtain ⟨hts, -⟩ := hrest.eq_of_ahead_nil ho.ahead
      have hend : b = [] ∨ b.head? = some 0x0A := by
        refine hopen ⟨m.slice (p.advance (v.length + 1)), ?_, ho.openEnded⟩
        rw [hts, hm.slice]
        rfl
      refine ⟨[], ?_, .join_open hfresh hend hv hnl hus⟩
      rw [hts, ← Place.past_advance hle]
      exact congrArg (fun t => [t]) (Place.token_of_ahead_nil ho.ahead)
  | @token p kind n owing ts e? hf _ ih =>
    intro m he hm hp hb hopen us f? hus
    obtain ⟨-, w, rest, hcs, hn, hw⟩ := Lexeme.settled_first p.ahead kind n owing hf
    have hle : n ≤ p.ahead.length := by rw [hcs, hn, List.length_append]; omega
    have hopen' : (∃ g ∈ (gaps source (p.advance n).position.offset ts).getLast?, OpenEnded (Utf8.chars g)) →
        b = [] ∨ b.head? = some 0x0A := by
      rintro ⟨g, hg, ho⟩
      rw [← Place.stop_token p kind] at hg
      exact hopen ⟨g, gaps_getLast? hg, ho⟩
    rw [← Place.past_advance hle] at hus ⊢
    obtain ⟨init, hts, hinit⟩ := ih he (hp.advance n) (hp.advance n) (.refl _) hopen' hus
    have hfollows : Lexeme.Follows rest (rest ++ Utf8.chars b) := Or.inr ⟨_, hdel, rfl⟩
    have hf' : Lexeme.first (p.followedBy b).ahead = .token kind n owing := by
      rw [Place.ahead_followedBy hfresh, hcs, List.append_assoc, hw _ hfollows]
    rw [← Place.advance_followedBy hfresh n p hle] at hinit
    refine ⟨p.token kind n :: init, congrArg _ hts, ?_⟩
    rw [List.cons_append, ← Place.token_followedBy hfresh hle]
    exact .token hf' hinit
  | invalid => intro m he; cases he
  | @done p hf =>
    intro m he hm hp hb hopen us f? hus
    have hnil := Lexeme.eq_nil_of_done hf
    refine ⟨[], congrArg (fun t => [t]) (Place.token_of_ahead_nil hnil), ?_⟩
    rw [Place.past_of_ahead_nil hnil] at hus
    rw [List.nil_append, Place.followedBy, Utf8.chars_eq_nil hnil, List.nil_append]
    exact hus
  | @delimited p ts e? hd _ ih =>
    intro m he hm hp hb hopen us f? hus
    obtain ⟨init, hts, hinit⟩ := ih he hm hp hb hopen hus
    refine ⟨init, hts, .delimited ?_ hinit⟩
    rw [Place.ahead_followedBy hfresh]
    exact Delimited.append hd hdel
  | undelimited => intro m he; cases he

theorem Place.line_advance : ∀ (n : Nat) (p : Place),
    (advance n p).position.line = p.position.line + (p.ahead.take n).count '\n'
  | 0, _ => by simp
  | _ + 1, ⟨_, []⟩ => by simp [ahead]
  | n + 1, ⟨q, b :: bs⟩ => by
    rw [advance_succ_cons, line_advance n, ahead, ahead, Utf8.chars_cons, List.take_succ_cons, List.count_cons,
      Position.after]
    split
    · rename_i hg
      simp only [hg, beq_self_eq_true, if_true]
      omega
    · rename_i hg
      simp only [beq_iff_eq, hg, if_false]
      omega

theorem Place.column_pos : ∀ (n : Nat) (p : Place), 1 ≤ p.position.column → 1 ≤ (advance n p).position.column
  | 0, _, h => h
  | _ + 1, ⟨_, []⟩, h => h
  | n + 1, ⟨q, b :: bs⟩, h => by
    rw [advance_succ_cons]
    refine column_pos n _ ?_
    simp only [Position.after]
    split
    · exact Nat.le_refl _
    · exact Nat.succ_pos _

/-- The end of `a` is the start of what stands behind it. -/
theorem Position.behind_start (a : List UInt8) : Position.start.behind a = Position.start.past a := by
  have hoffset := Place.offset_advance_add_length (Utf8.chars a).length ⟨.start, a⟩
  rw [Place.rest_advance_all, List.length_nil, Nat.add_zero] at hoffset
  have hline := Place.line_advance (Utf8.chars a).length ⟨.start, a⟩
  rw [Place.ahead, List.take_length] at hline
  have hcolumn := Place.column_pos (Utf8.chars a).length ⟨.start, a⟩ (Nat.le_refl _)
  cases hpast : Position.start.past a with
  | mk offset line column =>
    have hadvance : (Place.advance (Utf8.chars a).length ⟨.start, a⟩).position = ⟨offset, line, column⟩ := hpast
    rw [hadvance] at hoffset hline hcolumn
    have hbehind : Position.start.behind a = ⟨0 + a.length, 1 + (Utf8.chars a).count '\n',
        1 + ((Position.start.past a).column - 1)⟩ := rfl
    rw [hbehind, hpast, Position.mk.injEq]
    simp only [Position.start] at hoffset hline hcolumn ⊢
    omega

/-- **The tokens of two sources, one behind the other,** are those of the first and then those of the second. -/
theorem tokens_append (name : String) {a b : List UInt8} (ha : (Scanner.ofBytes name a).finish.error? = none)
    (hb : Delimited (Utf8.chars b))
    (hseam : ¬ EndsInComment a (Scanner.ofBytes name a).tokens ∨ b = [] ∨ b.head? = some 0x0A) :
    ∃ ts, (Scanner.ofBytes name a).tokens = ts ++ [⟨.endOfInput, [], Position.start.past a⟩] ∧
      (Scanner.ofBytes name (a ++ b)).tokens = ts ++ (Scanner.ofBytes name b).tokens.map (Token.behind a) ∧
      (Scanner.ofBytes name (a ++ b)).finish.error? = (Scanner.ofBytes name b).finish.error? := by
  have hscan : Scans false ⟨.start, a⟩ (Scanner.ofBytes name a).tokens none :=
    (Scanner.scans_iff name a).2 ⟨rfl, ha⟩
  have hscan' := ((Scanner.scans_iff name b).2 ⟨rfl, rfl⟩).behind a (Nat.le_refl _)
  rw [Place.behind, Position.behind_start] at hscan'
  have hopen : (∃ g ∈ (gaps a 0 (Scanner.ofBytes name a).tokens).getLast?, OpenEnded (Utf8.chars g)) →
      b = [] ∨ b.head? = some 0x0A := fun ho => hseam.resolve_left fun hclosed => hclosed ho
  obtain ⟨ts, hts, hjoin⟩ := hscan.join hb.fresh hb rfl (Place.within_start a) (Place.within_start a) (.refl _) hopen hscan'
  exact ⟨ts, hts, (Scanner.scans_iff name (a ++ b)).1 hjoin⟩

/-- A line comment that ends one source, and a newline that ends it in the next. -/
theorem tokens_append_newline :
    (Scanner.ofBytes "seam" (Utf8.ascii ['x', ';', 'c'] ++ Utf8.ascii ['\n', '('])).tokens =
      [⟨.identifier, Utf8.ascii ['x'], ⟨0, 1, 1⟩⟩, ⟨.openParen, Utf8.ascii ['('], ⟨4, 2, 1⟩⟩,
        ⟨.endOfInput, [], ⟨5, 2, 2⟩⟩] := by
  have ha : Scans false ⟨.start, Utf8.ascii ['x', ';', 'c']⟩ _ _ :=
    .token rfl (.delimited rfl (.skip rfl (.of_ahead_nil rfl)))
  have hb : Scans false ⟨.start, Utf8.ascii ['\n', '(']⟩ _ _ := .skip rfl (.token rfl (.of_ahead_nil rfl))
  obtain ⟨htokens, herror⟩ := (Scanner.scans_iff "seam" _).1 ha
  obtain ⟨ts, hts, hjoin, -⟩ := tokens_append "seam" herror (b := Utf8.ascii ['\n', '(']) rfl (Or.inr (Or.inr rfl))
  obtain rfl : ts = [⟨.identifier, Utf8.ascii ['x'], ⟨0, 1, 1⟩⟩] := by
    rw [htokens] at hts
    exact (List.append_inj_left' hts rfl).symm
  rw [hjoin, ((Scanner.scans_iff "seam" _).1 hb).1]
  rfl

end SchemeLexer
