import SchemeLexer.Proofs.Layout
/-!
# Words — sources of one word

A source without a delimiter is a single token exactly when its text is a single lexeme (`contents_iff`): nothing of it
can be skipped, and nothing can stand behind a first token.
-/
namespace SchemeLexer

/-- What is skipped has a delimiter in it. -/
theorem Lexeme.not_skip_of_undelimited {cs : List Char} (h : Undelimited cs) (n : Nat) : first cs ≠ .skip n := by
  intro hskip
  have hmem : ∃ c ∈ cs, isDelimiter c = true := by
    rcases skips_first hskip with ⟨u, rest, rfl, -, ha⟩ | ⟨v, rfl, -⟩
    · cases ha with
      | space hc => exact ⟨_, List.mem_cons_self, isDelimiter_of_isWhitespace hc⟩
      | line => exact ⟨';', List.mem_cons_self, rfl⟩
      | block => exact ⟨'|', List.mem_cons_of_mem _ List.mem_cons_self, rfl⟩
    · exact ⟨';', List.mem_cons_self, rfl⟩
  obtain ⟨c, hc, hdel⟩ := hmem
  rw [h c hc] at hdel
  cases hdel

/-- Where no delimiter is left, a scan comes to its end without a token only at the end. -/
theorem Scans.ahead_eq_nil {owing : Bool} {p : Place} {ts : List Token} {e? : Option ScanError}
    (h : Scans owing p ts e?) (hp : Undelimited p.ahead) (hts : ts.map Token.kind = [.endOfInput]) : p.ahead = [] := by
  cases h with
  | skip hf => exact absurd hf (Lexeme.not_skip_of_undelimited hp _)
  | token hf =>
    obtain ⟨hkind, -⟩ := Lexeme.settled_first p.ahead _ _ _ hf
    obtain ⟨rfl, -⟩ := List.cons.inj hts
    cases hkind
  | invalid => cases hts
  | done hf => exact Lexeme.eq_nil_of_done hf
  | delimited hd => exact hp.eq_nil hd
  | undelimited => cases hts

namespace Scanner

variable {s : List UInt8} {kind : Kind}

/-- A source that is one lexeme is one token. -/
theorem contents_of_first (name : String) {owing : Bool}
    (h : Lexeme.first (Utf8.chars s) = .token kind (Utf8.chars s).length owing) :
    (ofBytes name s).tokens.map Token.content = [(kind, s), (.endOfInput, [])] := by
  have hend : Place.advance (Utf8.chars s).length ⟨.start, s⟩ = ⟨Position.start.past s, []⟩ := by
    simpa using Place.advance_all Utf8.fresh_nil .start s
  have htext : Place.slice ⟨.start, s⟩ (Place.advance (Utf8.chars s).length ⟨.start, s⟩) = s := by
    simpa using Place.slice_all Utf8.fresh_nil .start s
  have hrest : Scans owing (Place.advance (Utf8.chars s).length ⟨.start, s⟩)
      [Place.token ⟨Position.start.past s, []⟩ .endOfInput 0] none := by
    rw [hend]
    cases owing with
    | false => exact .of_ahead_nil rfl
    | true => exact .delimited delimited_nil (.of_ahead_nil rfl)
  rw [((scans_iff name s).1 (.token h hrest)).1, List.map_cons, Token.content, Place.token, htext]
  simp [Token.content, Place.token, Place.slice]

theorem first_of_kinds {name : String} (hs : Undelimited (Utf8.chars s)) (hkind : kind.isTerminal = false)
    (h : (ofBytes name s).tokens.map Token.kind = [kind, .endOfInput]) :
    ∃ owing, Lexeme.first (Utf8.chars s) = .token kind (Utf8.chars s).length owing := by
  have hscan := ((scans_iff name s).2 ⟨rfl, rfl⟩).inv
  rw [Place.ahead] at hscan
  cases hf : Lexeme.first (Utf8.chars s) with
  | skip n => exact absurd hf (Lexeme.not_skip_of_undelimited hs n)
  | token kind' n owing =>
    rw [hf] at hscan
    obtain ⟨us, hts, hus⟩ := hscan
    rw [hts, List.map_cons, List.cons.injEq] at h
    obtain ⟨hkind', hus'⟩ := h
    obtain rfl : kind' = kind := hkind'
    obtain ⟨-, w, rest, hcs, hn, -⟩ := Lexeme.settled_first _ _ _ _ hf
    have hahead : (Place.advance n ⟨.start, s⟩).ahead = rest := by
      rw [Place.ahead_advance, Place.ahead, hcs, hn, Nat.zero_add, List.drop_left]
    have hnil := hus.ahead_eq_nil (fun c hc => hs c (List.mem_of_mem_drop (Place.ahead_advance n _ ▸ hc))) hus'
    rw [hahead] at hnil
    rw [hnil, List.append_nil] at hcs
    refine ⟨owing, ?_⟩
    rw [hcs, hn, Nat.zero_add]
  | invalid e n =>
    rw [hf] at hscan
    rw [hscan.1] at h
    cases h
  | done =>
    rw [hf] at hscan
    rw [hscan.1] at h
    cases h

theorem kinds_of_contents {name : String} (h : (ofBytes name s).tokens.map Token.content = [(kind, s), (.endOfInput, [])]) :
    (ofBytes name s).tokens.map Token.kind = [kind, .endOfInput] := by
  have := congrArg (List.map Prod.fst) h
  rwa [List.map_map] at this

/-- **A source without delimiters is one token** exactly when it is one lexeme. -/
theorem contents_iff (name : String) (hs : Undelimited (Utf8.chars s)) (hkind : kind.isTerminal = false) :
    (ofBytes name s).tokens.map Token.content = [(kind, s), (.endOfInput, [])] ↔
      ∃ owing, Lexeme.first (Utf8.chars s) = .token kind (Utf8.chars s).length owing :=
  ⟨fun h => first_of_kinds hs hkind (kinds_of_contents h), fun ⟨_, h⟩ => contents_of_first name h⟩

theorem kinds_iff (name : String) (hs : Undelimited (Utf8.chars s)) (hkind : kind.isTerminal = false) :
    (ofBytes name s).tokens.map Token.kind = [kind, .endOfInput] ↔
      ∃ owing, Lexeme.first (Utf8.chars s) = .token kind (Utf8.chars s).length owing :=
  ⟨fun h => first_of_kinds hs hkind h, fun ⟨_, h⟩ => kinds_of_contents (contents_of_first name h)⟩

end Scanner

end SchemeLexer
