import SchemeLexer.Lexeme.First
/-!
# Leads — which rule a character leads to

The first character of a text settles the rule for its first lexeme, and after a hash sign the second does.  `Leads` and
`HashLeads` list the cases, so that a fact about every lexeme is proved once for each rule.  `ofKinds_hash` is such a
fact: a hash sign begins numbers with their markers, and besides them no numbers and no identifiers.
-/
namespace SchemeLexer
namespace Lexeme

/-- The rule for the text behind a first character. -/
inductive Leads (c : Char) : (List Char → Lexeme) → Prop
  | initial : isInitial c = true → Leads c (identifier 1)
  | whitespace : isWhitespace c = true → Leads c fun _ => .skip 1
  | digit : isDigit c = true → Leads c fun t => number (c :: t)
  | bar : c = '|' → Leads c fun t => ofReading .identifier false ((enclosed '|' t).shift 1)
  | doubleQuote : c = '"' → Leads c fun t => ofReading .string false ((enclosed '"' t).shift 1)
  | comma : c = ',' → Leads c Lexeme.comma
  | semicolon : c = ';' → Leads c fun t => .skip (lineComment t + 1)
  | hash : c = '#' → Leads c Lexeme.hash
  | dot : c = '.' → Leads c Lexeme.dot
  | sign : isSign c = true → Leads c (signed c)
  | punctuation : Leads c fun _ => Lexeme.punctuation c

theorem leads_first (c : Char) : Leads c fun t => first (c :: t) := by
  by_cases h1 : isInitial c = true
  · simpa [first, h1] using Leads.initial h1
  · by_cases h2 : isWhitespace c = true
    · simpa [first, h1, h2] using Leads.whitespace h2
    · by_cases h3 : isDigit c = true
      · simpa [first, h1, h2, h3] using Leads.digit h3
      · by_cases h4 : c = '|'
        · subst h4; exact .bar rfl
        · by_cases h5 : c = '"'
          · subst h5; exact .doubleQuote rfl
          · by_cases h6 : c = ','
            · subst h6; exact .comma rfl
            · by_cases h7 : c = ';'
              · subst h7; exact .semicolon rfl
              · by_cases h8 : c = '#'
                · subst h8; exact .hash rfl
                · by_cases h9 : c = '.'
                  · subst h9; exact .dot rfl
                  · by_cases h10 : isSign c = true
                    · simpa [first, h1, h2, h3, h4, h5, h6, h7, h8, h9, h10] using Leads.sign h10
                    · simpa [first, h1, h2, h3, h4, h5, h6, h7, h8, h9, h10] using Leads.punctuation

theorem exists_leads (c : Char) : ∃ rule, Leads c rule ∧ ∀ t, first (c :: t) = rule t :=
  ⟨_, leads_first c, fun _ => rfl⟩

/-- The rule for the text behind a hash sign and a character. -/
inductive HashLeads (c : Char) : (List Char → Lexeme) → Prop
  | bar : c = '|' → HashLeads c blockComment
  | bang : c = '!' → HashLeads c directive
  | backslash : c = '\\' → HashLeads c character
  | openParen : c = '(' → HashLeads c fun _ => closed .openVector 2
  | semicolon : c = ';' → HashLeads c fun _ => closed .commentDatum 2
  | marker : (Number.Marker.ofChar? c).isSome = true → HashLeads c fun t => markedNumber (c :: t)
  | word : isInitial c = true → HashLeads c fun t => hashWord (c :: t)
  | other : HashLeads c fun _ => .invalid .invalidAfterHash 2

theorem hashLeads_hash (c : Char) : HashLeads c fun t => hash (c :: t) := by
  by_cases h1 : c = '|'
  · subst h1; exact .bar rfl
  · by_cases h2 : c = '!'
    · subst h2; exact .bang rfl
    · by_cases h3 : c = '\\'
      · subst h3; exact .backslash rfl
      · by_cases h4 : c = '('
        · subst h4; exact .openParen rfl
        · by_cases h5 : c = ';'
          · subst h5; exact .semicolon rfl
          · by_cases h6 : (Number.Marker.ofChar? c).isSome = true
            · simpa [hash, h1, h2, h3, h4, h5, h6] using HashLeads.marker h6
            · by_cases h7 : isInitial c = true
              · simpa [hash, h1, h2, h3, h4, h5, h6, h7] using HashLeads.word h7
              · simpa [hash, h1, h2, h3, h4, h5, h6, h7] using HashLeads.other

theorem exists_hashLeads (c : Char) : ∃ rule, HashLeads c rule ∧ ∀ t, hash (c :: t) = rule t :=
  ⟨_, hashLeads_hash c, fun _ => rfl⟩

/-! ## Kinds -/

/-- Whatever token the lexeme is, it is of one of these kinds. -/
def OfKinds (kinds : List Kind) (x : Lexeme) : Prop := ∀ kind n owing, x = .token kind n owing → kind ∈ kinds

section
variable {kinds : List Kind}

theorem ofKinds_token {kind : Kind} (hkind : kind ∈ kinds) {n : Nat} {owing : Bool} :
    OfKinds kinds (.token kind n owing) := fun _ _ _ h => by
  cases h
  exact hkind

theorem ofKinds_skip {n : Nat} : OfKinds kinds (.skip n) := fun _ _ _ h => by cases h

theorem ofKinds_invalid {e : ScanError} {n : Nat} : OfKinds kinds (.invalid e n) := fun _ _ _ h => by cases h

theorem ofKinds_ite {p : Prop} [Decidable p] {a b : Lexeme} (ha : OfKinds kinds a) (hb : OfKinds kinds b) :
    OfKinds kinds (if p then a else b) := iteInduction (fun _ => ha) fun _ => hb

end

theorem ofKinds_comma (cs : List Char) : OfKinds [.comma, .commaAt] (comma cs) :=
  ofKinds_ite (ofKinds_token (by decide)) (ofKinds_token (by decide))

/-- The characters that are tokens by themselves. -/
def punctuationMarks : List (Char × Kind) :=
  [('(', .openParen), (')', .closeParen), ('\x27', .quote), ('\x60', .backquote)]

theorem mem_punctuationMarks {c : Char} {kind : Kind} (h : punctuation? c = some kind) :
    (c, kind) ∈ punctuationMarks := by
  unfold punctuation? at h
  repeat' split at h
  all_goals first
    | (rename_i hc; rw [hc]; cases h; decide)
    | cases h

theorem ofKinds_punctuation (c : Char) : OfKinds [.openParen, .closeParen, .quote, .backquote] (punctuation c) := by
  unfold punctuation
  cases h : punctuation? c with
  | none => exact ofKinds_invalid
  | some kind =>
    have hkinds : ∀ p ∈ punctuationMarks, p.2 ∈ [Kind.openParen, .closeParen, .quote, .backquote] := by decide
    exact ofKinds_token (hkinds _ (mem_punctuationMarks h))

/-- The kinds of token that a hash sign begins, numbers apart. -/
def hashKinds : List Kind := [.directive, .character, .openVector, .commentDatum, .boolean, .openByteVector]

theorem ofKinds_blockComment (cs : List Char) : OfKinds hashKinds (blockComment cs) := by
  unfold blockComment
  split
  · exact ofKinds_skip
  · exact ofKinds_invalid

theorem ofKinds_directive : ∀ cs : List Char, OfKinds hashKinds (directive cs)
  | [] => ofKinds_invalid
  | _ :: _ => ofKinds_ite (ofKinds_token (by decide)) ofKinds_invalid

theorem ofKinds_character : ∀ cs : List Char, OfKinds hashKinds (character cs)
  | [] => ofKinds_invalid
  | [_] => ofKinds_token (by decide)
  | _ :: _ :: _ =>
    ofKinds_ite (ofKinds_token (by decide)) <|
    ofKinds_ite (ofKinds_token (by decide)) <|
    ofKinds_ite (ofKinds_token (by decide)) ofKinds_invalid

theorem ofKinds_hashWord (cs : List Char) : OfKinds hashKinds (hashWord cs) :=
  ofKinds_ite (ofKinds_token (by decide)) <|
  ofKinds_ite (ofKinds_ite (ofKinds_token (by decide)) ofKinds_invalid) ofKinds_invalid

/-- **Behind a hash sign** stands a marked number, or something of another kind. -/
theorem ofKinds_hash (c : Char) (cs : List Char) :
    ((Number.Marker.ofChar? c).isSome = true ∧ hash (c :: cs) = markedNumber (c :: cs)) ∨
      OfKinds hashKinds (hash (c :: cs)) := by
  obtain ⟨rule, hrule, heq⟩ := exists_hashLeads c
  rw [heq]
  cases hrule with
  | bar => exact Or.inr (ofKinds_blockComment cs)
  | bang => exact Or.inr (ofKinds_directive cs)
  | backslash => exact Or.inr (ofKinds_character cs)
  | openParen => exact Or.inr (ofKinds_token (by decide))
  | semicolon => exact Or.inr (ofKinds_token (by decide))
  | marker hc => exact Or.inl ⟨hc, rfl⟩
  | word => exact Or.inr (ofKinds_hashWord (c :: cs))
  | other => exact Or.inr ofKinds_invalid

end Lexeme
end SchemeLexer
