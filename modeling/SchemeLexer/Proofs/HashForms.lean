import SchemeLexer.Proofs.Layout
import SchemeLexer.Proofs.Number.Marking
import SchemeLexer.Proofs.Opening
/-!
# HashForms — what a hash sign begins, numbers apart

Booleans, the openings of vectors, datum comments, directives and characters are written as `HashForm` says.  A token of
one of these kinds has such a text wherever it stands (`hashForm_of_mem`), and such a text in front of a delimiter is
read as that token (`first_of_hashForm`).  Delimiters are among the characters of some forms, so that a form is not a
word up to the next delimiter: what ends it is its own rule.
-/
namespace SchemeLexer

open Text (Stops run)
open Utf8 (chars)
open Caseless (fold sameWord)
open Number.Grammar (Subsequents subsequents_of_sameWord)

namespace Lexeme

/-- A token that a hash sign begins and that is no number, as it is written. -/
inductive HashForm : Kind → List Char → Prop
  | boolean {w word : List Char} :
    word ∈ [['t'], ['t', 'r', 'u', 'e'], ['f'], ['f', 'a', 'l', 's', 'e']] → sameWord w word = true →
      HashForm .boolean ('#' :: w)
  | openByteVector {w : List Char} : sameWord w ['u', '8'] = true → HashForm .openByteVector ('#' :: (w ++ ['(']))
  | openVector : HashForm .openVector ['#', '(']
  | commentDatum : HashForm .commentDatum ['#', ';']
  | directive {c : Char} {cs : List Char} :
    isInitial c = true → Subsequents cs → HashForm .directive ('#' :: '!' :: c :: cs)
  /-- Any character by itself, one that stands for ill-formed bytes included. -/
  | character (c : Char) : HashForm .character ['#', '\\', c]
  | code {x : Char} {ds : List Char} :
    x = 'x' ∨ x = 'X' → ds ≠ [] → (∀ d ∈ ds, isHexDigit d = true) → HashForm .character ('#' :: '\\' :: x :: ds)
  /-- A name, unless it begins as a code does. -/
  | named {c d : Char} {cs : List Char} :
    isInitial c = true → Subsequents (d :: cs) → ¬ ((c = 'x' ∨ c = 'X') ∧ isHexDigit d = true) →
      HashForm .character ('#' :: '\\' :: c :: d :: cs)

/-! ## What is read is of the form -/

/-- If the lexeme is a token of one of these kinds, its characters are of the form. -/
def Formed (cs : List Char) (x : Lexeme) : Prop :=
  ∀ kind n owing, x = .token kind n owing → kind ∈ hashKinds → HashForm kind (cs.take n)

section
variable {cs : List Char}

theorem formed_token {kind : Kind} {n : Nat} {owing : Bool} (h : HashForm kind (cs.take n)) :
    Formed cs (.token kind n owing) := by
  rintro _ _ _ ⟨⟩ -
  exact h

theorem formed_skip {n : Nat} : Formed cs (.skip n) := fun _ _ _ h => by cases h

theorem formed_invalid {e : ScanError} {n : Nat} : Formed cs (.invalid e n) := fun _ _ _ h => by cases h

theorem formed_of_kinds {kinds : List Kind} {x : Lexeme} (h : OfKinds kinds x)
    (hkinds : ∀ kind ∈ kinds, kind ∉ hashKinds) : Formed cs x :=
  fun kind n owing hx hkind => absurd hkind (hkinds kind (h kind n owing hx))

/-- What goes on as far as a class of characters does. -/
theorem formed_word {p : Char → Bool} {kind : Kind} {v : List Char}
    (hv : ∀ u, (∀ c ∈ u, p c = true) → HashForm kind (v ++ u)) (t : List Char) {n : Nat} (hn : n = v.length + run p t) :
    Formed (v ++ t) (word kind n) := by
  refine formed_token ?_
  obtain ⟨u, rest, rfl, hu, -, hrun⟩ := Text.exists_run p t
  rw [hn, hrun, ← List.length_append, ← List.append_assoc, List.take_left]
  exact hv u hu

end

theorem formed_directive : ∀ cs : List Char, Formed ('#' :: '!' :: cs) (directive cs)
  | [] => formed_invalid
  | c :: cs =>
    iteInduction (fun hc => formed_word (v := ['#', '!', c]) (fun _ hu => .directive hc hu) cs rfl)
      fun _ => formed_invalid

theorem formed_character : ∀ cs : List Char, Formed ('#' :: '\\' :: cs) (character cs)
  | [] => formed_invalid
  | [c] => formed_token (.character c)
  | c :: d :: cs =>
    iteInduction (fun _ => formed_token (.character c)) fun _ =>
    iteInduction
      (fun hx => formed_word (v := ['#', '\\', c, d])
        (fun u hu => .code hx.1 (List.cons_ne_nil d u) (List.forall_mem_cons.2 ⟨hx.2, hu⟩)) cs rfl)
      fun hx =>
    iteInduction (fun hc => formed_word (v := ['#', '\\', c, d])
      (fun _ hu => .named hc.1 (List.forall_mem_cons.2 ⟨hc.2, hu⟩) hx) cs rfl) fun _ => formed_invalid

theorem formed_hashWord (cs : List Char) : Formed ('#' :: cs) (hashWord cs) := by
  obtain ⟨w, rest, rfl, -, -, hrun⟩ := Text.exists_run isSubsequent cs
  unfold hashWord
  simp only [hrun, List.take_left, List.drop_left]
  refine iteInduction (fun hbool => ?_) fun _ =>
    iteInduction (fun hbytes => iteInduction (fun hparen => ?_) fun _ => ?_) fun _ => ?_
  · obtain ⟨v, hv, hw⟩ := List.any_eq_true.1 hbool
    refine formed_token ?_
    rw [List.take_succ_cons, List.take_left]
    exact .boolean hv hw
  · obtain ⟨rest, rfl⟩ : ∃ t, rest = '(' :: t := by
      cases rest with
      | nil => cases hparen
      | cons c rest => exact ⟨rest, by rw [Option.some.inj hparen]⟩
    have htake : (w ++ '(' :: rest).take (w.length + 1) = w ++ ['('] := by
      rw [List.append_cons, List.take_left' (by rw [List.length_append, List.length_singleton])]
    refine formed_token ?_
    rw [List.take_succ_cons, htake]
    exact .openByteVector hbytes
  · exact formed_invalid
  · exact formed_invalid

theorem formed_blockComment (cs ds : List Char) : Formed cs (blockComment ds) := by
  unfold blockComment
  split
  · exact formed_skip
  · exact formed_invalid

theorem ofKinds_ofReading (kind : Kind) (owing : Bool) (r : Reading) : OfKinds [kind] (ofReading kind owing r) :=
  ofReading_induction (fun _ => ofKinds_token List.mem_cons_self) fun _ _ => ofKinds_invalid

/-- **What a hash sign begins** is a number or of the form. -/
theorem formed_hash : ∀ cs : List Char, Formed ('#' :: cs) (hash cs)
  | [] => formed_invalid
  | c :: cs => by
    obtain ⟨rule, hrule, heq⟩ := exists_hashLeads c
    rw [heq]
    cases hrule with
    | bar => exact formed_blockComment _ cs
    | bang hc => subst hc; exact formed_directive cs
    | backslash hc => subst hc; exact formed_character cs
    | openParen hc => subst hc; exact formed_token .openVector
    | semicolon hc => subst hc; exact formed_token .commentDatum
    | marker => exact formed_of_kinds (ofKinds_ofReading .number true _) (by decide)
    | word => exact formed_hashWord (c :: cs)
    | other => exact formed_invalid

/-! ## Other tokens are of other kinds -/

/-- The kinds of token that words and numbers are of. -/
def wordKinds : List Kind := [.identifier, .number, .dot]

theorem ofKinds_number (cs : List Char) : OfKinds wordKinds (number cs) :=
  ofReading_induction (fun _ => ofKinds_token (by decide)) fun _ _ => ofKinds_invalid

theorem ofKinds_dot : ∀ cs : List Char, OfKinds wordKinds (dot cs)
  | [] => ofKinds_token (by decide)
  | _ :: _ =>
    ofKinds_ite (ofKinds_token (by decide)) <|
    ofKinds_ite (ofKinds_token (by decide)) <|
    ofKinds_ite (ofKinds_number _) ofKinds_invalid

theorem ofKinds_signDot (sign : Char) : ∀ cs : List Char, OfKinds wordKinds (signDot sign cs)
  | [] => ofKinds_invalid
  | _ :: _ =>
    ofKinds_ite (ofKinds_number _) <|
    ofKinds_ite (ofKinds_token (by decide)) ofKinds_invalid

theorem ofKinds_signedWord (cs : List Char) : OfKinds wordKinds (signedWord cs) :=
  ofKinds_token (iteInduction (fun _ => by decide) fun _ => by decide)

theorem ofKinds_signed (sign : Char) : ∀ cs : List Char, OfKinds wordKinds (signed sign cs)
  | [] => ofKinds_token (by decide)
  | c :: cs =>
    ofKinds_ite (ofKinds_token (by decide)) <|
    ofKinds_ite (ofKinds_signDot sign cs) <|
    ofKinds_ite (ofKinds_number _) <|
    ofKinds_ite (ofKinds_signedWord (c :: cs)) ofKinds_invalid

theorem formed_first : ∀ cs : List Char, Formed cs (first cs)
  | [] => fun _ _ _ h => by cases h
  | c :: cs => by
    obtain ⟨rule, hrule, heq⟩ := exists_leads c
    rw [heq]
    cases hrule with
    | initial => exact formed_of_kinds (ofKinds_token (by decide) : OfKinds wordKinds _) (by decide)
    | whitespace => exact formed_skip
    | digit => exact formed_of_kinds (ofKinds_number _) (by decide)
    | bar => exact formed_of_kinds (ofKinds_ofReading .identifier false _) (by decide)
    | doubleQuote => exact formed_of_kinds (ofKinds_ofReading .string false _) (by decide)
    | comma => exact formed_of_kinds (ofKinds_comma cs) (by decide)
    | semicolon => exact formed_skip
    | hash hc => subst hc; exact formed_hash cs
    | dot => exact formed_of_kinds (ofKinds_dot cs) (by decide)
    | sign => exact formed_of_kinds (ofKinds_signed c cs) (by decide)
    | punctuation => exact formed_of_kinds (ofKinds_punctuation c) (by decide)

/-! ## What is of the form is read -/

theorem hashWord_append {w rest : List Char} (hw : Subsequents w) (hr : Stops isSubsequent rest) :
    hashWord (w ++ rest) =
      if booleans.any (sameWord w) then word .boolean (w.length + 1)
      else if sameWord w byteVector then
        if rest.head? = some '(' then closed .openByteVector (w.length + 2)
        else .invalid .expectedOpenParen (w.length + 1 + Text.oneMore rest)
      else .invalid .invalidHashWord (w.length + 1) := by
  simp only [hashWord, Text.run_append hw hr, List.take_left, List.drop_left]

/-- The words of the forms begin with letters that begin nothing else behind a hash sign. -/
theorem hash_of_sameWord {d : Char} {w v : List Char} (hd : d ∈ ['t', 'f', 'u']) (h : sameWord w (d :: v) = true)
    (t : List Char) : hash (w ++ t) = hashWord (w ++ t) := by
  cases w with
  | nil => simp [sameWord] at h
  | cons c w =>
    have hsmall : ∀ d ∈ ['t', 'f', 'u'], fold d = d := by simp [fold]
    have hfold : fold c = d := by
      simp only [sameWord, List.map_cons, decide_eq_true_eq, List.cons.injEq] at h
      rw [h.1, hsmall d hd]
    simp only [List.mem_cons, List.not_mem_nil, or_false] at hd
    rcases hd with rfl | rfl | rfl
    · rcases Number.eq_or_eq_of_fold (e := 'T') (by decide) rfl hfold with rfl | rfl <;> rfl
    · rcases Number.eq_or_eq_of_fold (e := 'F') (by decide) rfl hfold with rfl | rfl <;> rfl
    · rcases Number.eq_or_eq_of_fold (e := 'U') (by decide) rfl hfold with rfl | rfl <;> rfl

theorem not_boolean_of_byteVector {w : List Char} (h : sameWord w byteVector = true) :
    booleans.any (sameWord w) = false := by
  have hmap : w.map fold = byteVector.map fold := by simpa [sameWord] using h
  have hnot : ∀ v ∈ booleans, v.map fold ≠ byteVector.map fold := by decide
  simp only [List.any_eq_false, sameWord, hmap, decide_eq_true_eq]
  exact fun v hv heq => hnot v hv heq.symm

theorem hash_boolean {w v b : List Char} (hv : v ∈ booleans) (hw : sameWord w v = true) (hb : Delimited b) :
    hash (w ++ b) = word .boolean (w.length + 1) := by
  have hhash : hash (w ++ b) = hashWord (w ++ b) := by
    have hheads : ∀ v ∈ booleans, ∃ d ∈ ['t', 'f', 'u'], ∃ u, v = d :: u := by
      simp [booleans]
    obtain ⟨d, hd, u, rfl⟩ := hheads v hv
    exact hash_of_sameWord hd hw b
  have hsub : Subsequents w := by
    have hall : ∀ v ∈ booleans, Subsequents v := by decide
    exact subsequents_of_sameWord hw (hall v hv)
  rw [hhash, hashWord_append hsub (hb.stops (by decide)), if_pos (List.any_eq_true.2 ⟨v, hv, hw⟩)]

theorem hash_byteVector {w b : List Char} (hw : sameWord w byteVector = true) :
    hash (w ++ '(' :: b) = closed .openByteVector (w.length + 2) := by
  have hsub : Subsequents w := subsequents_of_sameWord hw (by decide)
  have hstop : Stops isSubsequent ('(' :: b) := (Text.stops_cons ..).2 rfl
  have hbool : ¬ booleans.any (sameWord w) = true := Bool.eq_false_iff.1 (not_boolean_of_byteVector hw)
  rw [hash_of_sameWord (d := 'u') (by decide) hw, hashWord_append hsub hstop, if_neg hbool, if_pos hw]
  rfl

theorem character_code {x : Char} {ds b : List Char} (hx : x = 'x' ∨ x = 'X') (hne : ds ≠ [])
    (hds : ∀ d ∈ ds, isHexDigit d = true) (hb : Delimited b) :
    character (x :: (ds ++ b)) = word .character (ds.length + 3) := by
  cases ds with
  | nil => exact absurd rfl hne
  | cons d ds =>
    have hd := hds d List.mem_cons_self
    have hdel : ¬ isDelimiter d = true := fun h => by
      rw [not_of_isDelimiter (p := isHexDigit) (by decide) h] at hd
      cases hd
    have hrun : run isHexDigit (ds ++ b) = ds.length :=
      Text.run_append (fun c hc => hds c (List.mem_cons_of_mem _ hc)) (hb.stops (by decide))
    rw [List.cons_append, character, if_neg hdel, if_pos ⟨hx, hd⟩, hrun, List.length_cons, Nat.add_comm 4]

theorem character_named {c d : Char} {cs b : List Char} (hc : isInitial c = true) (hcs : Subsequents (d :: cs))
    (hx : ¬ ((c = 'x' ∨ c = 'X') ∧ isHexDigit d = true)) (hb : Delimited b) :
    character (c :: d :: (cs ++ b)) = word .character (cs.length + 4) := by
  have hd := hcs d List.mem_cons_self
  have hdel : ¬ isDelimiter d = true := fun h => by
    rw [not_of_isDelimiter (p := isSubsequent) (by decide) h] at hd
    cases hd
  have hrun : run isSubsequent (cs ++ b) = cs.length :=
    Text.run_append (fun e he => hcs e (List.mem_cons_of_mem _ he)) (hb.stops (by decide))
  rw [character, if_neg hdel, if_neg hx, if_pos ⟨hc, hd⟩, hrun, Nat.add_comm 4]

/-- **A form that a delimiter follows is read** to its end and no further. -/
theorem first_of_hashForm {kind : Kind} {w b : List Char} (h : HashForm kind w) (hb : Delimited b) :
    ∃ owing, first (w ++ b) = .token kind w.length owing := by
  have hfirst : ∀ t, first ('#' :: t) = hash t := fun _ => rfl
  cases h with
  | boolean hv hw => exact ⟨true, by rw [List.cons_append, hfirst, hash_boolean hv hw hb]; rfl⟩
  | @openByteVector w hw =>
    refine ⟨false, ?_⟩
    rw [List.cons_append, hfirst, List.append_assoc, List.singleton_append, hash_byteVector hw, List.length_cons,
      List.length_append]
    rfl
  | openVector => exact ⟨false, rfl⟩
  | commentDatum => exact ⟨false, rfl⟩
  | @directive c cs hc hcs =>
    have hdirective : hash ('!' :: c :: (cs ++ b)) = word .directive (3 + run isSubsequent (cs ++ b)) := if_pos hc
    refine ⟨true, ?_⟩
    rw [List.cons_append, List.cons_append, List.cons_append, hfirst, hdirective,
      Text.run_append hcs (hb.stops (by decide)), Nat.add_comm]
    rfl
  | character c => exact ⟨false, character_of_delimited c hb⟩
  | code hx hne hds => exact ⟨true, character_code hx hne hds hb⟩
  | named hc hcs hx => exact ⟨true, character_named hc hcs hx hb⟩

theorem isTerminal_of_hashKinds {kind : Kind} (h : kind ∈ hashKinds) : kind.isTerminal = false := by
  revert h; revert kind; decide

end Lexeme

/-! ## The first token -/

open Lexeme (HashForm hashKinds)

namespace Scanner

/-- **A token of these kinds is of the form**, wherever it stands. -/
theorem hashForm_of_mem {name : String} {source : List UInt8} {t : Token} (ht : t ∈ (ofBytes name source).tokens)
    (hkind : t.kind ∈ hashKinds) : HashForm t.kind (chars t.text) := by
  have hwords : t ∈ (ofBytes name source).words :=
    List.mem_filter.2 ⟨ht, by rw [Lexeme.isTerminal_of_hashKinds hkind]; rfl⟩
  obtain ⟨-, owing, hfirst⟩ := stands_words name source t hwords
  have hform := Lexeme.formed_first _ _ _ _ (hfirst [] delimited_nil) hkind
  rwa [List.take_left] at hform

/-- The forms are those of the first token, in front of a delimiter. -/
theorem head?_hashForm {name : String} {t r : List UInt8} {kind : Kind} (h : HashForm kind (chars t))
    (hr : Delimited (chars r)) : (ofBytes name (t ++ r)).tokens.head? = some ⟨kind, t, .start⟩ := by
  obtain ⟨owing, hfirst⟩ := Lexeme.first_of_hashForm h hr
  rw [← Utf8.chars_append hr.fresh] at hfirst
  rw [head?_tokens_of_first hfirst, Place.token, Place.slice_all hr.fresh]

end Scanner

/-- **The forms that a hash sign begins** are those of the first tokens of these kinds: a text in front of a delimiter,
or at the end of the source, is the first token exactly when it is of the form of its kind. -/
theorem hash_forms (name : String) {t r : List UInt8} (hr : Delimited (chars r)) {kind : Kind}
    (hkind : kind ∈ hashKinds) :
    (Scanner.ofBytes name (t ++ r)).tokens.head?.map Token.content = some (kind, t) ↔ HashForm kind (chars t) := by
  constructor
  · intro h
    obtain ⟨u, hu, hcontent⟩ := Option.map_eq_some_iff.1 h
    obtain ⟨rfl, rfl⟩ := Prod.mk.inj hcontent
    exact Scanner.hashForm_of_mem (List.mem_of_head? hu) hkind
  · intro h
    rw [Scanner.head?_hashForm h hr]
    rfl

/-- A character of two bytes that lack a third, in front of a parenthesis. -/
theorem hash_forms_ill_formed :
    Delimited (chars [0x28]) ∧ Kind.character ∈ hashKinds ∧
      (Scanner.ofBytes "text" ([0x23, 0x5C, 0xE2, 0x82] ++ [0x28])).tokens.head?.map Token.content =
        some (.character, [0x23, 0x5C, 0xE2, 0x82]) := by
  have hr : Delimited (chars [0x28]) := by decide
  have hkind : Kind.character ∈ hashKinds := by decide
  exact ⟨hr, hkind, (hash_forms "text" hr hkind).2 (HashForm.character Utf8.replacement)⟩

end SchemeLexer
