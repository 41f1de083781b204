import SchemaLift.Proofs.Call.OneLine
import SchemaLift.Proofs.Call.Signature

/-!
# The line of a call

The line `keyword :name, type, key: value` has the tokens of its parts (`CallParts.tokenize_line`): a
symbol and a label are single tokens, and the type is followed by what no token of it goes on with.
-/

namespace SchemaLift

/-! ## Labels -/

namespace Scan

theorem pieces_label_append {c : Char} (hc : isWordStart c = true) (hu : c.isUpper = false)
    {stem : Text} (hs : ∀ d ∈ stem, isWordChar d = true) (rest : Text) :
    pieces (c :: (stem ++ ':' :: rest)) = ⟨some .label, c :: (stem ++ [':'])⟩ :: pieces rest := by
  have hn : run isWordChar (stem ++ ':' :: rest) = stem.length := by
    rw [run_append hs, run_of_head, Nat.add_zero]
    intro d hd
    cases hd
    decide
  have hhead : head c ((stem ++ [':']) ++ rest) = (some .label, (stem ++ [':']).length) := by
    rw [head_of_isWordStart hc, List.append_assoc, List.singleton_append]
    unfold word
    simp only [hu, Bool.false_and, Bool.false_eq_true, ↓reduceIte, hn, List.drop_left,
      List.length_append, List.length_singleton]
  have hpieces := pieces_of_head hhead
  rwa [List.append_assoc, List.singleton_append] at hpieces

end Scan

/-! ## The line -/

namespace CallParts

/-- The text `, key: value`. -/
def labelText (label : Text × Text) : Text := ", ".toList ++ label.1 ++ ": ".toList ++ label.2

/-- A keyword argument whose key and value are words in lower case. -/
def IsLabel (label : Text × Text) : Prop :=
  (∃ c stem, label.1 = c :: stem ∧ Scan.isWordStart c = true ∧ c.isUpper = false ∧
    ∀ d ∈ stem, Scan.isWordChar d = true) ∧ Scan.Identifier label.2

theorem delimits_labels (labels : List (Text × Text)) :
    Scan.Delimits (labels.flatMap labelText) := by
  cases labels with
  | nil => exact Scan.delimits_nil
  | cons label labels => exact Scan.delimits_cons (d := ',') (by decide) _

theorem tokenize_labels {labels : List (Text × Text)} (hl : ∀ label ∈ labels, IsLabel label) :
    tokenize (labels.flatMap labelText) = labels.flatMap labelTokens := by
  have hspace : ∀ c ∈ [' '], Text.isBlankChar c = true := List.all_eq_true.1 (by decide)
  induction labels with
  | nil => rfl
  | cons label labels ih =>
    obtain ⟨⟨c, stem, hkey, hc, hu, hs⟩, hvalue⟩ := hl label List.mem_cons_self
    have htext : (label :: labels).flatMap labelText = ',' :: ([' '] ++ (c :: (stem ++ ':' ::
        ([' '] ++ (label.2 ++ labels.flatMap labelText))))) := by
      simp [labelText, hkey]
    have hlabel := tokenize_of_pieces (Scan.pieces_label_append hc hu hs
      ([' '] ++ (label.2 ++ labels.flatMap labelText)))
    rw [htext, tokenize_char .comma rfl, tokenize_blank_append hspace, hlabel,
      tokenize_blank_append hspace, tokenize_identifier_append hvalue (delimits_labels labels),
      ih fun l hmem => hl l (List.mem_cons_of_mem label hmem)]
    simp [labelTokens, hkey]

/-- The line of a call, with the text of its type. -/
def line (p : CallParts) (type : Text) : Line :=
  p.indent ++ p.keyword ++ " ".toList ++ p.symbol ++ ", ".toList ++ type ++
    p.labels.flatMap labelText

/-- The keyword is a word, and so is the name. -/
structure Spelled (p : CallParts) : Prop where
  indent : Text.IsIndent p.indent
  keyword : Scan.Identifier p.keyword
  symbol : ∃ c stem, p.symbol = ':' :: c :: stem ∧ Scan.isWordStart c = true ∧
    ∀ d ∈ stem, Scan.isWordChar d = true
  labels : ∀ label ∈ p.labels, IsLabel label

theorem tokenize_line {p : CallParts} (h : p.Spelled) {type : Text} {ts : List Token}
    (hne : ts ≠ []) (hts : p.type = Token.addGap [' '] ts)
    (htype : tokenize (type ++ p.labels.flatMap labelText) =
      ts ++ tokenize (p.labels.flatMap labelText)) : tokenize (p.line type) = p.tokens := by
  have hspace : ∀ c ∈ [' '], Text.isBlankChar c = true := List.all_eq_true.1 (by decide)
  obtain ⟨c, stem, hsymbol, hc, hs⟩ := h.symbol
  have hline : p.line type = p.indent ++ (p.keyword ++ ([' '] ++ (':' :: c :: (stem ++ ',' ::
      ([' '] ++ (type ++ p.labels.flatMap labelText)))))) := by
    simp [line, hsymbol]
  have hcomma : ∀ d ∈ (',' :: ([' '] ++ (type ++ p.labels.flatMap labelText))).head?,
      Scan.isWordChar d = false ∧ d ≠ '?' ∧ d ≠ '!' ∧ d ≠ '=' := by
    intro d hd
    cases hd
    decide
  have hname := tokenize_of_pieces (Scan.pieces_symbol_append hc hs hcomma)
  have hgap : ∀ rest, Scan.Delimits ([' '] ++ rest) := fun rest =>
    Scan.delimits_cons (by decide) rest
  rw [hline, tokenize_blank_append h.indent.isBlankChar,
    tokenize_identifier_append h.keyword (hgap _),
    tokenize_blank_append hspace, hname, tokenize_char .comma rfl,
    tokenize_blank_append hspace, htype, Token.addGap_append hne, tokenize_labels h.labels, tokens,
    hts, hsymbol]
  simp

/-- A character that belongs to no word, mark or gap is in the line only if it is in the type. -/
theorem notMem_line {p : CallParts} (h : p.Spelled) {type : Text} {x : Char}
    (hx : TypeExpression.isTokenChar x = false) (hgap : x ∉ [' ', '\t', ',']) (htype : x ∉ type) :
    x ∉ p.line type := by
  simp only [List.mem_cons, List.not_mem_nil, or_false, not_or] at hgap
  have hword : ∀ {s : Text}, (∀ d ∈ s, TypeExpression.isTokenChar d = true) → x ∉ s := by
    intro s hs hmem
    rw [hs x hmem] at hx
    cases hx
  have hstem : ∀ {c : Char} {stem : Text}, Scan.isWordStart c = true →
      (∀ d ∈ stem, Scan.isWordChar d = true) → x ∉ c :: stem := by
    intro c stem hc hs
    refine hword (List.forall_mem_cons.2 ⟨?_, fun d hd => ?_⟩)
    · exact TypeExpression.isTokenChar_of_isWordChar (Scan.isWordChar_of_isWordStart hc)
    · exact TypeExpression.isTokenChar_of_isWordChar (hs d hd)
  have hcolon : x ≠ ':' := (ne_of_holds (by decide) hx).symm
  have hindent : x ∉ p.indent := fun hmem => (h.indent x hmem).elim hgap.1 hgap.2.1
  have hkeyword : x ∉ p.keyword := hword (TypeExpression.isTokenChar_identifier h.keyword)
  have hsymbol : x ∉ p.symbol := by
    obtain ⟨c, stem, hsymbol, hc, hs⟩ := h.symbol
    rw [hsymbol, List.mem_cons, not_or]
    exact ⟨hcolon, hstem hc hs⟩
  have hlabels : x ∉ p.labels.flatMap labelText := by
    intro hmem
    obtain ⟨label, hl, hmem⟩ := List.mem_flatMap.1 hmem
    obtain ⟨⟨c, stem, hkey, hc, -, hs⟩, hvalue⟩ := h.labels label hl
    have hk : x ∉ label.1 := hkey ▸ hstem hc hs
    have hv : x ∉ label.2 := hword (TypeExpression.isTokenChar_identifier hvalue)
    revert hmem
    simp [labelText, hk, hv, hgap, hcolon]
  simp [line, hindent, hkeyword, hsymbol, hlabels, htype, hgap]

theorem exists_line_eq {p : CallParts} {c : Char} {cs : Text} (hkeyword : p.keyword = c :: cs)
    (type : Text) : ∃ rest, p.line type = p.indent ++ c :: rest := by
  refine ⟨cs ++ " ".toList ++ p.symbol ++ ", ".toList ++ type ++ p.labels.flatMap labelText, ?_⟩
  rw [line, hkeyword]
  simp only [List.append_assoc, List.cons_append]

theorem indentation_line {p : CallParts} (h : p.Spelled) (type : Text) :
    Text.indentation (p.line type) = p.indent := by
  obtain ⟨c, cs, hkeyword, hc⟩ := h.keyword.exists_cons
  obtain ⟨rest, hline⟩ := exists_line_eq hkeyword type
  rw [hline, Text.indentation_append h.indent hc]

/-! ## The rendered call -/

/-- The call is rendered as its line. -/
theorem render_eq (p : CallParts) (hs : p.symbol ≠ []) (type : Text) :
    { p.signature with positional := [type] }.render = p.line type := by
  have harguments : { p.signature with positional := [type] }.arguments =
      p.symbol :: type :: p.labels.map fun label => label.1 ++ ": ".toList ++ label.2 := by
    simp [Signature.arguments, signature, KeywordArgument.render, KeywordArgument.labelled]
  have hlabels : p.labels.flatMap labelText =
      p.labels.flatMap fun label => ", ".toList ++ (label.1 ++ ": ".toList ++ label.2) := by
    congr 1
  unfold Signature.render
  simp only [harguments, Signature.commaSeparated_cons]
  simp [signature, line, List.flatMap_map, hlabels, hs]

end CallParts

end SchemaLift
