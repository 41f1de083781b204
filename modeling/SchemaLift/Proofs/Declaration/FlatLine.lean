import SchemaLift.Proofs.Call.Line
import SchemaLift.Proofs.Declaration.LineByLine
import SchemaLift.Proofs.Definition.HeaderLine
import SchemaLift.Proofs.Name
import SchemaLift.Proofs.Upgrade.Pipeline

/-!
# A declaration of a name and a type

A line `field :name, type` is rewritten by the rule of its keyword and by no other
(`lineEdit_legacyLine`), and every rule keeps the line that comes of it (`lineEdit_flatLine`).
-/

namespace SchemaLift

/-- A declaration that gives a name and a type and nothing else. -/
structure PlainDeclaration where
  kind : DeclarationKind
  name : Text
  /-- The type as it is written. -/
  type : Text
  expression : TypeExpression

namespace PlainDeclaration

/-- The name is in camel case, and the type is read as the expression. -/
structure WellFormed (e : PlainDeclaration) : Prop where
  name : ∃ c stem, e.name = c :: stem ∧ c.isLower = true ∧ ∀ d ∈ stem, d.isAlphanum = true
  type : e.expression.Inline e.type

/-- The line in the legacy form. -/
def legacyLine (e : PlainDeclaration) : Line :=
  "  ".toList ++ e.kind.keyword.toList ++ " :".toList ++ e.name ++ ", ".toList ++ e.type

/-- The line in the new form. -/
def flatLine (e : PlainDeclaration) : Line :=
  let call (keyword : String) : Text := "  ".toList ++ keyword.toList ++ " :".toList ++
    Name.underscore e.name ++ ", ".toList ++ e.expression.render
  match e.kind with
  | .field => call "field" ++ ", null: ".toList ++ (toString e.expression.nullable).toList
  | .connection => call "field" ++ ", null: ".toList ++ (toString e.expression.nullable).toList ++
      ", connection: true".toList
  | .argument | .inputField =>
    call "argument" ++ ", required: ".toList ++ (toString (!e.expression.nullable)).toList

variable {e : PlainDeclaration}

/-! ## The name -/

theorem isWordChar_of_isAlphanum {c : Char} (h : c.isAlphanum = true) : Scan.isWordChar c = true := by
  rw [Scan.isWordChar, h, Bool.true_or]

theorem WellFormed.exists_name (h : e.WellFormed) : ∃ c stem, e.name = c :: stem ∧
    Scan.isWordStart c = true ∧ c.isUpper = false ∧ ∀ d ∈ stem, Scan.isWordChar d = true := by
  obtain ⟨c, stem, hname, hc, hs⟩ := h.name
  have hlower := isLower_iff_toNat.1 hc
  refine ⟨c, stem, hname, ?_, ?_, fun d hd => isWordChar_of_isAlphanum (hs d hd)⟩
  · rw [Scan.isWordStart_iff_toNat]
    omega
  · rw [Bool.eq_false_iff, Ne, isUpper_iff_toNat]
    omega

theorem WellFormed.exists_underscore (h : e.WellFormed) : ∃ c stem,
    Name.underscore e.name = c :: stem ∧ Scan.isWordStart c = true ∧
      ∀ d ∈ stem, Scan.isWordChar d = true := by
  obtain ⟨c, stem, hname, hc, -, hs⟩ := h.exists_name
  obtain ⟨d, hunder, hd, -⟩ := Name.underscore_cons hc stem
  exact ⟨d, _, by rw [hname, hunder], hd, Name.isWordChar_underscoreFrom hs _⟩

theorem WellFormed.declared?_name (h : e.WellFormed) :
    Name.declared? (':' :: e.name) = some (Name.underscore e.name) := by
  obtain ⟨c, stem, hname, hc, -, hs⟩ := h.exists_name
  have hid : Name.isIdentifier e.name = true := by
    rw [hname]
    exact Name.isIdentifier_of_word hc hs
  have hbare : Name.bare? (':' :: e.name) = some e.name := rfl
  rw [Name.declared?, hbare, Option.bind_some, if_pos hid]

/-! ## The parts of both lines -/

def legacyParts (e : PlainDeclaration) : CallParts :=
  ⟨[' ', ' '], e.kind.keyword.toList, ':' :: e.name, Token.addGap [' '] (tokenize e.type), []⟩

/-- The keyword arguments of the new form. -/
def labels (e : PlainDeclaration) : List (Text × Text) :=
  (e.kind.nullabilityKey.toList, e.kind.nullabilityValue e.expression) ::
    (if e.kind = .connection then [("connection".toList, "true".toList)] else [])

def flatParts (e : PlainDeclaration) (ts : List Token) : CallParts :=
  ⟨[' ', ' '], e.kind.flatKeyword.toList, ':' :: Name.underscore e.name, Token.addGap [' '] ts,
    e.labels⟩

theorem legacyLine_eq (e : PlainDeclaration) : e.legacyLine = e.legacyParts.line e.type := by
  simp [legacyLine, CallParts.line, legacyParts]

theorem flatLine_eq (e : PlainDeclaration) (ts : List Token) :
    e.flatLine = (e.flatParts ts).line e.expression.render := by
  cases hk : e.kind <;>
    simp [flatLine, CallParts.line, flatParts, labels, CallParts.labelText, hk,
      DeclarationKind.flatKeyword, DeclarationKind.isField, DeclarationKind.nullabilityKey,
      DeclarationKind.nullabilityValue]

/-! ## Their tokens -/

theorem identifier_keyword (kind : DeclarationKind) : Scan.Identifier kind.keyword.toList := by
  cases kind <;>
    exact .plain (by decide) (by decide) (List.all_eq_true.1 (by decide)) (by decide)

theorem identifier_flatKeyword (kind : DeclarationKind) :
    Scan.Identifier kind.flatKeyword.toList := by
  cases kind <;>
    exact .plain (by decide) (by decide) (List.all_eq_true.1 (by decide)) (by decide)

theorem isIndent_two : Text.IsIndent [' ', ' '] := by
  simp [Text.IsIndent]

theorem isLabel_labels (e : PlainDeclaration) : ∀ label ∈ e.labels, CallParts.IsLabel label := by
  have hbool : ∀ b : Bool, Scan.Identifier (toString b).toList := by
    intro b
    cases b <;>
      exact .plain (by decide) (by decide) (List.all_eq_true.1 (by decide)) (by decide)
  intro label hmem
  rcases List.mem_cons.1 hmem with rfl | hmem
  · refine ⟨?_, hbool _⟩
    cases e.kind <;> exact ⟨_, _, rfl, by decide, by decide, List.all_eq_true.1 (by decide)⟩
  · split at hmem
    · rw [List.mem_singleton.1 hmem]
      exact ⟨⟨_, _, rfl, by decide, by decide, List.all_eq_true.1 (by decide)⟩, hbool true⟩
    · cases hmem

variable (h : e.WellFormed)
include h

theorem spelled_legacyParts : e.legacyParts.Spelled := by
  obtain ⟨c, stem, hname, hc, -, hs⟩ := h.exists_name
  exact ⟨isIndent_two, identifier_keyword e.kind, ⟨c, stem, congrArg (':' :: ·) hname, hc, hs⟩,
    by rintro label ⟨⟩⟩

theorem spelled_flatParts (ts : List Token) : (e.flatParts ts).Spelled := by
  obtain ⟨c, stem, hname, hc, hs⟩ := h.exists_underscore
  exact ⟨isIndent_two, identifier_flatKeyword e.kind, ⟨c, stem, congrArg (':' :: ·) hname, hc, hs⟩,
    e.isLabel_labels⟩

theorem wellFormed_legacyParts : e.legacyParts.WellFormed := by
  obtain ⟨hne, hstretch⟩ := h.type.stretch
  refine ⟨?_, hstretch.addGap [' '], ?_⟩
  · obtain ⟨t, ts, hts⟩ := List.exists_cons_of_ne_nil hne
    show Token.addGap [' '] (tokenize e.type) ≠ []
    rw [hts]
    exact List.cons_ne_nil _ _
  · show ∀ word ∈ _, e.kind.keyword.toList ≠ String.toList word
    cases e.kind <;> decide

theorem tokenize_legacyLine : tokenize e.legacyLine = e.legacyParts.tokens := by
  rw [legacyLine_eq]
  refine CallParts.tokenize_line (spelled_legacyParts h) h.type.stretch.1 rfl ?_
  show tokenize (e.type ++ []) = tokenize e.type ++ []
  rw [List.append_nil, List.append_nil]

/-- Only characters of words, marks and gaps stand in a line. -/
theorem notMem_legacyLine {x : Char} (hx : TypeExpression.isTokenChar x = false)
    (hgap : x ∉ [' ', '\t', ',']) : x ∉ e.legacyLine := by
  rw [legacyLine_eq]
  refine CallParts.notMem_line (spelled_legacyParts h) hx hgap fun hmem => ?_
  rcases h.type.isTokenChar_or_space x hmem with htoken | rfl
  · rw [htoken] at hx
    cases hx
  · exact hgap List.mem_cons_self

theorem oneLine_legacyLine : Declaration.OneLine e.legacyLine e.legacyParts.signature where
  shape := CallParts.ofLine_eq (wellFormed_legacyParts h) (tokenize_legacyLine h)
    (notMem_legacyLine h (by decide) (by decide))
  parse := by
    refine CallParts.parse_eq (wellFormed_legacyParts h) (tokenize_legacyLine h) ?_
    rw [legacyLine_eq]
    exact CallParts.indentation_line (spelled_legacyParts h) e.type

/-- What is known about the new line. -/
theorem exists_flatParts : ∃ ts, (e.flatParts ts).WellFormed ∧
    tokenize e.flatLine = (e.flatParts ts).tokens := by
  obtain ⟨ts, hne, hstretch, htokens⟩ := TypeExpression.exists_tokenize_render h.type.base
  refine ⟨ts, ⟨?_, hstretch.addGap [' '], ?_⟩, ?_⟩
  · obtain ⟨t, us, rfl⟩ := List.exists_cons_of_ne_nil hne
    exact List.cons_ne_nil _ _
  · show ∀ word ∈ _, e.kind.flatKeyword.toList ≠ String.toList word
    cases e.kind <;> decide
  · rw [flatLine_eq]
    exact CallParts.tokenize_line (spelled_flatParts h ts) hne rfl
      (htokens _ (CallParts.delimits_labels e.labels))

theorem notMem_flatLine {x : Char} (hx : TypeExpression.isTokenChar x = false)
    (hgap : x ∉ [' ', '\t', ',']) : x ∉ e.flatLine := by
  rw [flatLine_eq e []]
  refine CallParts.notMem_line (spelled_flatParts h []) hx hgap fun hmem => ?_
  rcases TypeExpression.isTokenChar_render h.type.base x hmem with htoken | rfl
  · rw [htoken] at hx
    cases hx
  · exact hgap List.mem_cons_self

end PlainDeclaration

/-! ## What the rules make of them -/

namespace Declaration

variable {kind : DeclarationKind} {s : Signature} {name text : Text} {t : TypeExpression}
  {ls : List Line}

/-- A call without a block is flattened by what its header says alone. -/
theorem flatten_ofSignature (hkey : s.hasKeyword kind.nullabilityKey.toList = false)
    (hname : s.name = some name) (htype : headerType s = some text)
    (ht : TypeExpression.parse text = some t) (index : Nat) :
    flatten kind (ofSignature index s) ls =
      flattenTyped kind (ofSignature index s) ls name .nothing t := by
  have hstatements : (ofSignature index s).statements ls = .ok [] := rfl
  unfold flatten
  simp only [ofSignature] at hstatements ⊢
  simp only [hkey, hname, hstatements, htype, bind, Except.bind, Option.some_or, ht]
  rfl

/-- Without a resolver the header is all that is written. -/
theorem flattenTyped_ofSignature {flat : Signature}
    (hflat : flatSignature kind s name .nothing t = flat) (hblock : flat.block = none)
    (hresolver : flat.keyword? "resolve".toList = none) (index : Nat) :
    flattenTyped kind (ofSignature index s) ls name .nothing t = .ok (.replace [flat.render]) := by
  have hnone : resolverText kind flat .nothing = none := by
    unfold resolverText
    rw [hresolver, ite_self]
    rfl
  have hlines : (ofSignature index s).reassemble ls flat [] [] = .ok [flat.render] := by
    obtain ⟨indent, keyword, name, positional, keywords, parenthesized, block, comments⟩ := flat
    obtain rfl : block = none := hblock
    rfl
  have hsignature : (ofSignature index s).signature = s := rfl
  have hremoved : Pulled.nothing.removed = [] := rfl
  unfold flattenTyped
  simp only [hsignature, hflat, hnone, hremoved, hlines, bind, Except.bind]
  rfl

theorem keyword?_eq_none {key : Text} (h : ∀ a ∈ s.keywords, a.key ≠ key) :
    s.keyword? key = none := by
  have hfind : s.keywords.find? (·.key == key) = none :=
    List.find?_eq_none.2 fun a ha => by simpa using h a ha
  rw [Signature.keyword?, hfind]
  rfl

theorem renameFirst_eq_self {old new : Text} {keywords : List KeywordArgument}
    (h : ∀ a ∈ keywords, a.key ≠ old) : Signature.renameFirst old new keywords = keywords := by
  induction keywords with
  | nil => rfl
  | cons a rest ih =>
    rw [Signature.renameFirst, if_neg (h a List.mem_cons_self),
      ih fun b hb => h b (List.mem_cons_of_mem a hb)]

/-- A call without a block that names no method is kept. -/
theorem renameProperty_ofSignature
    (h : ∀ a ∈ s.keywords, a.key ≠ "property".toList ∧ a.key ≠ "method".toList) (index : Nat) :
    renameProperty (ofSignature index s) ls = .ok .keep := by
  have hrename : s.renameKeyword "property".toList "method".toList = s := by
    rw [Signature.renameKeyword, renameFirst_eq_self fun a ha => (h a ha).1]
  have hproperty : s.hasKeyword "property".toList = false := by
    rw [Signature.hasKeyword, keyword?_eq_none fun a ha => (h a ha).1]
    rfl
  have hmethod : s.hasKeyword "method".toList = false := by
    rw [Signature.hasKeyword, keyword?_eq_none fun a ha => (h a ha).2]
    rfl
  have hsignature : (ofSignature index s).signature = s := rfl
  have hfind : (ofSignature index s).findStatement ls methodWords = .ok none := rfl
  unfold renameProperty
  simp only [hsignature, hrename, hproperty, hmethod, hfind, bind, Except.bind, Bool.false_eq_true,
    ↓reduceIte]

/-- A call without a block that sets no resolver is kept. -/
theorem moveResolver_ofSignature (h : ∀ a ∈ s.keywords, a.key ≠ "resolve".toList) (index : Nat) :
    moveResolver (ofSignature index s) ls = .ok .keep := by
  have hresolve : s.keyword? "resolve".toList = none := keyword?_eq_none h
  have hsignature : (ofSignature index s).signature = s := rfl
  have hfind : (ofSignature index s).findStatement ls ["resolve"] = .ok none := rfl
  unfold moveResolver
  simp only [hsignature, hresolve, hfind, bind, Except.bind]
  rfl

end Declaration

namespace PlainDeclaration

open Declaration

/-- The header of the new line. -/
def flatSignature (e : PlainDeclaration) : Signature :=
  { (e.flatParts []).signature with positional := [e.expression.render] }

variable {e : PlainDeclaration} (h : e.WellFormed)
include h

/-- The rule of the keyword writes the new line. -/
theorem flatten_legacyLine (index : Nat) (ls : List Line) :
    flatten e.kind (ofSignature index e.legacyParts.signature) ls = .ok (.replace [e.flatLine]) := by
  have htext : Token.spelling (Token.addGap [' '] (tokenize e.type)) =
      Token.spelling (tokenize e.type) := by cases tokenize e.type <;> rfl
  have htype : headerType e.legacyParts.signature = some (Token.spelling (tokenize e.type)) := by
    show (if isStringLiteral (Token.spelling (Token.addGap [' '] (tokenize e.type))) then none
      else some (Token.spelling (Token.addGap [' '] (tokenize e.type)))) = _
    rw [htext, h.type.isStringLiteral_spelling, if_neg Bool.false_ne_true]
  have hflat : Declaration.flatSignature e.kind e.legacyParts.signature (':' :: e.name) .nothing
      e.expression = e.flatSignature := by
    unfold Declaration.flatSignature flatPositional flatKeywords
    rw [htype, h.declared?_name]
    cases hk : e.kind <;>
      simp [Pulled.nothing, CallParts.signature, legacyParts, flatSignature, flatParts, labels, hk,
        Name.symbol]
  have hresolver : e.flatSignature.keyword? "resolve".toList = none := by
    have hkeys : (e.labels.map Prod.fst).contains "resolve".toList = false := by
      unfold labels
      cases e.kind <;> rfl
    rw [Signature.keyword?, Option.map_eq_none_iff, List.find?_eq_none]
    intro argument hargument hresolve
    obtain ⟨label, hlabel, rfl⟩ := List.mem_map.1 hargument
    have hmem : "resolve".toList ∈ e.labels.map Prod.fst :=
      List.mem_map.2 ⟨label, hlabel, beq_iff_eq.1 hresolve⟩
    rw [← List.contains_iff_mem, hkeys] at hmem
    cases hmem
  have hrender : e.flatSignature.render = e.flatLine := by
    rw [flatLine_eq e []]
    exact CallParts.render_eq _ (List.cons_ne_nil _ _) _
  have hname : e.legacyParts.signature.name = some (':' :: e.name) := rfl
  rw [flatten_ofSignature rfl hname htype h.type.parse_spelling,
    flattenTyped_ofSignature hflat rfl hresolver, hrender]

/-! ## One line under one rule -/

theorem startsOn_legacyLine (keyword : String) :
    startsOn keyword e.legacyLine = (e.kind.keyword.toList == keyword.toList) := by
  unfold startsOn
  rw [CallParts.tokenizeCode_eq (wellFormed_legacyParts h) (tokenize_legacyLine h)]
  exact Bool.and_true _

theorem startsOn_flatLine (keyword : String) :
    startsOn keyword e.flatLine = (e.kind.flatKeyword.toList == keyword.toList) := by
  obtain ⟨ts, hparts, hline⟩ := exists_flatParts h
  unfold startsOn
  rw [CallParts.tokenizeCode_eq hparts hline]
  exact Bool.and_true _

omit h in
theorem keyword_mem (kind : DeclarationKind) :
    kind.keyword ∈ ["field", "argument", "input_field", "connection"] ∧
      kind.flatKeyword ∈ ["field", "argument", "input_field", "connection"] := by
  cases kind <;> decide

/-- Both lines start with the keyword of a declaration. -/
theorem head?_isWord {line : Line} (hline : line = e.legacyLine ∨ line = e.flatLine)
    {word : String} (hword : word ∉ ["field", "argument", "input_field", "connection"]) :
    (tokenizeCode line).head?.any (·.isWord word) = false := by
  have hhead : ∃ keyword : String, keyword ∈ ["field", "argument", "input_field", "connection"] ∧
      (tokenizeCode line).head? = some ⟨[' ', ' '], .identifier, keyword.toList⟩ := by
    rcases hline with rfl | rfl
    · rw [CallParts.tokenizeCode_eq (wellFormed_legacyParts h) (tokenize_legacyLine h)]
      exact ⟨_, (keyword_mem e.kind).1, rfl⟩
    · obtain ⟨ts, hparts, hline⟩ := exists_flatParts h
      rw [CallParts.tokenizeCode_eq hparts hline]
      exact ⟨_, (keyword_mem e.kind).2, rfl⟩
  obtain ⟨keyword, hmem, hhead⟩ := hhead
  have hne : keyword.toList ≠ word.toList := by
    intro heq
    rw [← String.toList_inj.1 heq] at hword
    exact hword hmem
  simp only [hhead, Option.any_some, Token.isWord, beq_eq_false_iff_ne.2 hne, Bool.and_false]

omit h in
/-- Neither line is the header of a definition. -/
theorem parse?_line {line : Line} (hline : line = e.legacyLine ∨ line = e.flatLine) :
    DefinitionHeader.parse? line = none := by
  have hletter : ∀ keyword ∈ ["field", "argument", "input_field", "connection"],
      ∃ c cs, keyword.toList = c :: cs ∧ Text.isBlankChar c = false ∧ c.isUpper = false := by
    intro keyword hmem
    simp only [List.mem_cons, List.not_mem_nil, or_false] at hmem
    rcases hmem with rfl | rfl | rfl | rfl <;>
      exact ⟨_, _, rfl, by decide, by decide⟩
  have hnone : ∀ {c : Char} {rest : Text}, Text.isBlankChar c = false ∧ c.isUpper = false →
      DefinitionHeader.parse? ([' ', ' '] ++ c :: rest) = none := fun hc =>
    DefinitionHeader.parse?_of_blank_append isIndent_two.isBlankChar fun d hd => by
      obtain rfl := Option.some.inj hd
      exact hc
  rcases hline with rfl | rfl
  · obtain ⟨c, cs, hkeyword, hc⟩ := hletter _ (keyword_mem e.kind).1
    obtain ⟨rest, hline⟩ := CallParts.exists_line_eq (p := e.legacyParts) hkeyword e.type
    rw [legacyLine_eq, hline]
    exact hnone hc
  · obtain ⟨c, cs, hkeyword, hc⟩ := hletter _ (keyword_mem e.kind).2
    obtain ⟨rest, hline⟩ := CallParts.exists_line_eq (p := e.flatParts []) hkeyword
      e.expression.render
    rw [flatLine_eq e [], hline]
    exact hnone hc

/-- The two lines of a declaration differ. -/
theorem legacyLine_ne_flatLine : e.legacyLine ≠ e.flatLine := by
  intro heq
  obtain ⟨ts, hparts, hline⟩ := exists_flatParts h
  have hlegacy := (oneLine_legacyLine h).parse
  rw [heq, CallParts.parse_eq hparts hline (by
    rw [flatLine_eq e ts]
    exact CallParts.indentation_line (spelled_flatParts h ts) _)] at hlegacy
  cases congrArg Signature.keywords (Option.some.inj hlegacy)

/-- Only the rule of its keyword changes a legacy line. -/
theorem lineEdit_legacyLine (kind : DeclarationKind) :
    LineEdit kind.keyword (flatten kind) e.legacyLine
      (if e.kind = kind then e.flatLine else e.legacyLine) := by
  have hstarts := startsOn_legacyLine h kind.keyword
  split
  · rename_i hkind
    subst hkind
    rw [beq_self_eq_true] at hstarts
    exact .call hstarts (oneLine_legacyLine h) (.inr (flatten_legacyLine h))
  · rename_i hkind
    refine .other (hstarts.trans (beq_eq_false_iff_ne.2 ?_))
    revert hkind
    cases e.kind <;> cases kind <;> decide

omit h in
/-- The keys of a flat call. -/
theorem key_flatParts {ts : List Token} {a : KeywordArgument}
    (ha : a ∈ (e.flatParts ts).signature.keywords) :
    a.key ∈ ["null".toList, "required".toList, "connection".toList] := by
  obtain ⟨label, hlabel, rfl⟩ := List.mem_map.1 ha
  rcases List.mem_cons.1 hlabel with rfl | hlabel
  · show e.kind.nullabilityKey.toList ∈ _
    cases e.kind <;> decide
  · split at hlabel
    · rw [List.mem_singleton.1 hlabel]
      show "connection".toList ∈ _
      decide
    · cases hlabel

omit h in
/-- A rule for the keyword of a flat call finds nothing to do. -/
theorem revise_flatParts {editor : Editor} (he : editor ∈ editors)
    (hkeyword : e.kind.flatKeyword.toList = editor.keyword.toList) (ts : List Token) (index : Nat)
    (ls : List Line) :
    editor.revise (ofSignature index (e.flatParts ts).signature) ls = .ok .keep := by
  have hsame : ∀ kind : DeclarationKind, e.kind.flatKeyword.toList = kind.keyword.toList →
      kind.nullabilityKey = e.kind.nullabilityKey := by
    intro kind
    cases kind <;> cases e.kind <;> decide
  have hflatten : ∀ kind : DeclarationKind, e.kind.flatKeyword.toList = kind.keyword.toList →
      flatten kind (ofSignature index (e.flatParts ts).signature) ls = .ok .keep := by
    intro kind hkind
    have hkey : (e.flatParts ts).signature.hasKeyword kind.nullabilityKey.toList = true := by
      rw [hsame kind hkind, Signature.hasKeyword, Signature.keyword?, Option.isSome_map,
        List.find?_isSome]
      exact ⟨_, List.mem_cons_self, beq_self_eq_true _⟩
    unfold flatten
    exact if_pos hkey
  have hkeys : ∀ key ∈ ["null".toList, "required".toList, "connection".toList],
      key ≠ "property".toList ∧ key ≠ "method".toList ∧ key ≠ "resolve".toList := by decide
  have hno := fun a (ha : a ∈ (e.flatParts ts).signature.keywords) => hkeys _ (key_flatParts ha)
  rcases editors_cases he with ⟨kind, rfl⟩ | rfl | rfl
  · exact hflatten kind hkeyword
  · exact renameProperty_ofSignature (fun a ha => ⟨(hno a ha).1, (hno a ha).2.1⟩) index
  · exact moveResolver_ofSignature (fun a ha => (hno a ha).2.2) index

/-- Each rule keeps a flat line. -/
theorem lineEdit_flatLine {editor : Editor} (he : editor ∈ editors) :
    LineEdit editor.keyword editor.revise e.flatLine e.flatLine := by
  obtain ⟨ts, hparts, hline⟩ := exists_flatParts h
  have hone : OneLine e.flatLine (e.flatParts ts).signature := by
    refine ⟨CallParts.ofLine_eq hparts hline (notMem_flatLine h (by decide) (by decide)),
      CallParts.parse_eq hparts hline ?_⟩
    rw [flatLine_eq e ts]
    exact CallParts.indentation_line (spelled_flatParts h ts) _
  by_cases hstarts : startsOn editor.keyword e.flatLine = true
  · refine .call hstarts hone (.inl ⟨rfl, fun index ls => ?_⟩)
    rw [startsOn_flatLine h, beq_iff_eq] at hstarts
    exact revise_flatParts he hstarts ts index ls
  · exact .other (Bool.eq_false_iff.2 hstarts)

/-! ## Lines on their way -/

omit h

/-- The declaration when the rules of the kinds `done` have been applied. -/
def stageLine (done : List DeclarationKind) (e : PlainDeclaration) : Line :=
  if e.kind ∈ done then e.flatLine else e.legacyLine

theorem stageLine_cases (done : List DeclarationKind) (e : PlainDeclaration) :
    e.stageLine done = e.legacyLine ∨ e.stageLine done = e.flatLine := by
  unfold stageLine
  split
  · exact .inr rfl
  · exact .inl rfl

include h

theorem lineEdit_stageLine (done : List DeclarationKind) (kind : DeclarationKind) :
    LineEdit kind.keyword (flatten kind) (e.stageLine done) (e.stageLine (kind :: done)) := by
  have heditor : ⟨kind.rule, kind.keyword, flatten kind⟩ ∈ editors := by
    cases kind <;> simp [editors, DeclarationKind.rule, DeclarationKind.keyword]
  by_cases hdone : e.kind ∈ done
  · rw [stageLine, stageLine, if_pos hdone, if_pos (List.mem_cons_of_mem kind hdone)]
    exact lineEdit_flatLine h heditor
  · have hnext : e.stageLine (kind :: done) = if e.kind = kind then e.flatLine else e.legacyLine := by
      simp only [stageLine, List.mem_cons, hdone, or_false]
    rw [hnext, stageLine, if_neg hdone]
    exact lineEdit_legacyLine h kind

theorem stageLine_ne_iff {done : List DeclarationKind} {kind : DeclarationKind}
    (hkind : kind ∉ done) : e.stageLine done ≠ e.stageLine (kind :: done) ↔ e.kind = kind := by
  unfold stageLine
  by_cases hdone : e.kind ∈ done
  · have hne : e.kind ≠ kind := fun heq => hkind (heq ▸ hdone)
    simp [hdone, hne]
  · by_cases heq : e.kind = kind
    · simp [heq, hkind, legacyLine_ne_flatLine h]
    · simp [hdone, heq]

end PlainDeclaration

end SchemaLift
