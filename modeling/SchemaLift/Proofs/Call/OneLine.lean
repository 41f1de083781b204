import SchemaLift.Block.Shape
import SchemaLift.Proofs.Call.Parts
import SchemaLift.Proofs.Text.Match
import SchemaLift.Proofs.Type.Render

/-!
# Calls on one line

The tokens of a call `keyword :name, type, key: value` are known from its parts (`CallParts.tokens`),
and from them what its signature is (`CallParts.parse_eq`) and that its line is a whole statement
which opens no block (`CallParts.ofLine_eq`).
-/

namespace SchemaLift

/-- The parts of a call `keyword :name, type, key: value, ...`. -/
structure CallParts where
  indent : Text
  keyword : Text
  /-- The name as a symbol. -/
  symbol : Text
  /-- The tokens of the argument after the name. -/
  type : List Token
  /-- The keyword arguments; their values are single words. -/
  labels : List (Text × Text)

namespace CallParts

def labelTokens (label : Text × Text) : List Token :=
  [⟨[], .comma, [',']⟩, ⟨[' '], .label, label.1 ++ [':']⟩, ⟨[' '], .identifier, label.2⟩]

def tokens (p : CallParts) : List Token :=
  ⟨p.indent, .identifier, p.keyword⟩ :: ⟨[' '], .symbol, p.symbol⟩ :: ⟨[], .comma, [',']⟩ ::
    (p.type ++ p.labels.flatMap labelTokens)

/-- The name, the type, and the keyword arguments. -/
def items (p : CallParts) : List (List Token) :=
  [⟨[' '], .symbol, p.symbol⟩] :: p.type :: p.labels.map fun label => (labelTokens label).tail

/-- The kinds of tokens in a call after its keyword. -/
def argumentKinds : List TokenKind := TypeExpression.tokenKinds ++ [.symbol, .comma, .label]

/-- The argument after the name is a type expression. -/
structure WellFormed (p : CallParts) : Prop where
  type_ne_nil : p.type ≠ []
  stretch : TypeExpression.Stretch 0 p.type 0
  /-- The keyword opens no block. -/
  keyword : ∀ word ∈ BlockEvent.definitionWords ++ BlockEvent.conditionWords ++ BlockEvent.loopWords,
    p.keyword ≠ word.toList

/-- The signature of the call. -/
def signature (p : CallParts) : Signature :=
  { indent := p.indent
    keyword := p.keyword
    name := some p.symbol
    positional := [Token.spelling p.type]
    keywords := p.labels.map fun label => .labelled label.1 label.2
    parenthesized := false
    block := none
    comments := [] }

theorem ne_of_mem_tokenKinds : ∀ kind ∈ TypeExpression.tokenKinds, kind ≠ .label ∧ kind ≠ .symbol ∧
    kind ≠ .comma ∧ kind ≠ .doWord ∧ kind ≠ .pipe := by decide

theorem ne_of_mem_argumentKinds : ∀ kind ∈ argumentKinds, kind ≠ .comment ∧ kind ≠ .semicolon ∧
    kind ≠ .doWord ∧ kind ≠ .endWord ∧ kind ≠ .operator := by decide

variable {p : CallParts} (h : p.WellFormed)
include h

/-- The last token belongs to the type or is the value of a keyword argument. -/
theorem exists_getLast? : ∃ t, p.tokens.getLast? = some t ∧ t.kind ∈ TypeExpression.tokenKinds := by
  obtain ⟨t, ht⟩ : ∃ t, p.type.getLast? = some t :=
    Option.ne_none_iff_exists'.1 fun hnone => h.type_ne_nil (List.getLast?_eq_none_iff.1 hnone)
  have hlast : ∃ t, (p.type ++ p.labels.flatMap labelTokens).getLast? = some t ∧
      t.kind ∈ TypeExpression.tokenKinds := by
    rcases p.labels.eq_nil_or_concat with hnil | ⟨before, last, hlabels⟩
    · rw [hnil, List.flatMap_nil, List.append_nil]
      exact ⟨t, ht, h.stretch.kinds t (List.mem_of_getLast? ht)⟩
    · refine ⟨⟨[' '], .identifier, last.2⟩, ?_, (by decide : TokenKind.identifier ∈ _)⟩
      rw [hlabels, List.concat_eq_append, List.flatMap_append, List.flatMap_singleton,
        List.getLast?_append, List.getLast?_append]
      rfl
  obtain ⟨last, hlast, hkind⟩ := hlast
  refine ⟨last, ?_, hkind⟩
  have hsplit : p.tokens = [⟨p.indent, .identifier, p.keyword⟩, ⟨[' '], .symbol, p.symbol⟩,
      ⟨[], .comma, [',']⟩] ++ (p.type ++ p.labels.flatMap labelTokens) := rfl
  rw [hsplit, List.getLast?_append, hlast]
  rfl

theorem kind_of_mem {t : Token} (ht : t ∈ p.tokens.tail) :
    t.kind ∈ argumentKinds := by
  have hsymbol : TokenKind.symbol ∈ argumentKinds := by decide
  have hcomma : TokenKind.comma ∈ argumentKinds := by decide
  have hlabel : TokenKind.label ∈ argumentKinds := by decide
  have hvalue : TokenKind.identifier ∈ argumentKinds := by decide
  simp only [tokens, List.tail_cons, List.mem_cons, List.mem_append, List.mem_flatMap] at ht
  rcases ht with rfl | rfl | ht | ⟨label, -, ht⟩
  · exact hsymbol
  · exact hcomma
  · exact List.mem_append_left _ (h.stretch.kinds t ht)
  · simp only [labelTokens, List.mem_cons, List.not_mem_nil, or_false] at ht
    rcases ht with rfl | rfl | rfl
    · exact hcomma
    · exact hlabel
    · exact hvalue

theorem kind_ne_comment : ∀ t ∈ p.tokens, t.kind ≠ .comment := by
  intro t ht hk
  rcases List.mem_cons.1 ht with rfl | ht
  · cases hk
  · exact (ne_of_mem_argumentKinds _ (kind_of_mem h ht)).1 hk

theorem tokenizeCode_eq {line : Line} (hline : tokenize line = p.tokens) :
    tokenizeCode line = p.tokens := by
  rw [tokenizeCode, hline, Token.dropComments_eq_self (kind_ne_comment h)]

/-! ## Its signature -/

theorem noBlock_tokens : Signature.NoBlock p.tokens := by
  obtain ⟨last, hlast, hkind⟩ := exists_getLast? h
  obtain ⟨before, htokens⟩ := List.getLast?_eq_some_iff.1 hlast
  obtain ⟨-, -, -, hdo, hpipe⟩ := ne_of_mem_tokenKinds _ hkind
  rw [htokens]
  exact Signature.noBlock_of_last before hdo hpipe

omit h in
theorem segments_labels (labels : List (Text × Text)) :
    Token.segments 0 (labels.flatMap labelTokens) =
      some ([] :: labels.map fun label => (labelTokens label).tail) := by
  induction labels with
  | nil => rfl
  | cons label labels ih =>
    have hpair : Token.depthPast 0 (labelTokens label).tail = some 0 := rfl
    have hrest := Token.segments_append hpair ih
    rw [List.append_nil] at hrest
    have hsplit : (label :: labels).flatMap labelTokens = ⟨[], .comma, [',']⟩ ::
        ((labelTokens label).tail ++ labels.flatMap labelTokens) := rfl
    rw [hsplit, Token.segments_comma rfl, hrest]
    rfl

theorem segments_tokens : Token.segments 0 p.tokens.tail = some p.items := by
  have htype := Token.segments_append h.stretch.depth (segments_labels p.labels)
  have hcomma := Token.segments_comma (t := ⟨[], .comma, [',']⟩) rfl
    (p.type ++ p.labels.flatMap labelTokens)
  rw [htype, Option.map_some, List.append_nil] at hcomma
  have hsymbol : Token.depthPast 0 [⟨[' '], .symbol, p.symbol⟩] = some 0 := rfl
  exact Token.segments_append hsymbol hcomma

theorem filter_items : p.items.filter (!·.isEmpty) = p.items := by
  rw [List.filter_eq_self]
  intro item hitem
  simp only [items, List.mem_cons, List.mem_map] at hitem
  rcases hitem with rfl | rfl | ⟨label, -, rfl⟩
  · rfl
  · simpa using h.type_ne_nil
  · rfl

/-- The call has a keyword and arguments without parentheses. -/
theorem exists_cuts : ∃ parts : Signature.Parts, parts.Cuts p.tokens ∧ parts.items = p.items ∧
    parts.frame p.indent = ⟨p.indent, p.keyword, none, [], [], false, none, []⟩ := by
  obtain ⟨commas, hitems⟩ := Token.segments_eq_some_iff.1 (segments_tokens h)
  refine ⟨⟨⟨p.indent, .identifier, p.keyword⟩, none, p.tokens.tail, commas, p.items, []⟩,
    ⟨(List.append_nil _).symm, rfl, ?_, hitems, .inl ⟨rfl, noBlock_tokens h⟩⟩, rfl, rfl⟩
  rintro t ⟨⟩ ⟨hkind, -⟩
  cases hkind

omit h in
theorem foldl_keywords (s : Signature) (labels : List KeywordArgument) :
    (labels.map Argument.keyword).foldl Signature.addArgument s =
      { s with keywords := s.keywords ++ labels } := by
  induction labels generalizing s with
  | nil => simp
  | cons a labels ih =>
    rw [List.map_cons, List.foldl_cons, ih]
    simp [Signature.addArgument]

theorem ofTokens_type : Argument.ofTokens p.type = .positional (Token.spelling p.type) := by
  unfold Argument.ofTokens
  split
  · rename_i key value rest heq
    have hkind := h.stretch.kinds key (by rw [heq]; exact List.mem_cons_self)
    obtain ⟨hlabel, hsymbol, -⟩ := ne_of_mem_tokenKinds _ hkind
    rw [if_neg hlabel, if_neg fun hand => hsymbol hand.1, heq]
  · rfl

omit h in
theorem ofTokens_label (label : Text × Text) :
    Argument.ofTokens (labelTokens label).tail = .keyword (.labelled label.1 label.2) := by
  have hvalue : Token.spelling [⟨[' '], .identifier, label.2⟩] = label.2 := by
    simp [Token.spelling]
  show Argument.keyword ⟨(label.1 ++ [':']).dropLast, _, .label⟩ = _
  rw [hvalue, List.dropLast_concat]
  rfl

theorem map_ofTokens_items : p.items.map Argument.ofTokens =
    .positional p.symbol :: .positional (Token.spelling p.type) ::
      (p.labels.map fun label => .labelled label.1 label.2).map Argument.keyword := by
  have hsymbol : Argument.ofTokens [⟨[' '], .symbol, p.symbol⟩] = .positional p.symbol := by
    show Argument.positional (p.symbol ++ []) = _
    rw [List.append_nil]
  rw [items, List.map_cons, List.map_cons, List.map_map, List.map_map, hsymbol, ofTokens_type h]
  congr 2
  exact List.map_congr_left fun label _ => ofTokens_label label

/-- What a line with these tokens is read as. -/
theorem parse_eq {line : Line} (hline : tokenize line = p.tokens)
    (hindent : Text.indentation line = p.indent) : Signature.parse line = some p.signature := by
  have hcode : ∀ t ∈ tokenize line, t.kind ≠ .comment := hline ▸ kind_ne_comment h
  obtain ⟨parts, hcuts, hitems, hframe⟩ := exists_cuts h
  refine (Signature.parse_eq_signature_iff hcode).2 ⟨parts, hline ▸ hcuts, ?_⟩
  rw [Signature.Parts.signature, Signature.Parts.argumentList, hitems, filter_items h,
    map_ofTokens_items h, hindent, hframe, List.foldl_cons, List.foldl_cons, foldl_keywords]
  rfl

/-! ## Its shape -/

omit h in
/-- Tokens that neither are block words nor end a statement open and close nothing. -/
theorem scan_eq_nil {before : Token} {loop : Bool} {ts : List Token}
    (hbefore : BlockEvent.startsValue (some before) = false)
    (hts : ∀ t ∈ ts, t.kind ∈ argumentKinds) : BlockEvent.scan (some before) loop ts = [] := by
  induction ts generalizing before with
  | nil => rfl
  | cons t ts ih =>
    obtain ⟨-, hsemicolon, hdo, hend, hoperator⟩ :=
      ne_of_mem_argumentKinds _ (hts t List.mem_cons_self)
    have hnext : BlockEvent.startsValue (some t) = false := by
      simp [BlockEvent.startsValue, Token.is, hsemicolon, hoperator]
    have hrest := ih hnext fun u hu => hts u (List.mem_cons_of_mem t hu)
    rw [BlockEvent.scan]
    simp only [hsemicolon, hdo, hend, hbefore, hrest, ↓reduceIte, Bool.false_and,
      Bool.false_eq_true, ite_self]

theorem ofTokens_events : BlockEvent.ofTokens p.tokens = [] := by
  have hword : BlockEvent.isWordOf (BlockEvent.definitionWords ++ BlockEvent.conditionWords ++
      BlockEvent.loopWords) ⟨p.indent, .identifier, p.keyword⟩ = false := by
    unfold BlockEvent.isWordOf
    rw [List.any_eq_false]
    intro word hmem hw
    exact h.keyword word hmem (beq_iff_eq.1 (Bool.and_eq_true_iff.1 hw).2)
  have htail : p.tokens = ⟨p.indent, .identifier, p.keyword⟩ :: p.tokens.tail := rfl
  have hrest : ∀ loop, BlockEvent.scan (some ⟨p.indent, .identifier, p.keyword⟩) loop
      p.tokens.tail = [] := fun loop => scan_eq_nil rfl fun t ht => kind_of_mem h ht
  rw [BlockEvent.ofTokens, htail, BlockEvent.scan]
  simp only [BlockEvent.afterDot, hword, hrest, Bool.and_false, reduceCtorEq, ↓reduceIte,
    Bool.false_eq_true]

theorem bracketDepth_tokens : Token.bracketDepth p.tokens = 0 := by
  have hlabels : Token.bracketDepth (p.labels.flatMap labelTokens) = 0 := by
    induction p.labels with
    | nil => rfl
    | cons label labels ih => rw [List.flatMap_cons, Token.bracketDepth_append, ih]; rfl
  have htype := Token.bracketDepth_eq h.stretch.depth
  have hsplit : p.tokens = [⟨p.indent, .identifier, p.keyword⟩, ⟨[' '], .symbol, p.symbol⟩,
      ⟨[], .comma, [',']⟩] ++ (p.type ++ p.labels.flatMap labelTokens) := rfl
  have hfirst : Token.bracketDepth [⟨p.indent, .identifier, p.keyword⟩,
      ⟨[' '], .symbol, p.symbol⟩, ⟨[], .comma, [',']⟩] = 0 := rfl
  rw [hsplit, Token.bracketDepth_append, Token.bracketDepth_append, hlabels, hfirst]
  omega

/-- The line is a whole statement, and opens no block. -/
theorem ofLine_eq {line : Line} (hline : tokenize line = p.tokens) (hslash : '\\' ∉ line) :
    LineShape.ofLine line = ⟨[], 0, false, false⟩ := by
  obtain ⟨last, hlast, hkind⟩ := exists_getLast? h
  have hcomma : last.is .comma = false := by
    rw [Token.is, beq_eq_false_iff_ne]
    exact (ne_of_mem_tokenKinds _ hkind).2.2.1
  have hend : Text.endsWith (Text.trimEnd line) '\\' = false := by
    rw [Bool.eq_false_iff]
    intro hends
    exact hslash (Text.mem_of_endsWith_trimEnd hends)
  unfold LineShape.ofLine
  simp only [tokenizeCode_eq h hline, ofTokens_events h, bracketDepth_tokens h, hend, hlast,
    Option.any_some, hcomma, Bool.or_false]
  rfl

end CallParts

end SchemaLift
