import SchemaLift.Proofs.Block.Balance
import SchemaLift.Proofs.Definition.HeaderLine
import SchemaLift.Proofs.Definition.NameStatement
import SchemaLift.Proofs.Token.Bracket
import SchemaLift.Proofs.Token.Lookahead
import SchemaLift.Proofs.Token.Spells

/-!
# What a name statement adds to the depths

A line that is read as `name "X"` consists of the keyword, a literal and two optional parentheses
(`exists_parts`), so it opens and closes no block (`depth_of_parse?`); either parenthesis may be missing
alone, and then the line leaves a bracket open or closes one. Renaming its first token changes neither
depth (`lineBalance_renamed`).
-/

namespace SchemaLift

/-! ## Literals -/

/-- A literal is one token, whatever follows it. -/
structure IsLiteral (kind : TokenKind) (w : Text) : Prop where
  string : kind.isString = true
  tokenizeCode : ∀ rest, tokenizeCode (w ++ rest) = ⟨[], kind, w⟩ :: tokenizeCode rest

theorem isLiteral_doubleQuoted {name : Text} (h : ∀ c ∈ name, c ≠ '"' ∧ c ≠ '\\' ∧ c ≠ '#') :
    IsLiteral .doubleQuoted ('"' :: (name ++ ['"'])) where
  string := rfl
  tokenizeCode := by
    intro rest
    have hrun : Quoted.Scanner.run ⟨[.string], .plain⟩ name = ⟨[.string], .plain⟩ := by
      induction name with
      | nil => rfl
      | cons c cs ih =>
        obtain ⟨hquote, hback, hhash⟩ := h c List.mem_cons_self
        have hstep : Quoted.Scanner.step ⟨[.string], .plain⟩ c = ⟨[.string], .plain⟩ := by
          simp [Quoted.Scanner.step, hquote, hback, hhash]
        rw [Quoted.Scanner.run_cons, hstep, ih fun d hd => h d (List.mem_cons_of_mem c hd)]
    have hclose : Quoted.stringClose (name ++ '"' :: rest) = some name.length := by
      rw [Quoted.stringClose, Quoted.Scanner.closing_eq .outerString]
      refine Quoted.Scanner.closeFrom_of_step ?_ ?_ rest
      · rw [hrun]
        exact List.cons_ne_nil _ _
      · rw [hrun]
        rfl
    have hhead : Scan.head '"' ((name ++ ['"']) ++ rest) =
        (some .doubleQuoted, (name ++ ['"']).length) := by
      rw [List.append_assoc, List.singleton_append, List.length_append, List.length_singleton]
      simp only [Scan.head, ↓reduceIte, hclose]
    exact tokenizeCode_of_pieces TokenKind.noConfusion (Scan.pieces_of_head hhead)

theorem isLiteral_singleQuoted {name : Text} (h : ∀ c ∈ name, c ≠ '\'' ∧ c ≠ '\\') :
    IsLiteral .singleQuoted ('\'' :: (name ++ ['\''])) where
  string := rfl
  tokenizeCode := by
    intro rest
    have hextent : Quoted.plainExtent '\'' (name ++ '\'' :: rest) = .closed (name.length + 1) := by
      induction name with
      | nil => rfl
      | cons c cs ih =>
        obtain ⟨hquote, hback⟩ := h c List.mem_cons_self
        rw [List.cons_append, Scan.plainExtent_cons hback, if_neg hquote,
          ih fun d hd => h d (List.mem_cons_of_mem c hd)]
        rfl
    have hhead : Scan.head '\'' ((name ++ ['\'']) ++ rest) =
        (some .singleQuoted, (name ++ ['\'']).length) := by
      rw [List.append_assoc, List.singleton_append, List.length_append, List.length_singleton]
      simp only [Scan.head, Char.reduceEq, ↓reduceIte, hextent]
    exact tokenizeCode_of_pieces TokenKind.noConfusion (Scan.pieces_of_head hhead)

/-- A line whose code does not begin with `c` is no class header. -/
theorem ClassHeader.parse?_of_blank_append {front rest : Text}
    (hfront : ∀ d ∈ front, Text.isBlankChar d = true)
    (hrest : ∀ c ∈ rest.head?, Text.isBlankChar c = false ∧ c ≠ 'c') :
    ClassHeader.parse? (front ++ rest) = none := by
  have hblank : Text.afterBlank (front ++ rest) = rest :=
    (Text.trimStart_blank_append hfront rest).trans (Text.trimStart_of_head? fun c hc => (hrest c hc).1)
  have hword : Text.afterWord? "class" rest = none := by
    refine if_neg ?_
    rintro ⟨t, rfl⟩
    exact (hrest 'c' rfl).2 rfl
  unfold ClassHeader.parse?
  rw [hblank, hword]
  rfl

namespace NameStatement

theorem quoted?_eq_some {s name rest : Text} (h : quoted? s = some (name, rest)) :
    ∃ kind literal, IsLiteral kind literal ∧ s = literal ++ rest := by
  unfold quoted? at h
  split at h
  · rename_i cs
    obtain ⟨after, hafter, heq⟩ := Option.map_eq_some_iff.1 h
    obtain ⟨rfl, rfl⟩ := Prod.mk.inj heq
    obtain ⟨hname, hcs⟩ := Text.eq_append_of_spanOf (p := fun c => c != '"' && c != '\\' && c != '#')
      (s := cs) rfl
    refine ⟨_, _, isLiteral_doubleQuoted fun c hc => by simpa [and_assoc] using hname c hc, ?_⟩
    rw [Text.eq_append_of_afterWord? hafter] at hcs
    rw [List.cons_append, List.append_assoc]
    exact congrArg ('"' :: ·) hcs
  · rename_i cs
    obtain ⟨after, hafter, heq⟩ := Option.map_eq_some_iff.1 h
    obtain ⟨rfl, rfl⟩ := Prod.mk.inj heq
    obtain ⟨hname, hcs⟩ := Text.eq_append_of_spanOf (p := fun c => c != '\'' && c != '\\')
      (s := cs) rfl
    refine ⟨_, _, isLiteral_singleQuoted fun c hc => by simpa using hname c hc, ?_⟩
    rw [Text.eq_append_of_afterWord? hafter] at hcs
    rw [List.cons_append, List.append_assoc]
    exact congrArg ('\'' :: ·) hcs
  · cases h

/-! ## The parts of the line -/

/-- The parts of a name statement behind its keyword. -/
structure Parts where
  beforeOpen : Text
  opened : Bool
  afterOpen : Text
  literal : Text
  beforeClose : Text
  closed : Bool
  afterClose : Text
  comment : Text

namespace Parts

def text (p : Parts) : Text :=
  p.beforeOpen ++ ((if p.opened then ['('] else []) ++ (p.afterOpen ++ (p.literal ++
    (p.beforeClose ++ ((if p.closed then [')'] else []) ++ (p.afterClose ++ p.comment))))))

structure WellFormed (p : Parts) (kind : TokenKind) : Prop where
  beforeOpen : ∀ c ∈ p.beforeOpen, Text.isBlankChar c = true
  afterOpen : ∀ c ∈ p.afterOpen, Text.isBlankChar c = true
  literal : IsLiteral kind p.literal
  beforeClose : ∀ c ∈ p.beforeClose, Text.isBlankChar c = true
  afterClose : ∀ c ∈ p.afterClose, Text.isBlankChar c = true
  comment : p.comment = [] ∨ ∃ cs, p.comment = '#' :: cs

end Parts

/-- White space, then a bracket that may be missing, then white space. -/
theorem exists_optional (word : String) (s : Text) :
    ∃ (ws : Text) (there : Bool) (ws' : Text), (∀ c ∈ ws, Text.isBlankChar c = true) ∧
      (∀ c ∈ ws', Text.isBlankChar c = true) ∧
      s = ws ++ ((if there then word.toList else []) ++ (ws' ++
        Text.afterBlank ((Text.afterWord? word (Text.afterBlank s)).getD (Text.afterBlank s)))) := by
  obtain ⟨ws, hws, hs⟩ := Text.exists_blank_append s
  cases h : Text.afterWord? word (Text.afterBlank s) with
  | none =>
    obtain ⟨ws', hws', hs'⟩ := Text.exists_blank_append (Text.afterBlank s)
    refine ⟨ws, false, ws', hws, hws', ?_⟩
    rw [Option.getD_none, ← hs', if_neg Bool.false_ne_true, List.nil_append, ← hs]
  | some rest =>
    obtain ⟨ws', hws', hs'⟩ := Text.exists_blank_append rest
    refine ⟨ws, true, ws', hws, hws', ?_⟩
    rw [Option.getD_some, ← hs', if_pos rfl, ← Text.eq_append_of_afterWord? h, ← hs]

/-- A line that is read as a name statement is one. -/
theorem exists_parts {line : Line} {name : Text} (h : parse? line = some name) :
    ∃ (indent : Text) (p : Parts) (kind : TokenKind), (∀ c ∈ indent, Text.isBlankChar c = true) ∧
      p.WellFormed kind ∧ Scan.Delimits p.text ∧ line = indent ++ ("name".toList ++ p.text) := by
  unfold parse? at h
  simp only [Option.bind_eq_bind, Option.bind_eq_some_iff] at h
  obtain ⟨s, hword, ⟨name', s'⟩, hquoted, comment, hcomment, -⟩ := h
  have hdelimits : Scan.Delimits s := delimits_of_quoted? (by rw [hquoted]; rfl)
  obtain ⟨indent, hindent, hline⟩ := Text.exists_blank_append line
  obtain ⟨ws₁, opened, ws₂, hws₁, hws₂, hs⟩ := exists_optional "(" s
  obtain ⟨ws₃, closed, ws₄, hws₃, hws₄, hs'⟩ := exists_optional ")" s'
  obtain ⟨kind, literal, hliteral, hl⟩ := quoted?_eq_some hquoted
  obtain ⟨hend, hshape⟩ := DefinitionHeader.finalComment?_eq_some hcomment
  have htext : s = (⟨ws₁, opened, ws₂, literal, ws₃, closed, ws₄, comment⟩ : Parts).text := by
    rw [hl] at hs
    rw [hend] at hs'
    rw [hs, hs']
    rfl
  refine ⟨indent, ⟨ws₁, opened, ws₂, literal, ws₃, closed, ws₄, comment⟩, kind, hindent,
    ⟨hws₁, hws₂, hliteral, hws₃, hws₄, hshape⟩, htext ▸ hdelimits, ?_⟩
  rw [← htext, ← Text.eq_append_of_afterWord? hword, ← hline]

/-! ## Its tokens -/

namespace Parts

variable {p : Parts} {kind : TokenKind}

/-- The kinds of the tokens behind the keyword. -/
theorem WellFormed.map_kind (h : p.WellFormed kind) (hfeed : '\n' ∉ p.comment) :
    (tokenizeCode p.text).map Token.kind =
      (if p.opened then [.lparen] else []) ++ kind :: (if p.closed then [.rparen] else []) := by
  have hcomment : tokenizeCode p.comment = [] := tokenizeCode_finalComment h.comment hfeed
  have hclose : (tokenizeCode ((if p.closed then [')'] else []) ++ (p.afterClose ++ p.comment))).map
      Token.kind = if p.closed then [.rparen] else [] := by
    have hend : (tokenizeCode (p.afterClose ++ p.comment)).map Token.kind = [] := by
      rw [tokenizeCode_blank_append h.afterClose, Token.map_kind_addGap, hcomment, List.map_nil]
    cases p.closed with
    | false => exact hend
    | true =>
      simp only [↓reduceIte, List.singleton_append]
      rw [tokenizeCode_char TokenKind.noConfusion rfl, List.map_cons, hend]
  have hliteral : (tokenizeCode (p.afterOpen ++ (p.literal ++ (p.beforeClose ++
      ((if p.closed then [')'] else []) ++ (p.afterClose ++ p.comment)))))).map Token.kind =
        kind :: if p.closed then [.rparen] else [] := by
    rw [tokenizeCode_blank_append h.afterOpen, Token.map_kind_addGap, h.literal.tokenizeCode,
      List.map_cons, tokenizeCode_blank_append h.beforeClose, Token.map_kind_addGap, hclose]
  rw [text, tokenizeCode_blank_append h.beforeOpen, Token.map_kind_addGap]
  cases p.opened with
  | false => exact hliteral
  | true =>
    simp only [↓reduceIte, List.singleton_append]
    rw [tokenizeCode_char TokenKind.noConfusion rfl, List.map_cons, hliteral]

end Parts

/-! ## What it adds -/

/-- Without block words and identifiers nothing opens or closes a block. -/
theorem scan_eq_nil {before : Option Token} {loop : Bool} {ts : List Token}
    (h : ∀ t ∈ ts, t.kind ∉ [.doWord, .endWord, .identifier]) :
    BlockEvent.scan before loop ts = [] := by
  induction ts generalizing before loop with
  | nil => rfl
  | cons t ts ih =>
    have hkind := h t List.mem_cons_self
    simp only [List.mem_cons, List.not_mem_nil, or_false, not_or] at hkind
    obtain ⟨hdo, hend, hword⟩ := hkind
    have hnone : ∀ words, BlockEvent.isWordOf words t = false := fun words => by
      simp [BlockEvent.isWordOf, Token.isWord, hword]
    have hrest (before : Option Token) (loop : Bool) : BlockEvent.scan before loop ts = [] :=
      ih fun u hu => h u (List.mem_cons_of_mem t hu)
    rw [BlockEvent.scan]
    simp only [hdo, hend, hnone, hrest, Bool.and_false, Bool.false_eq_true, ↓reduceIte, ite_self]

/-- The tokens after an identifier do not depend on which it is. -/
theorem scan_identifier {gap gap' w w' : Text} {loop : Bool} (ts : List Token) :
    BlockEvent.scan (some ⟨gap, .identifier, w⟩) loop ts =
      BlockEvent.scan (some ⟨gap', .identifier, w'⟩) loop ts := by
  cases ts <;> rfl

/-- An identifier at the head of a line that is no block word. -/
theorem lineBalance_identifier {indent w rest : Text}
    (hindent : ∀ c ∈ indent, Text.isBlankChar c = true) (hw : Scan.Identifier w)
    (hrest : Scan.Delimits rest) (hword : w ∉ (BlockEvent.definitionWords ++
      BlockEvent.conditionWords ++ BlockEvent.loopWords).map String.toList) :
    lineBalance (indent ++ (w ++ rest)) =
      (BlockEvent.total (BlockEvent.scan (some ⟨[], .identifier, []⟩) false (tokenizeCode rest)),
        Token.bracketDepth (tokenizeCode rest)) := by
  have hnone : BlockEvent.isWordOf (BlockEvent.definitionWords ++ BlockEvent.conditionWords ++
      BlockEvent.loopWords) ⟨[], .identifier, w⟩ = false := by
    unfold BlockEvent.isWordOf
    rw [List.any_eq_false]
    intro word hmem hw
    exact hword (List.mem_map.2 ⟨word, hmem, (beq_iff_eq.1 (Bool.and_eq_true_iff.1 hw).2).symm⟩)
  have hevents : BlockEvent.ofTokens (⟨[], .identifier, w⟩ :: tokenizeCode rest) =
      BlockEvent.scan (some ⟨[], .identifier, []⟩) false (tokenizeCode rest) := by
    rw [BlockEvent.ofTokens, BlockEvent.scan]
    simp only [BlockEvent.afterDot, hnone, Bool.and_false, Bool.false_eq_true, reduceCtorEq,
      ↓reduceIte]
    exact scan_identifier _
  rw [lineBalance_blank_append hindent, lineBalance_eq, tokenizeCode_identifier_append hw hrest,
    tokenBalance, hevents, Token.bracketDepth]
  exact Prod.ext rfl (Int.zero_add _)

theorem identifier_name : Scan.Identifier "name".toList :=
  .plain (by decide) (by decide) (List.all_eq_true.1 (by decide)) (by decide)

theorem identifier_graphqlName : Scan.Identifier "graphql_name".toList :=
  .plain (by decide) (by decide) (List.all_eq_true.1 (by decide)) (by decide)

theorem not_mem_of_isString {kind : TokenKind} (h : kind.isString = true) :
    kind ∉ [TokenKind.doWord, .endWord, .identifier] := by
  intro hmem
  simp only [List.mem_cons, List.not_mem_nil, or_false] at hmem
  rcases hmem with rfl | rfl | rfl <;> cases h

theorem eq_of_mem_optional {there : Bool} {kind bracket : TokenKind}
    (h : kind ∈ if there then [bracket] else []) : kind = bracket := by
  cases there with
  | false => cases h
  | true => exact List.mem_singleton.1 h

/-- A name statement opens and closes no block. -/
theorem depth_of_parse? {line : Line} {name : Text} (h : parse? line = some name)
    (hfeed : '\n' ∉ line) : (lineBalance line).1 = 0 := by
  obtain ⟨indent, p, kind, hindent, hp, hdelimits, rfl⟩ := exists_parts h
  have hcomment : '\n' ∉ p.comment := fun hmem => hfeed (by simp [Parts.text, hmem])
  have hkinds : ∀ t ∈ tokenizeCode p.text, t.kind ∉ [TokenKind.doWord, .endWord, .identifier] := by
    intro t ht
    have hmem := hp.map_kind hcomment ▸ List.mem_map_of_mem (f := Token.kind) ht
    rcases List.mem_append.1 hmem with hmem | hmem
    · rw [eq_of_mem_optional hmem]
      decide
    rcases List.mem_cons.1 hmem with hmem | hmem
    · exact hmem ▸ not_mem_of_isString hp.literal.string
    · rw [eq_of_mem_optional hmem]
      decide
  rw [lineBalance_identifier hindent identifier_name hdelimits (by decide), scan_eq_nil hkinds]
  rfl

/-! ## Renaming -/

/-- Only the first token is given another text. -/
theorem mapNeighbours_of_before {f : List Token → Token → List Token → Option Text}
    (hf : ∀ b before t after, f (b :: before) t after = none) (b : Token) (before : List Token)
    (ts : List Token) :
    Token.mapNeighbours (fun before t after => (f before t after).getD t.text) (b :: before) ts =
      ts.map Token.text := by
  induction ts generalizing b before with
  | nil => rfl
  | cons t ts ih =>
    rw [Token.mapNeighbours, hf, ih]
    rfl

theorem renamed_append {indent rest : Text} (hindent : ∀ c ∈ indent, Text.isBlankChar c = true)
    (hrest : Scan.Delimits rest) : renamed (indent ++ ("name".toList ++ rest)) =
      indent ++ ("graphql_name".toList ++ rest) := by
  have hstream : TokenStream.ofText (indent ++ ("name".toList ++ rest)) =
      ⟨⟨indent, .identifier, "name".toList⟩ :: (TokenStream.ofText rest).tokens,
        (TokenStream.ofText rest).tail⟩ := by
    rw [TokenStream.ofText, Scan.pieces_blank_append hindent, TokenStream.ofPieces_gaps,
      identifier_name.pieces_append hrest]
    rfl
  have htail (b : Token) : Token.mapNeighbours (fun before t (_ : List Token) =>
      (if before.isEmpty && t.isWord "name" then some "graphql_name".toList else none).getD t.text) [b]
        (TokenStream.ofText rest).tokens = (TokenStream.ofText rest).tokens.map Token.text :=
    mapNeighbours_of_before (fun _ _ _ _ => rfl) b [] _
  have hweave : TokenStream.weave (TokenStream.ofText rest).tokens
      ((TokenStream.ofText rest).tokens.map Token.text) (TokenStream.ofText rest).tail = rest := by
    conv_rhs => rw [← TokenStream.toText_ofText rest]
    rw [TokenStream.weave, TokenStream.toText, List.zipWith_map_right, List.zipWith_self]
    rfl
  have hfirst : (if ([] : List Token).isEmpty &&
      (⟨indent, .identifier, "name".toList⟩ : Token).isWord "name" then some "graphql_name".toList
        else none).getD "name".toList = "graphql_name".toList := rfl
  unfold renamed replaceTokens
  simp only [hstream, Token.mapNeighbours, htail, hfirst]
  rw [TokenStream.weave, List.zipWith_cons_cons, List.flatten_cons, List.append_assoc,
    List.append_assoc]
  exact congrArg (fun t => indent ++ ("graphql_name".toList ++ t)) hweave

/-- The line with another keyword in place of `name`, and nothing else changed. -/
theorem exists_renamed {line : Line} {name : Text} (h : parse? line = some name) :
    ∃ indent rest, (∀ c ∈ indent, Text.isBlankChar c = true) ∧ Scan.Delimits rest ∧
      line = indent ++ ("name".toList ++ rest) ∧
      renamed line = indent ++ ("graphql_name".toList ++ rest) := by
  obtain ⟨indent, p, kind, hindent, -, hdelimits, rfl⟩ := exists_parts h
  exact ⟨indent, p.text, hindent, hdelimits, rfl, renamed_append hindent hdelimits⟩

section

variable {line : Line} {name : Text} (h : parse? line = some name)
include h

theorem lineBalance_renamed : lineBalance (renamed line) = lineBalance line := by
  obtain ⟨indent, rest, hindent, hrest, rfl, hrenamed⟩ := exists_renamed h
  rw [hrenamed, lineBalance_identifier hindent identifier_graphqlName hrest (by decide),
    lineBalance_identifier hindent identifier_name hrest (by decide)]

theorem notMem_renamed (hfeed : '\n' ∉ line) : '\n' ∉ renamed line := by
  obtain ⟨indent, rest, -, -, rfl, hrenamed⟩ := exists_renamed h
  rw [hrenamed]
  simpa using hfeed

theorem isBlank_renamed : Text.isBlank (renamed line) = false := by
  obtain ⟨indent, rest, -, -, -, hrenamed⟩ := exists_renamed h
  have hg : Text.isBlankChar 'g' = false := by decide
  rw [hrenamed, Text.isBlank, List.all_append, List.all_append]
  simp [hg]

/-- A name statement is no class header. -/
theorem classHeader_eq_none : ClassHeader.parse? line = none := by
  obtain ⟨indent, rest, hindent, -, rfl, -⟩ := exists_renamed h
  refine ClassHeader.parse?_of_blank_append hindent fun c hc => ?_
  obtain rfl := Option.some.inj hc
  decide

end

end NameStatement

end SchemaLift
