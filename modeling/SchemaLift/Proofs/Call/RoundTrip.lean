import SchemaLift.Proofs.Call.Argument

/-!
# Reading a rendered call

A signature is rendered from slices of its source, so the rendered call has the tokens of its parts with
other gaps between them (`Parts.tokenize_render`). They are cut as before, and the signature is read
back (`parse_render_eq`).
-/

namespace SchemaLift

open Token (addGap bare spelling)

namespace Signature

/-! ## Lists of arguments -/

/-- Items with a comma between an item and the next. -/
def joined : List (List Token) → List Token
  | [] => []
  | item :: items => item ++ items.flatMap (⟨[], .comma, [',']⟩ :: ·)

theorem itemized_joined {items : List (List Token)} (hne : items ≠ [])
    (h : ∀ item ∈ items, Token.IsItem item) : Token.Itemized (joined items)
      (List.replicate (items.length - 1) ⟨[], .comma, [',']⟩) items := by
  obtain ⟨item, items, rfl⟩ := List.exists_cons_of_ne_nil hne
  induction items generalizing item with
  | nil => simpa [joined] using Token.Itemized.last (h item List.mem_cons_self)
  | cons next items ih =>
    obtain ⟨hitem, hrest⟩ := List.forall_mem_cons.1 h
    exact .cons hitem rfl (ih next (List.cons_ne_nil _ _) hrest)

theorem joined_spaced (gap : Text) {items : List (List Token)} (hne : [] ∉ items) :
    joined (Token.spaced gap items) = addGap gap (joined (Token.spaced [] items)) := by
  cases items with
  | nil => rfl
  | cons item items =>
    have hitem : item ≠ [] := fun hnil => hne (hnil ▸ List.mem_cons_self)
    simp only [Token.spaced, joined, Token.addGap_nil_left, Token.addGap_append hitem]

/-- Arguments on one line have the tokens of their items. -/
theorem spells_commaSeparated {arguments : List (Text × List Token)}
    (h : ∀ a ∈ arguments, Spells a.1 a.2 ∧ a.2 ≠ []) :
    Spells (commaSeparated (arguments.map Prod.fst))
      (joined (Token.spaced [] (arguments.map Prod.snd))) := by
  cases arguments with
  | nil => exact .nil
  | cons a rest =>
    obtain ⟨ha, hrest⟩ := List.forall_mem_cons.1 h
    -- each further argument stands behind a comma
    have hcommas : ∀ rest : List (Text × List Token), (∀ a ∈ rest, Spells a.1 a.2 ∧ a.2 ≠ []) →
        (∀ c ∈ ((rest.map Prod.fst).flatMap (", ".toList ++ ·)).head?, Scan.Stops c) ∧
          Spells ((rest.map Prod.fst).flatMap (", ".toList ++ ·))
            (((rest.map Prod.snd).map (addGap [' '])).flatMap (⟨[], .comma, [',']⟩ :: ·)) := by
      intro rest hrest
      induction rest with
      | nil => exact ⟨by rintro c ⟨⟩, .nil⟩
      | cons b rest ih =>
        obtain ⟨hb, hrest⟩ := List.forall_mem_cons.1 hrest
        obtain ⟨hstop, hspells⟩ := ih hrest
        refine ⟨fun c hc => ?_, ((hb.1.blank hb.2).char fun _ => rfl).append hspells hstop⟩
        cases hc
        decide
    obtain ⟨hstop, hspells⟩ := hcommas rest hrest
    have hall := ha.1.append hspells hstop
    rw [List.map_cons, commaSeparated_cons]
    simpa [Token.spaced, joined, Token.addGap_nil_left] using hall

/-! ## The rendered call -/

/-- The arguments in the order in which they are rendered. -/
theorem texts_of_ordered {arguments : List Argument}
    (h : arguments.Pairwise fun a b => a.keyword?.isSome → b.keyword?.isSome) :
    arguments.filterMap Argument.positional? ++
        (arguments.filterMap Argument.keyword?).map KeywordArgument.render =
      arguments.map Argument.text := by
  induction arguments with
  | nil => rfl
  | cons a rest ih =>
    obtain ⟨hfirst, hrest⟩ := List.pairwise_cons.1 h
    have hall := ih hrest
    cases a with
    | positional text =>
      rw [List.filterMap_cons, List.filterMap_cons, List.map_cons, ← hall]
      rfl
    | keyword a =>
      -- no positional argument is left
      have hnone : rest.filterMap Argument.positional? = [] := by
        rw [List.filterMap_eq_nil_iff]
        intro b hb
        have hkeyword := hfirst b hb rfl
        cases b with
        | positional text => cases hkeyword
        | keyword b => rfl
      rw [hnone] at hall
      rw [List.filterMap_cons, List.filterMap_cons, List.map_cons, ← hall]
      simp [Argument.positional?, Argument.keyword?, Argument.text, hnone]

namespace Parts

/-- The texts of the arguments in the order of the rendered call. -/
def texts (p : Parts) : List Text :=
  p.argumentList.filterMap Argument.positional? ++
    (p.argumentList.filterMap Argument.keyword?).map KeywordArgument.render

/-- The arguments of the rendered call, with what stands around them. -/
def argumentText (p : Parts) : Text :=
  if p.parens.isSome then '(' :: (commaSeparated p.texts ++ [')'])
  else if (commaSeparated p.texts).isEmpty then [] else ' ' :: commaSeparated p.texts

/-- The block of the rendered call. -/
def blockText (p : Parts) : Text := if p.block = [] then [] else ' ' :: spelling p.block

theorem render_signature (p : Parts) (indent : Text) :
    (p.signature indent).render = indent ++ (p.keyword.text ++ (p.argumentText ++ p.blockText)) := by
  obtain ⟨name, positional, hfold, horder⟩ := foldl_addArgument (p.frame indent) p.argumentList
  have harguments : (p.signature indent).arguments = p.texts := by
    rw [signature, hfold, Signature.arguments]
    simp only [horder]
    rfl
  rw [render, harguments, signature, hfold, argumentText, blockText]
  by_cases hblock : p.block = [] <;> simp [frame, hblock]

/-- The parts of the rendered call. -/
def rendered (p : Parts) (indent : Text) : Parts where
  keyword := ⟨indent, .identifier, p.keyword.text⟩
  parens := p.parens.map fun _ => (⟨[], .lparen, ['(']⟩, ⟨[], .rparen, [')']⟩)
  arguments := joined (Token.spaced (if p.parens.isSome then [] else [' ']) (p.items.map Argument.written))
  commas := List.replicate (p.items.length - 1) ⟨[], .comma, [',']⟩
  items := Token.spaced (if p.parens.isSome then [] else [' ']) (p.items.map Argument.written)
  block := addGap [' '] (bare p.block)

/-- The rendered call has the same arguments. -/
theorem argumentList_rendered (p : Parts) (indent : Text) :
    (p.rendered indent).argumentList = p.argumentList := by
  have hmap : ∀ (f : List Token → List Token), (∀ item, (f item).isEmpty = item.isEmpty) →
      (∀ item, Argument.ofTokens (f item) = Argument.ofTokens item) → ∀ items : List (List Token),
        ((items.map f).filter (!·.isEmpty)).map Argument.ofTokens =
          (items.filter (!·.isEmpty)).map Argument.ofTokens := by
    intro f hempty hsame items
    rw [List.filter_map, List.map_map]
    simp only [Function.comp_def, hempty, hsame]
  have hgap : ∀ gap item, (addGap gap item).isEmpty = item.isEmpty := by
    intro gap item
    cases item <;> rfl
  have hwritten : ∀ item, (Argument.written item).isEmpty = item.isEmpty := by
    intro item
    have hkinds := congrArg List.isEmpty (Argument.map_kind_written item)
    rwa [List.isEmpty_map, List.isEmpty_map] at hkinds
  have hspaced : ∀ gap (items : List (List Token)),
      ((Token.spaced gap items).filter (!·.isEmpty)).map Argument.ofTokens =
        (items.filter (!·.isEmpty)).map Argument.ofTokens := by
    intro gap items
    cases items with
    | nil => rfl
    | cons item rest =>
      have hone := hmap (addGap gap) (hgap gap) (Argument.ofTokens_addGap gap) [item]
      have hrest := hmap (addGap [' ']) (hgap [' ']) (Argument.ofTokens_addGap [' ']) rest
      rw [← List.singleton_append, List.filter_append, List.map_append, ← hone, ← hrest,
        ← List.map_append, ← List.filter_append]
      rfl
  rw [argumentList, rendered, hspaced, hmap _ hwritten Argument.ofTokens_written, argumentList]

theorem signature_rendered (p : Parts) (indent : Text) :
    (p.rendered indent).signature indent = p.signature indent := by
  have hframe : (p.rendered indent).frame indent = p.frame indent := by
    simp only [frame, rendered, Option.isSome_map, Token.spelling_addGap, Token.spelling_bare]
    cases p.block <;> rfl
  rw [signature, argumentList_rendered, hframe, signature]

variable {s : Text} {p : Parts} (hcode : ∀ t ∈ tokenize s, t.kind ≠ .comment)
  (hquotes : QuotesInTokens s) (hp : p.Cuts (tokenize s))
  (hfilled : p.items = [[]] ∨ [] ∉ p.items)

include hfilled in
theorem arguments_rendered (indent : Text) : (p.rendered indent).arguments =
    addGap (if p.parens.isSome then [] else [' ']) (joined (Token.spaced []
      ((p.items.filter (!·.isEmpty)).map Argument.written))) := by
  rcases hfilled with hnone | hall
  · rw [rendered, hnone]
    rfl
  · have hfilter : p.items.filter (!·.isEmpty) = p.items := by
      rw [List.filter_eq_self]
      intro item hitem
      cases item with
      | nil => exact absurd hitem hall
      | cons t ts => rfl
    have hwritten : [] ∉ p.items.map Argument.written := by
      intro hmem
      obtain ⟨item, hitem, hnil⟩ := List.mem_map.1 hmem
      exact Argument.written_ne_nil (fun h => hall (h ▸ hitem)) hnil
    rw [rendered, hfilter, joined_spaced _ hwritten]

include hcode hquotes hp in
/-- The arguments have the tokens of the rendered items. -/
theorem Cuts.spells_texts (hordered : p.argumentList.Pairwise fun a b =>
    a.keyword?.isSome → b.keyword?.isSome) : Spells (commaSeparated p.texts)
      (joined (Token.spaced [] ((p.items.filter (!·.isEmpty)).map Argument.written))) := by
  have hitems : ∀ a ∈ (p.items.filter (!·.isEmpty)).map fun item =>
      ((Argument.ofTokens item).text, Argument.written item), Spells a.1 a.2 ∧ a.2 ≠ [] := by
    intro a ha
    obtain ⟨item, hitem, rfl⟩ := List.mem_map.1 ha
    obtain ⟨hmem, hempty⟩ := List.mem_filter.1 hitem
    have hne : item ≠ [] := by
      rintro rfl
      cases hempty
    exact ⟨Argument.spells_written hcode hquotes (hp.isInfix_of_mem_items hmem) hne,
      Argument.written_ne_nil hne⟩
  have htexts : p.texts = (p.items.filter (!·.isEmpty)).map fun item =>
      (Argument.ofTokens item).text := by
    rw [texts, texts_of_ordered hordered, argumentList, List.map_map]
    rfl
  have hall := spells_commaSeparated hitems
  rw [List.map_map, List.map_map] at hall
  rw [htexts]
  exact hall

/-- Without arguments nothing is rendered, and an argument is rendered to some token. -/
theorem texts_eq_nil_or_joined_ne_nil (p : Parts) : p.texts = [] ∧
      joined (Token.spaced [] ((p.items.filter (!·.isEmpty)).map Argument.written)) = [] ∨
    joined (Token.spaced [] ((p.items.filter (!·.isEmpty)).map Argument.written)) ≠ [] := by
  cases hfilter : p.items.filter (!·.isEmpty) with
  | nil =>
    refine .inl ⟨?_, rfl⟩
    rw [texts, argumentList, hfilter]
    rfl
  | cons item rest =>
    have hmem : item ∈ p.items.filter (!·.isEmpty) := hfilter ▸ List.mem_cons_self
    have hne : item ≠ [] := by
      rintro rfl
      cases (List.mem_filter.1 hmem).2
    refine .inr ?_
    simp [Token.spaced, joined, Token.addGap_nil_left, Argument.written_ne_nil hne]

include hp in
theorem Cuts.identifier_keyword : Scan.Identifier p.keyword.text := by
  have hmem : p.keyword ∈ tokenize s := by
    rw [hp.tokens]
    exact List.mem_append_left _ (List.mem_of_mem_head? p.head?_call)
  exact Scan.identifier_of_mem_pieces (hp.keyword ▸ TokenStream.mem_pieces_of_mem_tokens hmem)

include hcode hquotes hp in
theorem Cuts.spells_blockText (indent : Text) :
    (∀ c ∈ p.blockText.head?, Scan.Stops c) ∧ Spells p.blockText (p.rendered indent).block := by
  rw [blockText]
  split
  · rename_i hnil
    refine ⟨by rintro c ⟨⟩, ?_⟩
    rw [rendered, hnil]
    exact .nil
  · rename_i hne
    have hsuffix : p.block <:+: tokenize s := by
      rw [hp.tokens]
      exact (List.suffix_append _ _).isInfix
    refine ⟨fun c hc => ?_, (spells_spelling hcode hquotes hsuffix).blank (Token.bare_ne_nil hne)⟩
    cases hc
    decide

include hcode hquotes hp hfilled in
theorem Cuts.spells_argumentText (hordered : p.argumentList.Pairwise fun a b =>
    a.keyword?.isSome → b.keyword?.isSome) (indent : Text) :
    (∀ c ∈ p.argumentText.head?, Scan.Stops c) ∧
      Spells p.argumentText (p.rendered indent).call.tail := by
  have hspells := hp.spells_texts hcode hquotes hordered
  have harguments := arguments_rendered hfilled indent
  have hnil := p.texts_eq_nil_or_joined_ne_nil
  generalize joined (Token.spaced [] ((p.items.filter (!·.isEmpty)).map Argument.written)) = ts
    at hspells harguments hnil
  cases hparens : p.parens with
  | some parens =>
    have hcall : (p.rendered indent).call.tail = ⟨[], .lparen, ['(']⟩ ::
        (ts ++ [⟨[], .rparen, [')']⟩]) := by
      rw [hparens, Option.isSome_some, if_pos rfl, Token.addGap_nil_left] at harguments
      rw [← harguments, call]
      simp [rendered, hparens]
    have htext : p.argumentText = '(' :: (commaSeparated p.texts ++ [')']) := by
      rw [argumentText, hparens]
      rfl
    have hclose : Spells [')'] [⟨[], .rparen, [')']⟩] := Spells.nil.char fun _ => rfl
    rw [hcall, htext]
    refine ⟨fun c hc => ?_, (hspells.append hclose fun c hc => ?_).char fun _ => rfl⟩ <;>
    · cases hc
      decide
  | none =>
    have hcall : (p.rendered indent).call.tail = addGap [' '] ts := by
      rw [hparens, Option.isSome_none, if_neg Bool.false_ne_true] at harguments
      rw [← harguments, call]
      simp [rendered, hparens]
    have htext : p.argumentText = if (commaSeparated p.texts).isEmpty then []
        else ' ' :: commaSeparated p.texts := by
      rw [argumentText, hparens]
      rfl
    rw [hcall, htext]
    rcases hnil with ⟨htexts, rfl⟩ | hne
    · rw [htexts]
      exact ⟨by rintro c ⟨⟩, .nil⟩
    · have hempty : ¬(commaSeparated p.texts).isEmpty = true := by
        rw [List.isEmpty_iff]
        intro hempty
        rw [hempty] at hspells
        exact hne hspells.tokenize_eq.symm
      rw [if_neg hempty]
      refine ⟨fun c hc => ?_, hspells.blank hne⟩
      cases hc
      decide

include hcode hquotes hp hfilled in
/-- The rendered call has the tokens of its parts. -/
theorem Cuts.tokenize_render (hordered : p.argumentList.Pairwise fun a b =>
    a.keyword?.isSome → b.keyword?.isSome) {indent : Text} (hindent : Text.IsIndent indent) :
    tokenize (p.signature indent).render =
      (p.rendered indent).call ++ (p.rendered indent).block := by
  obtain ⟨hblockStop, hblock⟩ := hp.spells_blockText hcode hquotes indent
  obtain ⟨hstop, harguments⟩ := hp.spells_argumentText hcode hquotes hfilled hordered indent
  have hdelimits : Scan.Delimits (p.argumentText ++ p.blockText) := by
    have hhead : ∀ c ∈ (p.argumentText ++ p.blockText).head?, Scan.Stops c := by
      cases htext : p.argumentText with
      | nil => exact hblockStop
      | cons c cs =>
        rw [htext] at hstop
        exact hstop
    intro c hc
    obtain ⟨hword, hsought⟩ := hhead c hc
    refine ⟨hword, ?_, ?_, ?_⟩ <;>
    · rintro rfl
      exact hsought (by decide)
  rw [render_signature, tokenize_blank_append hindent.isBlankChar,
    tokenize_identifier_append hp.identifier_keyword hdelimits,
    (harguments.append hblock hblockStop).tokenize_eq, Token.addGap_cons, List.append_nil]
  have hcall : (p.rendered indent).call = (p.rendered indent).keyword :: (p.rendered indent).call.tail := by
    rw [call]
    split <;> rfl
  rw [hcall]
  rfl

theorem map_kind_items_rendered (p : Parts) (indent : Text) :
    (p.rendered indent).items.map (·.map Token.kind) = p.items.map (·.map Token.kind) := by
  rw [rendered, Token.map_kind_spaced, List.map_map]
  simp only [Function.comp_def, Argument.map_kind_written]

include hp in
theorem Cuts.itemized_rendered (indent : Text) :
    Token.Itemized (p.rendered indent).arguments (p.rendered indent).commas
      (p.rendered indent).items := by
  have hkinds := p.map_kind_items_rendered indent
  have hlength : (p.rendered indent).items.length = p.items.length := by
    simpa using congrArg List.length hkinds
  have hcommas : (p.rendered indent).commas =
      List.replicate ((p.rendered indent).items.length - 1) ⟨[], .comma, [',']⟩ := by
    rw [hlength, rendered]
  rw [hcommas]
  apply itemized_joined
  · rw [← List.length_pos_iff_ne_nil]
    exact hlength ▸ List.length_pos_iff_ne_nil.2 hp.items.ne_nil
  · intro item hitem
    have hmem : item.map Token.kind ∈ p.items.map (·.map Token.kind) :=
      hkinds ▸ List.mem_map_of_mem hitem
    obtain ⟨item', hitem', hsame⟩ := List.mem_map.1 hmem
    exact (hp.items.isItem item' hitem').congr hsame

include hp hfilled in
/-- The rendered call has these parts. -/
theorem Cuts.rendered (indent : Text) :
    (p.rendered indent).Cuts ((p.rendered indent).call ++ (p.rendered indent).block) := by
  have hitems := hp.itemized_rendered indent
  refine ⟨rfl, rfl, ?_, hitems, ?_⟩
  · cases hparens : p.parens with
    | some parens => simp [Parts.rendered, hparens, TokenKind.closesBracket]
    | none =>
      -- a space stands in front of the first argument
      have harguments := arguments_rendered hfilled indent
      rw [hparens, Option.isSome_none, if_neg Bool.false_ne_true] at harguments
      have hnone : (p.rendered indent).parens = none := by simp [Parts.rendered, hparens]
      rw [hnone, harguments]
      rintro t ht ⟨-, hgap⟩
      generalize joined (Token.spaced [] ((p.items.filter (!·.isEmpty)).map Argument.written)) = ts
        at ht
      cases ts with
      | nil => cases ht
      | cons u us =>
        cases ht
        cases hgap
  · rcases hp.block with ⟨hnil, hnone⟩ | hblock
    · refine .inl ⟨by rw [Parts.rendered, hnil]; rfl, ?_⟩
      cases hparens : p.parens with
      | some parens =>
        have hcall : (p.rendered indent).call = ((p.rendered indent).keyword ::
            ⟨[], .lparen, ['(']⟩ :: (p.rendered indent).arguments) ++ [⟨[], .rparen, [')']⟩] := by
          simp [call, Parts.rendered, hparens]
        rw [hcall]
        exact noBlock_of_last _ TokenKind.noConfusion TokenKind.noConfusion
      | none =>
        have hcall : p.call = p.keyword :: p.arguments := by rw [call, hparens]
        have hcall' : (p.rendered indent).call =
            (p.rendered indent).keyword :: (p.rendered indent).arguments := by
          simp [call, Parts.rendered, hparens]
        refine hnone.congr ?_
        rw [hcall, hcall', List.map_cons, List.map_cons, hp.keyword,
          hp.items.map_kind_eq hitems (p.map_kind_items_rendered indent).symm]
        rfl
    · refine .inr (hblock.congr ?_)
      rw [Parts.rendered, Token.map_kind_addGap, Token.map_kind_bare]

include hcode hp in
theorem Cuts.code_rendered (indent : Text) :
    ∀ t ∈ (p.rendered indent).call ++ (p.rendered indent).block, t.kind ≠ .comment := by
  have hkinds : ∀ {ts us : List Token}, ts.map Token.kind = us.map Token.kind →
      (∀ t ∈ us, t.kind ≠ .comment) → ∀ t ∈ ts, t.kind ≠ .comment := by
    intro ts us hsame hus t ht
    obtain ⟨u, hu, hkind⟩ := List.mem_map.1 (hsame ▸ List.mem_map_of_mem ht)
    exact hkind ▸ hus u hu
  rw [hp.tokens] at hcode
  obtain ⟨hcall, hblock⟩ := List.forall_mem_append.1 hcode
  have harguments : ∀ t ∈ p.arguments, t.kind ≠ .comment := fun t ht =>
    hcall t (p.arguments_isInfix.subset ht)
  have hsame := (hp.itemized_rendered indent).map_kind_eq hp.items (p.map_kind_items_rendered indent)
  have hrendered := hkinds hsame harguments
  refine List.forall_mem_append.2 ⟨?_, hkinds ?_ hblock⟩
  · intro t ht
    cases hparens : p.parens with
    | none =>
      simp only [call, Parts.rendered, hparens, Option.map_none, List.mem_cons] at ht hrendered
      rcases ht with rfl | ht
      · exact TokenKind.noConfusion
      · exact hrendered t ht
    | some parens =>
      simp only [call, Parts.rendered, hparens, Option.map_some, List.mem_cons, List.mem_append,
        List.not_mem_nil, or_false] at ht hrendered
      rcases ht with rfl | rfl | ht | rfl
      · exact TokenKind.noConfusion
      · exact TokenKind.noConfusion
      · exact hrendered t ht
      · exact TokenKind.noConfusion
  · rw [Parts.rendered, Token.map_kind_addGap, Token.map_kind_bare]

end Parts

/-- A call without comments, with every quote inside a token, no empty argument and no positional
argument behind a keyword argument: its signature is read again from the rendered call. -/
theorem parse_render_eq {s : Text} {sig : Signature} {items : List (List Token)}
    (h : parse s = some sig) (hcode : ∀ t ∈ tokenize s, t.kind ≠ .comment) (hquotes : QuotesInTokens s)
    (hitems : argumentItems s = some items) (hfilled : items = [[]] ∨ [] ∉ items)
    (hordered : (items.map Argument.ofTokens).Pairwise fun a b =>
      a.keyword?.isSome → b.keyword?.isSome) : parse sig.render = some sig := by
  obtain ⟨p, hp, rfl⟩ := (parse_eq_signature_iff hcode).1 h
  obtain rfl := Option.some.inj (hp.argumentItems_eq.symm.trans hitems)
  have hindent := Text.isIndent_indentation s
  generalize Text.indentation s = indent at hindent
  have hordered' : p.argumentList.Pairwise fun a b => a.keyword?.isSome → b.keyword?.isSome :=
    hordered.sublist (List.filter_sublist.map _)
  have htokens := hp.tokenize_render hcode hquotes hfilled hordered' hindent
  have hread : Text.indentation (p.signature indent).render = indent := by
    obtain ⟨c, cs, hkeyword, hc⟩ := hp.identifier_keyword.exists_cons
    rw [Parts.render_signature, hkeyword, List.cons_append, Text.indentation_append hindent hc]
  have hcode' : ∀ t ∈ tokenize (p.signature indent).render, t.kind ≠ .comment := by
    rw [htokens]
    exact hp.code_rendered hcode indent
  refine (parse_eq_signature_iff hcode').2 ⟨p.rendered indent, ?_, ?_⟩
  · rw [htokens]
    exact hp.rendered hfilled indent
  · rw [hread, Parts.signature_rendered]

/-- A call over two lines with both spellings of a keyword argument, a lambda, commas in brackets and in
a string, another bracket at the end of the arguments, and a block with parameters. -/
theorem parse_render_eq_block :
    let s := "  field(:a?, [B, ->(c) \x7b d, 'é,' \x7d] ,\n e: f(1) ,:g =>\"h\"] do |i, j|".toList
    ∃ sig items, parse s = some sig ∧ (∀ t ∈ tokenize s, t.kind ≠ .comment) ∧ QuotesInTokens s ∧
      argumentItems s = some items ∧ [] ∉ items ∧
      ((items.map Argument.ofTokens).Pairwise fun a b => a.keyword?.isSome → b.keyword?.isSome) ∧
      sig.render =
        "  field(:a?, [B, ->(c) \x7b d, 'é,' \x7d], e: f(1), :g => \"h\") do |i, j|".toList ∧
      parse sig.render = some sig := by
  intro s
  obtain ⟨sig, hsig, hrender⟩ : ∃ sig, parse s = some sig ∧ sig.render =
      "  field(:a?, [B, ->(c) \x7b d, 'é,' \x7d], e: f(1), :g => \"h\") do |i, j|".toList :=
    ⟨(parse s).get (by decide +kernel), by rw [Option.some_get], by decide +kernel⟩
  obtain ⟨items, hitems, hfilled, hordered⟩ : ∃ items, argumentItems s = some items ∧ [] ∉ items ∧
      (items.map Argument.ofTokens).Pairwise fun a b => a.keyword?.isSome → b.keyword?.isSome :=
    ⟨(argumentItems s).get (by decide +kernel), by rw [Option.some_get], by decide +kernel,
      by decide +kernel⟩
  have hcode : ∀ t ∈ tokenize s, t.kind ≠ .comment := by decide +kernel
  have hquotes : QuotesInTokens s := by decide +kernel
  exact ⟨sig, items, hsig, hcode, hquotes, hitems, hfilled, hordered, hrender,
    parse_render_eq hsig hcode hquotes hitems (.inr hfilled) hordered⟩

end Signature

end SchemaLift
