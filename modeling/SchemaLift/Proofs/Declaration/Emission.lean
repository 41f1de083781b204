import SchemaLift.Proofs.Declaration.Keys
import SchemaLift.Proofs.Declaration.Kept

/-!
# The order in which a flat declaration is written

The arguments of a flat header come in a fixed order (`flatArguments`). It is said here without the
fold that collects them: of the statements with one meaning the first counts (`Pulled.foldl_first`),
and all settings do. Below the header come lines of the block, in their order, and the method that the
resolver has become (`Emits`).

`flattened_in_order` says this of every declaration that is rewritten in a text. The statements are
those that stand in the text by then; a declaration inside the block comes first and moves the lines
below it, so that the outer one may take over statements that are not its own (`flattened_shifted`).
-/

namespace SchemaLift.Declaration

/-! ## What is written, in its order -/

section

variable (kind : DeclarationKind) (s : Signature) (entries : List (LineRange × Statement))

/-- The first statement of a block that has a value and one of the words. -/
def firstOffer? (words : List String) : Option (LineRange × Statement) :=
  entries.find? (Statement.offers words ·.2)

def firstValue? (words : List String) : Option Text := (firstOffer? entries words).map (·.2.value)

/-- The description that the block gives, unless a string literal in the header is one. -/
def blockDescription? : Option Text :=
  if s.positional.any isStringLiteral then none else firstValue? entries ["description"]

/-- The positional arguments after the name, without the type. -/
def otherPositional : List Text :=
  if (headerType s).isSome then s.positional.tail else s.positional

/-- The keyword arguments of the header, without its first `resolve:` if that has been extracted. -/
def ownKeywords (extracted : Bool) : List KeywordArgument :=
  if extracted then s.keywords.eraseP (·.key == "resolve".toList) else s.keywords

/-- The settings of the block, in its order. -/
def blockSettings : List KeywordArgument :=
  (entries.filter (Statement.offers kind.settingWords ·.2)).map
    fun entry => .labelled entry.2.keyword entry.2.value

/-- The method that the block of a field names. -/
def blockMethod? : Option Text := if kind.isField then firstValue? entries methodWords else none

/-- The keyword arguments behind those of the header. -/
def addedKeywords (t : TypeExpression) : List KeywordArgument :=
  blockSettings kind entries ++
    [.labelled kind.nullabilityKey.toList (kind.nullabilityValue t)] ++
    ((blockMethod? kind entries).map (.labelled "method".toList)).toList ++
    (if kind = .connection then [.labelled "connection".toList "true".toList] else [])

/-- The arguments of the flat header, in their order. -/
def flatArguments (name : Text) (t : TypeExpression) (extracted : Bool) : List Text :=
  (Name.declared? name).elim name Name.symbol :: t.render ::
    ((blockDescription? s entries).toList ++ otherPositional s ++
      (ownKeywords s extracted ++ addedKeywords kind entries t).map KeywordArgument.render)

/-- The resolver of a field: that of its block, or else its argument `resolve:`. -/
def resolverValue? : Option Text :=
  if kind.isField then (firstValue? entries ["resolve"]).or (s.keyword? "resolve".toList) else none

end

theorem statement?_eq (d : Declaration) (ls : List Line) (keywords : List String) :
    d.statement? ls keywords = firstOffer? (d.readStatements ls) keywords := by
  unfold statement? firstOffer? Statement.offers
  congr 1
  funext entry
  rw [Bool.and_comm]
  congr 2
  funext word
  exact Bool.eq_iff_iff.2 (by simp only [beq_iff_eq]; exact eq_comm)

/-- The lines between the opener of the block and its end. -/
def bodyLines (d : Declaration) (ls : List Line) : List Line :=
  match d.block with
  | none => []
  | some b => b.body.filterMap (ls[·]?)

/-- The parts of a flat declaration: its header, the lines of its block that stay, and the method that
its resolver has become, if it has. -/
structure Emission (kind : DeclarationKind) (d : Declaration) (ls : List Line) (name : Text)
    (t : TypeExpression) (header : Signature) (stays : List Line) (method : Option (List Line)) :
    Prop where
  named : d.signature.name = some name
  /-- The type is that of the header, or else the first of the block. -/
  typed : ∃ text, (headerType d.signature).or (firstValue? (d.readStatements ls) ["type"]) = some text ∧
    TypeExpression.parse text = some t
  made : ∃ declared, method = methodBelow (some name)
    (resolverValue? kind d.signature (d.readStatements ls)) d.signature.indent declared
  keyword : header.keyword = kind.flatKeyword.toList
  /-- A resolver of the header goes only where the block has none and it has become the method. -/
  arguments : header.arguments = flatArguments kind d.signature (d.readStatements ls) name t
    ((firstOffer? (d.readStatements ls) ["resolve"]).isNone && method.isSome)
  sublist : stays.Sublist (d.bodyLines ls)

/-- The lines are a flat declaration in the order of `flatArguments`: the header, then the lines of
the block that stay and its closing line, then the method. -/
def Emits (kind : DeclarationKind) (d : Declaration) (ls new : List Line) : Prop :=
  ∃ (name : Text) (t : TypeExpression) (header : Signature) (stays : List Line)
    (method : Option (List Line)) (below : Bool),
    Emission kind d ls name t header stays method ∧
    new = header.render :: (if stays.isEmpty then [] else stays ++ d.closer ls) ++
      separate (method.getD []) below

namespace Pulled

variable {kind : DeclarationKind} {typed described : Bool} {p : Pulled} {r : LineRange}
  {s : Statement}

/-- A statement offers nothing under words other than its own. -/
theorem offers_eq_false {words : List String} (h : s.offers words = true) (words' : List String)
    (hwords : ∀ word ∈ words, ∀ word' ∈ words', word.toList ≠ word'.toList) :
    s.offers words' = false := by
  obtain ⟨word, hword, hk⟩ := Statement.exists_of_offers h
  rw [Bool.eq_false_iff]
  intro h'
  obtain ⟨word', hword', hk'⟩ := Statement.exists_of_offers h'
  exact hwords word hword word' hword' (hk.symm.trans hk')

theorem add_eq : p.add kind typed described r s =
    if !typed && s.offers ["type"] && p.type.isNone then { p with type := some s.value }.take r s
    else if !described && s.offers ["description"] && p.description.isNone then
      { p with description := some s.value }.take r s
    else if kind.isField && s.offers methodWords && p.method.isNone then
      { p with method := some s.value }.take r s
    else if kind.isField && s.offers ["resolve"] && p.resolver.isNone then
      { p with resolver := some (r, s) }
    else if s.offers kind.settingWords then
      { p with settings := p.settings ++ [KeywordArgument.labelled s.keyword s.value] }.take r s
    else p := by
  unfold add
  extract_lets isWord
  have hword (word : String) : s.offers [word] = (!s.value.isEmpty && isWord word) := by
    rw [Statement.offers, List.any_cons, List.any_nil, Bool.or_false]
  have hwords (words : List String) : s.offers words = (!s.value.isEmpty && words.any isWord) := rfl
  simp only [hword, hwords]
  cases s.value.isEmpty with
  | true => simp
  | false =>
    simp only [Bool.not_false, Bool.true_and, Bool.false_eq_true, ↓reduceIte,
      Bool.and_comm (isWord _)]

/-- What is there already is not replaced. -/
theorem ite_isNone_eq {α : Type} (o : Option α) (c : Bool) (v : α) :
    (if c && o.isNone then some v else o) = o.or (if c then some v else none) := by
  cases c <;> cases o <;> rfl

theorem add_type : (p.add kind typed described r s).type =
    p.type.or (if !typed && s.offers ["type"] then some s.value else none) := by
  rw [← ite_isNone_eq, add_eq]
  split_ifs <;> rfl

theorem add_description : (p.add kind typed described r s).description =
    p.description.or (if !described && s.offers ["description"] then some s.value else none) := by
  rw [← ite_isNone_eq, add_eq]
  cases h : s.offers ["description"] with
  | true =>
    simp only [offers_eq_false h ["type"] (by decide), Bool.and_false, Bool.false_and,
      Bool.false_eq_true, ↓reduceIte]
    split_ifs <;> rfl
  | false =>
    simp only [Bool.and_false, Bool.false_and, Bool.false_eq_true, ↓reduceIte]
    split_ifs <;> rfl

theorem add_methodValue : (p.add kind typed described r s).method =
    p.method.or (if kind.isField && s.offers methodWords then some s.value else none) := by
  rw [← ite_isNone_eq, add_eq]
  cases h : s.offers methodWords with
  | true =>
    simp only [offers_eq_false h ["type"] (by decide),
      offers_eq_false h ["description"] (by decide), Bool.and_false, Bool.false_and,
      Bool.false_eq_true, ↓reduceIte]
    split_ifs <;> rfl
  | false =>
    simp only [Bool.and_false, Bool.false_and, Bool.false_eq_true, ↓reduceIte]
    split_ifs <;> rfl

theorem add_resolver : (p.add kind typed described r s).resolver =
    p.resolver.or (if kind.isField && s.offers ["resolve"] then some (r, s) else none) := by
  rw [← ite_isNone_eq, add_eq]
  cases h : s.offers ["resolve"] with
  | true =>
    simp only [offers_eq_false h ["type"] (by decide),
      offers_eq_false h ["description"] (by decide),
      offers_eq_false h methodWords (by decide), Bool.and_false, Bool.false_and,
      Bool.false_eq_true, ↓reduceIte]
    split_ifs <;> rfl
  | false =>
    simp only [Bool.and_false, Bool.false_and, Bool.false_eq_true, ↓reduceIte]
    split_ifs <;> rfl

/-- What the first statement with a property gives is what the collection holds. -/
theorem foldl_first {α : Type} {get : Pulled → Option α} {c : Statement → Bool}
    {val : LineRange → Statement → α}
    (hadd : ∀ (p : Pulled) (r : LineRange) (s : Statement),
      get (p.add kind typed described r s) = (get p).or (if c s then some (val r s) else none))
    (entries : List (LineRange × Statement)) (p : Pulled) :
    get (entries.foldl (fun p entry => p.add kind typed described entry.1 entry.2) p) =
      (get p).or ((entries.find? (c ·.2)).map fun entry => val entry.1 entry.2) := by
  induction entries generalizing p with
  | nil => exact Option.or_none.symm
  | cons entry rest ih =>
    rw [List.foldl_cons, ih, hadd, List.find?_cons, Option.or_assoc]
    cases c entry.2 <;> rfl

end Pulled

section

variable {d : Declaration} {ls : List Line} {kind : DeclarationKind}

theorem find?_and {α : Type} (b : Bool) (c : α → Bool) (l : List α) :
    l.find? (fun a => b && c a) = if b then l.find? c else none := by
  cases b with
  | false => exact List.find?_eq_none.2 fun a _ h => Bool.false_ne_true h
  | true => rfl

theorem pulled_type : (d.pulled ls kind).type =
    if !(headerType d.signature).isSome then firstValue? (d.readStatements ls) ["type"] else none := by
  unfold pulled Pulled.ofStatements
  rw [Pulled.foldl_first fun p r s => Pulled.add_type, find?_and]
  split <;> rfl

theorem pulled_description : (d.pulled ls kind).description =
    blockDescription? d.signature (d.readStatements ls) := by
  unfold pulled Pulled.ofStatements blockDescription?
  rw [Pulled.foldl_first fun p r s => Pulled.add_description, find?_and]
  cases d.signature.positional.any isStringLiteral <;> rfl

theorem pulled_methodValue : (d.pulled ls kind).method =
    blockMethod? kind (d.readStatements ls) := by
  unfold pulled Pulled.ofStatements blockMethod?
  rw [Pulled.foldl_first fun p r s => Pulled.add_methodValue, find?_and]
  split <;> rfl

theorem pulled_resolver : (d.pulled ls kind).resolver =
    if kind.isField then firstOffer? (d.readStatements ls) ["resolve"] else none := by
  unfold pulled Pulled.ofStatements
  rw [Pulled.foldl_first fun p r s => Pulled.add_resolver, find?_and]
  split
  · exact Option.map_id'
  · rfl

theorem pulled_settingList : (d.pulled ls kind).settings =
    blockSettings kind (d.readStatements ls) := by
  unfold pulled Pulled.ofStatements
  rw [Pulled.foldl_settings]
  rfl

/-- The type is that of the header, or else the first of the block. -/
theorem headerType_or_pulled : (headerType d.signature).or (d.pulled ls kind).type =
    (headerType d.signature).or (firstValue? (d.readStatements ls) ["type"]) := by
  rw [pulled_type]
  cases headerType d.signature <;> rfl

/-! ## The flat header -/

variable (d ls kind)

theorem flatKeywords_eq (t : TypeExpression) :
    flatKeywords kind d.signature (d.pulled ls kind) t =
      d.signature.keywords ++ addedKeywords kind (d.readStatements ls) t := by
  unfold flatKeywords addedKeywords
  rw [pulled_settingList, pulled_methodValue]
  simp only [List.append_assoc]

theorem flatPositional_eq (t : TypeExpression) :
    flatPositional d.signature (d.pulled ls kind) t =
      t.render :: ((blockDescription? d.signature (d.readStatements ls)).toList ++
        otherPositional d.signature) := by
  unfold flatPositional otherPositional
  rw [pulled_description]
  rfl

theorem arguments_of_keywords {name : Text} {t : TypeExpression} {extracted : Bool}
    {header : Signature} (hname : header.name = some ((Name.declared? name).elim name Name.symbol))
    (hpositional : header.positional = flatPositional d.signature (d.pulled ls kind) t)
    (hkeywords : header.keywords =
      ownKeywords d.signature extracted ++ addedKeywords kind (d.readStatements ls) t) :
    header.arguments = flatArguments kind d.signature (d.readStatements ls) name t extracted := by
  unfold Signature.arguments flatArguments
  rw [hname, hpositional, hkeywords, flatPositional_eq]
  rfl

/-- Nothing that is added is a resolver. -/
theorem key_ne_resolve {entries : List (LineRange × Statement)} {t : TypeExpression}
    {a : KeywordArgument} (h : a ∈ addedKeywords kind entries t) : a.key ≠ "resolve".toList := by
  simp only [addedKeywords, List.mem_append, List.mem_singleton] at h
  rcases h with ((h | rfl) | h) | h
  · obtain ⟨entry, hentry, rfl⟩ := List.mem_map.1 h
    intro hkey
    have hoffers := (List.mem_filter.1 hentry).2
    have hnone : Statement.offers kind.settingWords entry.2 = false :=
      Pulled.not_setting (by simp) hkey
    rw [hnone] at hoffers
    cases hoffers
  · show kind.nullabilityKey.toList ≠ "resolve".toList
    cases kind <;> decide
  · obtain ⟨value, -, rfl⟩ := Option.map_eq_some_iff.1 (Option.mem_toList.1 h)
    show "method".toList ≠ "resolve".toList
    decide
  · split at h
    · obtain rfl := List.mem_singleton.1 h
      show "connection".toList ≠ "resolve".toList
      decide
    · cases h

theorem keyword?_flatSignature (name : Text) (t : TypeExpression) :
    (flatSignature kind d.signature name (d.pulled ls kind) t).keyword? "resolve".toList =
      d.signature.keyword? "resolve".toList := by
  unfold Signature.keyword? flatSignature
  have hnone : (addedKeywords kind (d.readStatements ls) t).find?
      (fun a => a.key == "resolve".toList) = none :=
    List.find?_eq_none.2 fun a ha h => key_ne_resolve kind ha (beq_iff_eq.1 h)
  simp only [flatKeywords_eq, List.find?_append, hnone, Option.or_none]

theorem resolverText_eq (name : Text) (t : TypeExpression) :
    resolverText kind (flatSignature kind d.signature name (d.pulled ls kind) t)
      (d.pulled ls kind) = resolverValue? kind d.signature (d.readStatements ls) := by
  unfold resolverText resolverValue? firstValue?
  rw [pulled_resolver, keyword?_flatSignature]
  cases kind.isField with
  | false => rfl
  | true =>
    simp only [↓reduceIte]
    cases firstOffer? (d.readStatements ls) ["resolve"] <;> rfl

/-- Once the resolver has become a method, the header has lost it if it was the resolver. -/
theorem arguments_withoutResolver {name resolver : Text} {t : TypeExpression}
    (h : resolverValue? kind d.signature (d.readStatements ls) = some resolver) :
    (withoutResolver (flatSignature kind d.signature name (d.pulled ls kind) t)
      (d.pulled ls kind)).1.arguments = flatArguments kind d.signature (d.readStatements ls) name t
        (firstOffer? (d.readStatements ls) ["resolve"]).isNone := by
  have hfield : kind.isField = true := by
    unfold resolverValue? at h
    split at h
    · assumption
    · cases h
  unfold withoutResolver
  rw [pulled_resolver, if_pos hfield]
  cases hoffer : firstOffer? (d.readStatements ls) ["resolve"] with
  | some entry => exact arguments_of_keywords d ls kind rfl rfl (flatKeywords_eq d ls kind t)
  | none =>
    have hkeyword : d.signature.keyword? "resolve".toList = some resolver := by
      rw [resolverValue?, if_pos hfield, firstValue?, hoffer] at h
      exact h
    obtain ⟨a, ha, -⟩ := Option.map_eq_some_iff.1 hkeyword
    have herase : (flatKeywords kind d.signature (d.pulled ls kind) t).eraseP
        (·.key == "resolve".toList) =
          ownKeywords d.signature true ++ addedKeywords kind (d.readStatements ls) t := by
      rw [flatKeywords_eq]
      exact List.eraseP_append_left (List.find?_some ha) _ (List.mem_of_find?_eq_some ha)
    exact arguments_of_keywords d ls kind rfl rfl herase

theorem keyword_withoutResolver (flat : Signature) (pulled : Pulled) :
    (withoutResolver flat pulled).1.keyword = flat.keyword := by
  unfold withoutResolver
  split <;> rfl

theorem staying_sublist (removed : Removed) :
    (d.staying ls removed).Sublist (d.bodyLines ls) := by
  unfold staying bodyLines
  cases d.block with
  | none => exact List.Sublist.refl []
  | some b => exact (trimEnds_sublist _).trans (List.filter_sublist.filterMap _)

theorem arguments_newHeader (s : Signature) (body : List Line) :
    (newHeader s body).arguments = s.arguments := by
  unfold newHeader
  split <;> rfl

theorem keyword_newHeader (s : Signature) (body : List Line) :
    (newHeader s body).keyword = s.keyword := by
  unfold newHeader
  split <;> rfl

theorem emits_flatRewrite {name text : Text} {t : TypeExpression} (hname : d.signature.name = some name)
    (htext : (headerType d.signature).or (d.pulled ls kind).type = some text)
    (ht : TypeExpression.parse text = some t) :
    Emits kind d ls ((d.flatRewrite ls kind name t).lines d ls) := by
  rw [headerType_or_pulled] at htext
  have hindent : (flatSignature kind d.signature name (d.pulled ls kind) t).indent =
      d.signature.indent := rfl
  unfold flatRewrite
  simp only [resolverText_eq, hindent]
  cases hmethod : methodBelow (some name) (resolverValue? kind d.signature (d.readStatements ls))
      d.signature.indent (d.declaresArguments ls (d.pulled ls kind).removed) with
  | none =>
    refine ⟨name, t, newHeader _ _, d.staying ls (d.pulled ls kind).removed, none, _,
      ⟨hname, ⟨text, htext, ht⟩, ⟨_, hmethod.symm⟩, ?_, ?_, staying_sublist d ls _⟩, rfl⟩
    · exact keyword_newHeader _ _
    · rw [arguments_newHeader, Option.isSome_none, Bool.and_false]
      exact arguments_of_keywords d ls kind rfl rfl (flatKeywords_eq d ls kind t)
  | some trailer =>
    obtain ⟨resolver, hresolver⟩ : ∃ resolver,
        resolverValue? kind d.signature (d.readStatements ls) = some resolver := by
      cases h : resolverValue? kind d.signature (d.readStatements ls) with
      | none => simp [methodBelow, h] at hmethod
      | some resolver => exact ⟨resolver, rfl⟩
    refine ⟨name, t, newHeader _ _, d.staying ls _, some trailer, _,
      ⟨hname, ⟨text, htext, ht⟩, ⟨_, hmethod.symm⟩, ?_, ?_, staying_sublist d ls _⟩, rfl⟩
    · exact (keyword_newHeader _ _).trans (keyword_withoutResolver _ _)
    · rw [arguments_newHeader, Option.isSome_some, Bool.and_true]
      exact arguments_withoutResolver d ls kind hresolver

variable {d ls kind}

theorem emits_flatRewrite? {r : Rewrite} (h : d.flatRewrite? ls kind = some r) :
    Emits kind d ls (r.lines d ls) := by
  obtain ⟨name, text, t, hname, htext, ht, rfl⟩ := exists_of_flatRewrite? h
  exact emits_flatRewrite d ls kind hname htext ht

end

/-! ## Texts that agree on the lines of a declaration -/

section

variable {d : Declaration} {ls ls' : List Line} (htake : ls'.take (d.stop + 1) = ls.take (d.stop + 1))
include htake

theorem getElem?_of_take {i : Nat} (hi : i < d.stop + 1) : ls'[i]? = ls[i]? := by
  rw [← List.getElem?_take_of_lt hi, htake, List.getElem?_take_of_lt hi]

theorem readStatements_of_take (h : d.Placed ls.length) : d.readStatements ls' = d.readStatements ls := by
  unfold readStatements
  refine List.filterMap_congr fun r hr => ?_
  have hbounds := h.child_bounds hr
  have hextent : Lines.extent ls' r.first r.last = Lines.extent ls r.first r.last := by
    unfold Lines.extent
    rw [Lines.take_drop_of_take htake (by omega)]
  rw [readAt, hextent, readAt]

theorem bodyLines_of_take : d.bodyLines ls' = d.bodyLines ls := by
  unfold bodyLines
  cases hb : d.block with
  | none => rfl
  | some b =>
    have hstop : d.stop = b.stop := by rw [stop, hb]
    refine List.filterMap_congr fun i hi => getElem?_of_take htake ?_
    have := Block.mem_body.1 hi
    omega

theorem closer_of_take : d.closer ls' = d.closer ls := by
  unfold closer
  cases hb : d.block with
  | none => rfl
  | some b =>
    have hstop : d.stop = b.stop := by rw [stop, hb]
    simp only [getElem?_of_take htake (show b.stop < d.stop + 1 by omega)]

theorem Emits.of_take (h : d.Placed ls.length) {kind : DeclarationKind} {new : List Line}
    (hnew : Emits kind d ls' new) : Emits kind d ls new := by
  obtain ⟨name, t, header, stays, method, below, hparts, rfl⟩ := hnew
  have hread := readStatements_of_take htake h
  refine ⟨name, t, header, stays, method, below, ⟨hparts.named, ?_, ?_, hparts.keyword, ?_, ?_⟩, ?_⟩
  · exact hread ▸ hparts.typed
  · exact hread ▸ hparts.made
  · exact hread ▸ hparts.arguments
  · exact bodyLines_of_take htake ▸ hparts.sublist
  · rw [closer_of_take htake]

end

/-! ## A whole text -/

theorem mem_editors_flatten (kind : DeclarationKind) :
    (⟨kind.rule, kind.keyword, flatten kind⟩ : Editor) ∈ editors := by
  cases kind <;> simp [editors, DeclarationKind.rule, DeclarationKind.keyword]

/-- What is found further down is handled before. -/
theorem handleAll_append {rule : Rule} {revise : Revision} {ls : List Line} {above below : List Found}
    {q : Progress} (h : handleAll rule revise ls (above ++ below) = .ok q) :
    ∃ p, handleAll rule revise ls below = .ok p := by
  induction above generalizing q with
  | nil => exact ⟨q, h⟩
  | cons f rest ih =>
    obtain ⟨p, hp, -⟩ := handleAll_cons h
    exact ih hp

/-- A replacement that an edit carries out, at a declaration that lies in the text. -/
theorem splice_of_applyEdit {rule : Rule} {p q : Progress} {d : Declaration} {edit : Edit}
    (h : applyEdit rule p d edit = .ok q) {new : List Line} (hnew : edit.replacement = some new) :
    Lines.splice p.lines d.range new = .ok q.lines := by
  rcases applyEdit_cases h with ⟨hlines, -, hsame⟩ | ⟨new', hnew', hsplice, -⟩
  · rw [hlines]
    exact Lines.splice_slice (hsame new hnew)
  · rw [hnew] at hnew'
    obtain rfl := Option.some.inj hnew'
    exact hsplice

/-- **The order of a flat declaration.** A declaration that flattening rewrites gets its lines in the
order of `flatArguments`, as its statements stand in the text by then, when the declarations below have
been handled. These are its statements in the source unless one of those declarations starts in its
block. -/
theorem flattened_in_order (kind : DeclarationKind) (ns source : Text) {out : Outcome}
    (hout : kind.rule.apply ns source = .ok out) {above below : List Found} {d : Declaration}
    (hscan : scan (Text.lines source) kind.keyword = above ++ .declaration d :: below) :
    ∃ (p q : Progress) (edit : Edit),
      handleAll kind.rule (flatten kind) (Text.lines source) below = .ok p ∧
      flatten kind d p.lines = .ok edit ∧
      handleAll kind.rule (flatten kind) (Text.lines source) (.declaration d :: below) = .ok q ∧
      (edit.replacement = none → q.lines = p.lines) ∧
      ∀ new ∈ edit.replacement, Lines.splice p.lines d.range new = .ok q.lines ∧
        Emits kind d p.lines new ∧
        ((∀ e, .declaration e ∈ below → d.stop < e.start) →
          Emits kind d (Text.lines source) new) := by
  rw [apply_of_mem_editors (mem_editors_flatten kind)] at hout
  obtain ⟨all, hall, -⟩ := bind_eq_ok_iff.1 hout
  rw [hscan] at hall
  obtain ⟨q, hq⟩ := handleAll_append hall
  obtain ⟨p, hp, hd⟩ := handleAll_cons hq
  have hmem : .declaration d ∈ scan (Text.lines source) kind.keyword := by
    rw [hscan]
    exact List.mem_append_right above List.mem_cons_self
  have hplaced := placed_of_mem_scan hmem
  rcases handle_cases hd with ⟨hnone, -⟩ | ⟨d', edit, heq, hedit, happly⟩
  · cases hnone
  obtain rfl := Found.declaration.inj heq
  refine ⟨p, q, edit, hp, hedit, hq, fun hnone => ?_, fun new hnew => ?_⟩
  · rcases applyEdit_cases happly with ⟨hlines, -⟩ | ⟨new, hnew, -⟩
    · exact hlines
    · rw [hnone] at hnew
      cases hnew
  have hsplice := splice_of_applyEdit happly hnew
  have hstop : d.stop < p.lines.length := (LineRange.fits_iff.1 (Lines.splice_eq_ok hsplice).1).2
  have hreplacement := replacement_flatten { hplaced with stop_lt := hstop } hedit
  rw [hnew] at hreplacement
  obtain ⟨r, hr, rfl⟩ := Option.map_eq_some_iff.1 hreplacement.symm
  refine ⟨hsplice, emits_flatRewrite? hr, fun hbelow => ?_⟩
  exact (emits_flatRewrite? hr).of_take (take_handleAll hp hbelow) hplaced

/-- A field with a resolver and more in its header, and with a description, a setting and an argument
in its block. -/
def describedField : Text :=
  ("field :fooBar, types.Int, \"y\".dup, resolve: ->(o, a, c) { o.x }, as: :b do\n" ++
    "  complexity 3\n  description \"d\"\n  argument :c, types.Int\nend").toList

def describedDeclaration : Declaration :=
  ⟨0, 0, some ⟨0, 4⟩, [⟨1, 1⟩, ⟨2, 2⟩, ⟨3, 3⟩],
    ⟨[], "field".toList, some ":fooBar".toList, ["types.Int".toList, "\"y\".dup".toList],
      [.labelled "resolve".toList "->(o, a, c) { o.x }".toList, .labelled "as".toList ":b".toList],
      false, some "do".toList, []⟩⟩

theorem flattened_in_order_described :
    ∃ out, Rule.field.apply [] describedField = .ok out ∧
      scan (Text.lines describedField) "field" = [] ++ .declaration describedDeclaration :: [] ∧
      ∃ (p q : Progress) (edit : Edit),
        handleAll .field (flatten .field) (Text.lines describedField) [] = .ok p ∧
        flatten .field describedDeclaration p.lines = .ok edit ∧
        handleAll .field (flatten .field) (Text.lines describedField)
          [.declaration describedDeclaration] = .ok q ∧
        (edit.replacement = none → q.lines = p.lines) ∧
        ∀ new ∈ edit.replacement,
          Lines.splice p.lines describedDeclaration.range new = .ok q.lines ∧
          Emits .field describedDeclaration p.lines new ∧
          ((∀ e, Found.declaration e ∈ ([] : List Found) → describedDeclaration.stop < e.start) →
            Emits .field describedDeclaration (Text.lines describedField) new) := by
  have hout : Rule.field.apply [] describedField = .ok ⟨
      ("field :foo_bar, Integer, \"d\", \"y\".dup, as: :b, complexity: 3, null: true do\n" ++
        "  argument :c, types.Int\nend\n\ndef foo_bar(**args)\n  object.x\nend").toList, 1, []⟩ := by
    decide +kernel
  have hscan : scan (Text.lines describedField) "field" =
      [] ++ .declaration describedDeclaration :: [] := by
    decide +kernel
  exact ⟨_, hout, hscan, flattened_in_order .field [] describedField hout hscan⟩

/-- A field in the block of another one, which is flattened before and then has two lines less. -/
def nestedField : Text :=
  ("field :a, types.Int do\n  field :b do\n    type types.Int\n  end\n  complexity 3\nend\n" ++
    "description \"x\"\n").toList

/-- The outer field then takes over the description below its block, and not the setting inside. -/
theorem flattened_shifted :
    ∃ (d : Declaration) (below : List Found) (t : TypeExpression),
      scan (Text.lines nestedField) "field" = .declaration d :: below ∧
      headerType d.signature = some "types.Int".toList ∧
      TypeExpression.parse "types.Int".toList = some t ∧
      flatArguments .field d.signature (d.readStatements (Text.lines nestedField)) ":a".toList t false =
        [":a", "Integer", "complexity: 3", "null: true"].map String.toList ∧
      Rule.field.apply [] nestedField = .ok ⟨
        ("field :a, Integer, \"x\", null: true do\n  field :b, Integer, null: true\n" ++
          "  complexity 3\nend\n").toList, 2, []⟩ := by
  refine ⟨⟨0, 0, some ⟨0, 5⟩, [⟨1, 3⟩, ⟨4, 4⟩], ⟨[], "field".toList, some ":a".toList,
    ["types.Int".toList], [], false, some "do".toList, []⟩⟩,
    [.declaration ⟨1, 1, some ⟨1, 3⟩, [⟨2, 2⟩], ⟨"  ".toList, "field".toList, some ":b".toList, [], [],
      false, some "do".toList, []⟩⟩], ⟨"Integer".toList, true, 0, false⟩, ?_, ?_, ?_, ?_, ?_⟩ <;>
    decide +kernel

end SchemaLift.Declaration
