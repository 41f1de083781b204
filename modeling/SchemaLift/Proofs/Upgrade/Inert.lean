import SchemaLift.Proofs.Declaration.Rests
import SchemaLift.Proofs.Upgrade.Changes
import SchemaLift.Proofs.Upgrade.Parts

/-!
# When new lines are inert

The lines that come for a construct hold nothing for the rule that made them, nor for the rules before it
(`Rule.Inert`), where each of their parts holds nothing. A header that was rewritten for good is not taken up
again (`Rewrite.Orderly.header`), what stays of a block holds nothing but what the block held, since its lines
close what they open (`finds_staying`), and of a method only the body can hold anything
(`Rule.finds_method_append`). No rule looks at the lines that come for lists of interfaces, nor at a class
that was renamed. `Rule.Orderly` says what has to be asked of the text for all of this, and
`Rule.Orderly.inert` puts it together.
-/

namespace SchemaLift

open Outline Walk

/-! ## Methods -/

/-- The lines are those of a method. -/
def IsMethod (new : List Line) : Prop :=
  ∃ indent header body, Text.IsIndent indent ∧ new = ProcLiteral.methodLines indent header body

/-- The lines of a method between its first and its last one. -/
def innerLines (new : List Line) : List Line := new.tail.dropLast

namespace Rule

theorem ne_of_mem_words {q : Rule} {word : String}
    (hword : word ∈ ["def", "implements", "graphql_name"]) :
    ∀ w ∈ q.words, w.toList ≠ word.toList := by
  simp only [List.mem_cons, List.not_mem_nil, or_false] at hword
  rcases hword with rfl | rfl | rfl <;> cases q <;> decide

theorem plain_of_mem {word : String}
    (hword : word ∈ ["def", "implements", "graphql_name", "possible_types", "field", "argument"]) :
    Plain word.toList := by
  simp only [List.mem_cons, List.not_mem_nil, or_false] at hword
  rcases hword with rfl | rfl | rfl | rfl | rfl | rfl <;>
    exact ⟨.plain (by decide) (by decide) (List.all_eq_true.1 (by decide)) (by decide), by decide⟩

/-- No rule looks at the last line of a method. -/
theorem looksAt_end (q : Rule) {indent : Text} (hindent : Text.IsIndent indent) :
    q.looksAt (indent ++ "end".toList) = false := by
  refine looksAt_eq_false (fun word _ => ?_) ?_ ?_
  · rw [tokenizeCode_blank_append hindent.isBlankChar, tokenizeCode_end]
    rfl
  · refine DefinitionHeader.parse?_of_blank_append hindent.isBlankChar fun c hc => ?_
    obtain rfl := Option.some.inj hc
    decide
  · refine ClassHeader.parse?_of_blank_append hindent.isBlankChar fun c hc => ?_
    obtain rfl := Option.some.inj hc
    decide

/-- Of a method only the body can hold something for a rule. -/
theorem finds_method_append {q : Rule} {new : List Line} (hmethod : IsMethod new)
    (hinner : (ofLines (innerLines new)).Closed) (below : List Line) :
    q.finds (new ++ below) = [] ↔ q.finds (innerLines new) = [] ∧ q.finds below = [] := by
  obtain ⟨indent, header, body, hindent, rfl⟩ := hmethod
  have hdef : q.looksAt (indent ++ "def ".toList ++ header) = false := by
    rw [List.append_assoc]
    show q.looksAt (indent ++ ("def".toList ++ ' ' :: header)) = false
    exact looksAt_of_word hindent.isBlankChar (plain_of_mem (by decide))
      (Scan.delimits_cons (by decide) header) (ne_of_mem_words (by decide))
  generalize hlines : body.map (fun line => if line.isEmpty then [] else indent ++ ' ' :: ' ' :: line) = inner
  have hall : innerLines (ProcLiteral.methodLines indent header body) = inner := by
    rw [innerLines, ProcLiteral.methodLines, hlines, List.cons_append, List.tail_cons, List.dropLast_concat]
  rw [hall] at hinner ⊢
  rw [ProcLiteral.methodLines, hlines, List.cons_append, List.cons_append, List.append_assoc inner,
    finds_cons_of_not_looksAt hdef, finds_append_eq_nil_iff hinner, List.singleton_append,
    finds_cons_of_not_looksAt (q.looksAt_end hindent)]

end Rule

namespace Declaration

section

variable {d : Declaration} {ls : List Line}

/-- What a rule finds in a text, it does not find in the block of a declaration: nothing at all if it is at
rest, and nothing but the declarations that share no line with this one. -/
theorem finds_bodyLines {e : Editor} (he : e ∈ editors) (hd : d ∈ declarations ls e.keyword)
    (hapart : (declarations ls e.keyword).Pairwise fun a b => a.range.Apart b.range) {q : Rule}
    (hq : q = e.rule ∨ q.finds ls = [])
    (habove : ∀ i ≤ d.headerEnd, q.readsWithin ((ls.take (d.headerEnd + 1)).drop i) = true)
    (hbody : (ofLines (d.bodyLines ls)).Closed) : q.finds (d.bodyLines ls) = [] := by
  have hplaced := placed_of_mem_scan (mem_declarations.1 hd)
  cases hb : d.block with
  | none =>
    rw [bodyLines, hb]
    exact Rule.finds_nil q
  | some b =>
    have hend := hplaced.headerEnd_le
    have hlt := hplaced.stop_lt
    have habove' : (ls.take (d.headerEnd + 1)).length = d.headerEnd + 1 := List.length_take_of_le (by omega)
    have hwithin : ∀ i < (ls.take (d.headerEnd + 1)).length,
        q.readsWithin ((ls.take (d.headerEnd + 1)).drop i) = true := by
      intro i hi
      rw [habove'] at hi
      exact habove i (Nat.le_of_lt_succ hi)
    obtain ⟨below, hsplit⟩ := exists_below_bodyLines hplaced hb
    rcases hq with rfl | hrest
    · -- what it finds on the body it finds in the text, where another declaration would begin
      refine Rule.finds_eq_nil_iff.2 fun i hi => ?_
      rw [Bool.eq_false_iff]
      intro hfirst
      obtain ⟨hmem, hsame⟩ := Rule.stops_inside hwithin hbody below hi
      rw [← hsplit, habove'] at hmem hsame
      have hfound := (Rule.mem_finds_editor he).2 ⟨hmem, hsame.trans hfirst⟩
      rw [Rule.finds_editor he] at hfound
      obtain ⟨d', hd', hplace⟩ := List.mem_map.1 hfound
      refine not_inside_of_apart hd (List.mem_of_mem_filter hd') hapart ?_
      have hinside := (mem_stops_bounds hi).2
      have hlength := length_bodyLines hplaced hb
      have hhead := hplaced.start_le
      have hstop : d.stop = b.stop := by rw [stop, hb]
      omega
    · rw [hsplit] at hrest
      exact Rule.finds_inside hwithin hbody hrest

/-- Blank lines at the ends make no difference. -/
theorem finds_trimBlankEnds {q : Rule} {kept : List Line} (hclosed : (ofLines (trimBlankEnds kept)).Closed)
    (h : q.finds kept = []) : q.finds (trimBlankEnds kept) = [] := by
  obtain ⟨before, after, hbefore, -, hkept⟩ := exists_trimEnds_append Text.isBlank kept
  rw [hkept, List.append_assoc, Rule.finds_append_of_not_looksAt fun line hline =>
    q.looksAt_of_isBlank (hbefore line hline)] at h
  exact ((Rule.finds_append_eq_nil_iff hclosed after).1 h).1

/-- What stays of a block holds nothing for a rule that found nothing in the block. -/
theorem finds_staying (h : d.Placed ls.length) (hdisjoint : d.Disjoint) {removed : Removed}
    (hremoved : ∀ r ∈ removed, r ∈ d.children) {q : Rule} (hbody : q.finds (d.bodyLines ls) = [])
    (htaken : ∀ r ∈ removed, (ofLines ((ls.take r.first).drop (d.headerEnd + 1))).Closed ∧
      (ofLines (Lines.oldLines ls r)).Closed)
    (hstays : (ofLines (d.staying ls removed)).Closed) : q.finds (d.staying ls removed) = [] := by
  cases hb : d.block with
  | none =>
    rw [staying, hb]
    exact Rule.finds_nil q
  | some b =>
    have hkept :
        q.finds (Lines.replaceRanges (d.bodyLines ls) ((d.takenRanges removed).map (·, []))) = [] := by
      refine Rule.finds_removed (sorted_takenRanges h hdisjoint hb removed) (fun c hc => ?_) hbody
      obtain ⟨range, hrange, rfl⟩ := List.mem_map.1 hc
      obtain ⟨r, hr, hgone, rfl⟩ := mem_takenRanges.1 hrange
      obtain ⟨habove, hold⟩ := h.inBody_lines hb hr
      refine ⟨rfl, ?_, ?_⟩
      · rw [habove]
        exact (htaken r hgone).1
      · rw [hold]
        exact (htaken r hgone).2
    rw [staying_eq_replaceRanges h hb hremoved] at hstays ⊢
    generalize Lines.replaceRanges (d.bodyLines ls) ((d.takenRanges removed).map (·, [])) = kept at *
    exact finds_trimBlankEnds hstays hkept

/-! ## The header -/

theorem indent_header {rule : Rule} {w : Rewrite} (h : d.rewrite? ls rule = some w) :
    w.header.indent = d.signature.indent := by
  cases made_of_rewrite? h <;> rfl

theorem isMethod_of_methodBelow {name resolver : Option Text} {indent : Text} (hindent : Text.IsIndent indent)
    {declared : Bool} {trailer : List Line} (h : methodBelow name resolver indent declared = some trailer) :
    IsMethod trailer := by
  obtain ⟨name, -, h⟩ := Option.bind_eq_some_iff.1 h
  obtain ⟨resolver, -, h⟩ := Option.bind_eq_some_iff.1 h
  obtain ⟨header, body, -, rfl⟩ := resolverMethod_ok (toOption_eq_some_iff.1 h)
  exact ⟨indent, header, _, hindent, rfl⟩

/-- Below a declaration comes nothing, or a method. -/
theorem isMethod_trailer {rule : Rule} {w : Rewrite} (hindent : Text.IsIndent d.signature.indent)
    (h : d.rewrite? ls rule = some w) : w.trailer = [] ∨ IsMethod w.trailer := by
  cases made_of_rewrite? h with
  | flat | renamed | pushed => exact .inl rfl
  | flatStatement _ _ _ _ hmethod | flatArgument _ _ _ _ _ _ hmethod | movedStatement _ hmethod
    | movedArgument _ _ hmethod => exact .inr (isMethod_of_methodBelow hindent hmethod)

theorem keywordAfter_mem (rule : Rule) : keywordAfter rule ∈ ["field", "argument"] := by
  cases rule <;> decide

/-- The rules that look at a header. -/
theorem exists_editor_of_mem_words {q : Rule} {word : String} (hword : word ∈ ["field", "argument"])
    (h : word ∈ q.words) : ∃ f ∈ editors, f.rule = q ∧ f.keyword = word := by
  cases q <;> simp only [List.mem_cons, List.not_mem_nil, or_false] at hword <;>
    rcases hword with rfl | rfl <;> revert h <;> decide

theorem keywordAfter_of_field {e : Editor} (he : e ∈ editors) (h : e.keyword = "field") :
    keywordAfter e.rule = e.keyword := by
  rcases editors_cases he with ⟨_ | _ | _ | _, rfl⟩ | rfl | rfl <;> first | rfl | exact absurd h (by decide)

/-- A rule that finds nothing has nothing to do with any declaration of its keyword. -/
theorem applies_of_finds_eq_nil {f : Editor} (hf : f ∈ editors) (hd : d ∈ declarations ls f.keyword)
    (h : f.rule.finds ls = []) : applies f.rule d.signature (d.statementList ls) = false := by
  rw [Rule.finds_editor hf, rewritten, List.map_eq_nil_iff, List.filter_eq_nil_iff] at h
  rw [← isSome_rewrite?]
  exact Bool.eq_false_iff.2 (h d hd)

/-- What is read of the new lines is what they were put together from. -/
structure Rewrite.ReadsBack (w : Rewrite) (d : Declaration) (ls : List Line) (c : Call) : Prop where
  reach : c.reach = 0
  name : c.signature.name = w.header.name
  positional : c.signature.positional = w.header.positional
  keywords : c.signature.keywords = w.header.keywords
  statements : statementsOf c.body = w.stays d ls

instance (w : Rewrite) (d : Declaration) (ls : List Line) (c : Call) : Decidable (w.ReadsBack d ls c) :=
  decidable_of_iff (c.reach = 0 ∧ c.signature.name = w.header.name ∧
      c.signature.positional = w.header.positional ∧ c.signature.keywords = w.header.keywords ∧
      statementsOf c.body = w.stays d ls)
    ⟨fun ⟨reach, name, positional, keywords, statements⟩ => ⟨reach, name, positional, keywords, statements⟩,
      fun h => ⟨h.reach, h.name, h.positional, h.keywords, h.statements⟩⟩

/-- What stays of a block stands apart: it closes what it opens, as do the statements that go and those
above them, and a rule reads on the lines above it what begins there. -/
structure Rewrite.BlockApart (w : Rewrite) (d : Declaration) (ls : List Line) (q : Rule) : Prop where
  above : ∀ i ≤ d.headerEnd, q.readsWithin ((ls.take (d.headerEnd + 1)).drop i) = true
  body : (ofLines (d.bodyLines ls)).Closed
  taken : ∀ r ∈ w.removed, (ofLines ((ls.take r.first).drop (d.headerEnd + 1))).Closed ∧
    (ofLines (Lines.oldLines ls r)).Closed
  stays : (ofLines (d.staying ls w.removed)).Closed
  closer : ∀ line ∈ d.closer ls, q.looksAt line = false

instance (w : Rewrite) (d : Declaration) (ls : List Line) (q : Rule) : Decidable (w.BlockApart d ls q) :=
  decidable_of_iff ((∀ i ≤ d.headerEnd, q.readsWithin ((ls.take (d.headerEnd + 1)).drop i) = true) ∧
      (ofLines (d.bodyLines ls)).Closed ∧
      (∀ r ∈ w.removed, (ofLines ((ls.take r.first).drop (d.headerEnd + 1))).Closed ∧
        (ofLines (Lines.oldLines ls r)).Closed) ∧
      (ofLines (d.staying ls w.removed)).Closed ∧ ∀ line ∈ d.closer ls, q.looksAt line = false)
    ⟨fun ⟨above, body, taken, stays, closer⟩ => ⟨above, body, taken, stays, closer⟩,
      fun h => ⟨h.above, h.body, h.taken, h.stays, h.closer⟩⟩

/-- The rewrite of a declaration leaves nothing behind: the declaration has one property and one resolver at
most, the new lines are read as they were put together, what stays of its block stands apart, and the body
of the method holds nothing for the rule. -/
structure Rewrite.Orderly (w : Rewrite) (d : Declaration) (ls : List Line) (q : Rule) : Prop where
  single : d.Single ls q
  oneLine : ∀ line ∈ w.lines d ls, '\n' ∉ line
  reads : ∀ c ∈ call? (w.lines d ls), w.ReadsBack d ls c
  method : (ofLines (innerLines w.trailer)).Closed ∧ q.finds (innerLines w.trailer) = []
  block : d.staying ls w.removed ≠ [] → w.BlockApart d ls q

instance (w : Rewrite) (d : Declaration) (ls : List Line) (q : Rule) : Decidable (w.Orderly d ls q) :=
  decidable_of_iff (d.Single ls q ∧ (∀ line ∈ w.lines d ls, '\n' ∉ line) ∧
      (∀ c ∈ call? (w.lines d ls), w.ReadsBack d ls c) ∧
      ((ofLines (innerLines w.trailer)).Closed ∧ q.finds (innerLines w.trailer) = []) ∧
      (d.staying ls w.removed ≠ [] → w.BlockApart d ls q))
    ⟨fun ⟨single, oneLine, reads, method, block⟩ => ⟨single, oneLine, reads, method, block⟩,
      fun h => ⟨h.single, h.oneLine, h.reads, h.method, h.block⟩⟩

theorem Rewrite.lines_eq (w : Rewrite) (d : Declaration) (ls : List Line) : w.lines d ls =
    (newHeader w.header (d.staying ls w.removed)).render ::
      ((if (d.staying ls w.removed).isEmpty then [] else d.staying ls w.removed ++ d.closer ls) ++
        separate w.trailer (spaced ls[d.stop + 1]?)) :=
  rfl

/-- The new header holds nothing for the rule, nor for one before it that was at rest. -/
theorem Rewrite.Orderly.header {e : Editor} (he : e ∈ editors) (hd : d ∈ declarations ls e.keyword)
    {w : Rewrite} (hw : d.rewrite? ls e.rule = some w) {q : Rule}
    (hq : q = e.rule ∨ q.Precedes e.rule ∧ q.finds ls = []) (h : w.Orderly d ls q) :
    q.reach (w.lines d ls) = 0 ∧ q.findsFirst (w.lines d ls) = false := by
  have hscan := mem_declarations.1 hd
  have hplaced := placed_of_mem_scan hscan
  by_cases hword : keywordAfter e.rule ∈ q.words
  · obtain ⟨f, hf, rfl, hsame⟩ := exists_editor_of_mem_words (keywordAfter_mem e.rule) hword
    rw [Rule.reach_editor hf, Rule.findsFirst_editor hf, callReach, rewritesFirst]
    cases hcall : call? (w.lines d ls) with
    | none =>
      rw [Option.elim_none, Option.any_none, Bool.and_false, ite_self]
      exact ⟨rfl, rfl⟩
    | some c =>
      have hreads := h.reads c hcall
      have happlies : applies f.rule c.signature (statementsOf c.body) = false := by
        have hdisjoint := disjoint_of_locate ((genuine_of_mem_scan hscan).2 d rfl)
        have hreader := mem_readersUpTo he hf hsame (hq.imp_right And.left)
        rw [applies_congr f.rule hreads.name hreads.positional hreads.keywords (by rw [hreads.statements])]
        refine applies_header he hreader hdisjoint h.single hw fun hfield hne => ?_
        have hown : f.keyword = e.keyword := hsame.trans (keywordAfter_of_field he hfield)
        refine applies_of_finds_eq_nil hf (hown ▸ hd) (hq.resolve_left hne).2
      rw [Option.elim_some, Option.any_some, hreads.reach, happlies, Bool.and_false, ite_self]
      exact ⟨rfl, rfl⟩
  · have hline : Rule.looksAt (newHeader w.header (d.staying ls w.removed)).render q = false := by
      obtain ⟨rest, hrest, hrender⟩ := (newHeader w.header (d.staying ls w.removed)).render_eq
      have hindent : (newHeader w.header (d.staying ls w.removed)).indent = w.header.indent := by
        unfold newHeader
        split <;> rfl
      rw [hrender, hindent, indent_header hw, keyword_newHeader,
        keyword_header he (keyword_of_mem_scan hscan) hw]
      refine Rule.looksAt_of_word hplaced.signature.indent.isBlankChar ?_ hrest fun word hmem heq => ?_
      · have hkeyword := keywordAfter_mem e.rule
        refine Rule.plain_of_mem ?_
        simp only [List.mem_cons, List.not_mem_nil, or_false] at hkeyword ⊢
        tauto
      · exact hword (String.toList_inj.1 heq ▸ hmem)
    rw [w.lines_eq]
    exact Rule.not_looksAt hline _

/-! ## All new lines of a declaration -/

theorem finds_separate {q : Rule} {trailer : List Line} (htrailer : trailer = [] ∨ IsMethod trailer)
    (hinner : (ofLines (innerLines trailer)).Closed) (hnil : q.finds (innerLines trailer) = [])
    (below : Bool) : q.finds (separate trailer below) = [] := by
  have hblank : q.looksAt [] = false := q.looksAt_of_isBlank rfl
  have hbelow : q.finds (if below then [[]] else []) = [] := by
    refine Rule.finds_of_not_looksAt fun line hline => ?_
    split at hline
    · rw [List.mem_singleton.1 hline, hblank]
    · cases hline
  unfold separate
  split
  · exact Rule.finds_nil q
  · rename_i hne
    have hmethod := htrailer.resolve_left fun hnone => hne (by rw [hnone]; rfl)
    rw [List.cons_append, Rule.finds_cons_of_not_looksAt hblank, Rule.finds_method_append hmethod hinner]
    exact ⟨hnil, hbelow⟩

/-- **New lines that hold nothing.** Where a rewrite leaves nothing behind, its lines hold nothing for the
rule, nor for one before it that was at rest. -/
theorem Rewrite.Orderly.finds_lines {e : Editor} (he : e ∈ editors) (hd : d ∈ declarations ls e.keyword)
    (hapart : (declarations ls e.keyword).Pairwise fun a b => a.range.Apart b.range) {w : Rewrite}
    (hw : d.rewrite? ls e.rule = some w) {q : Rule}
    (hq : q = e.rule ∨ q.Precedes e.rule ∧ q.finds ls = []) (h : w.Orderly d ls q) :
    q.finds (w.lines d ls) = [] := by
  have hscan := mem_declarations.1 hd
  have hplaced := placed_of_mem_scan hscan
  obtain ⟨hreach, hfirst⟩ := h.header he hd hw hq
  have hsep : q.finds (separate w.trailer (spaced ls[d.stop + 1]?)) = [] :=
    finds_separate (isMethod_trailer hplaced.signature.indent hw) h.method.1 h.method.2 _
  rw [w.lines_eq] at hreach hfirst ⊢
  refine (Rule.finds_cons_eq_nil_iff hreach).2 ⟨hfirst, ?_⟩
  split
  · exact hsep
  · rename_i hstay
    have hblock := h.block fun hnil => hstay (List.isEmpty_iff.2 hnil)
    have hbody := finds_bodyLines he hd hapart (hq.imp_right And.right) hblock.above hblock.body
    obtain ⟨taken, htaken⟩ := exists_takes hw
    have hstaying := finds_staying hplaced (disjoint_of_locate ((genuine_of_mem_scan hscan).2 d rfl))
      (fun r hr => htaken.removed_subperm.subset hr) hbody hblock.taken hblock.stays
    rw [List.append_assoc, Rule.finds_append_eq_nil_iff hblock.stays,
      Rule.finds_append_of_not_looksAt hblock.closer]
    exact ⟨hstaying, hsep⟩

end

end Declaration

/-! ## Lists, hooks and names -/

namespace Rule

theorem looksAt_of_implements (q : Rule) {line interface : Text} (h : Implements line interface) :
    q.looksAt line = false := by
  obtain ⟨indent, comments, hindent, -, rfl⟩ := h
  rw [List.append_assoc, List.append_assoc]
  show q.looksAt (indent ++ ("implements".toList ++ ' ' :: (interface ++ _))) = false
  exact looksAt_of_word hindent.isBlankChar (plain_of_mem (by decide)) (Scan.delimits_cons (by decide) _)
    (ne_of_mem_words (by decide))

/-- No rule looks at the lines that come for lists of interfaces. -/
theorem finds_interfaces (q : Rule) (ls : List Line) :
    ∀ c ∈ StatementRule.interfaces.changes ls (statementsOn StatementRule.interfaces.starts ls),
      q.finds c.2 = [] := by
  have hall := forall₂_interfaceLists ls (statementsOn StatementRule.interfaces.starts ls)
  refine ((List.forall₂_and_left _ _).1 (hall.imp fun c list hsame => ⟨?_, hsame⟩)).1
  have hlines : List.Forall₂ (fun line interface => q.looksAt line = false ∧ Implements line interface)
      c.2 list.2 := hsame.2.imp fun line interface h => ⟨looksAt_of_implements q h, h⟩
  exact finds_of_not_looksAt ((List.forall₂_and_left _ _).1 hlines).1

/-- The line that comes for a list of types is none that a rule looks at, apart from the rule for these
lists. -/
theorem finds_possibleTypes {q : Rule} {ls : List Line} {c : Lines.Change}
    (hc : c ∈ StatementRule.possibleTypes.changes ls (statementsOn StatementRule.possibleTypes.starts ls))
    (hlist : ∀ line ∈ c.2, ListCall.parse? "possible_types" line = none) : q.finds c.2 = [] := by
  obtain ⟨r, -, hc⟩ := List.mem_filterMap.1 hc
  obtain ⟨new, hnew, rfl⟩ := Option.map_eq_some_iff.1 hc
  obtain ⟨l, hl, rfl⟩ := Option.map_eq_some_iff.1 hnew
  obtain ⟨line, call, -, -, rfl⟩ := TypeList.at?_eq_some_iff.1 (Option.eq_some_of_filter_eq_some hl)
  generalize hnew' : (TypeList.possibleTypesLines ⟨r, Text.indentation line, call⟩) = new at hlist ⊢
  obtain ⟨rest, rfl⟩ : ∃ rest, new = [Text.indentation line ++ ("possible_types".toList ++ ' ' :: rest)] := by
    refine ⟨", ".toList.intercalate call.items ++ call.comments.flatMap (' ' :: ·), hnew'.symm.trans ?_⟩
    simp [TypeList.possibleTypesLines, TypeList.withComments]
  by_cases hq : q = .possibleTypes
  · subst hq
    have hnone := hlist _ List.mem_cons_self
    generalize Text.indentation line ++ ("possible_types".toList ++ ' ' :: rest) = l at hnone
    have hreplacement : StatementRule.possibleTypes.replacement [l] ⟨0, 0⟩ = none := by
      show Option.map _ (Option.filter _ (Option.map _ (ListCall.parse? "possible_types" l))) = none
      rw [hnone]
      rfl
    have hreach : reach [l] .possibleTypes = 0 := Nat.lt_one_iff.1 (reach_lt (List.cons_ne_nil l []))
    refine (finds_cons_eq_nil_iff hreach).2 ⟨?_, finds_nil _⟩
    show (_ && Option.any _ _) = false
    cases hend : (ofLines [l]).statementEnd 0 with
    | none => exact Bool.and_false _
    | some last =>
      have hlt := (statementEnd_bounds hend).2
      obtain rfl : last = 0 := Nat.lt_one_iff.1 hlt
      rw [Option.any_some, hreplacement]
      exact Bool.and_false _
  · have hwords : ∀ word ∈ q.words, word.toList ≠ "possible_types".toList := by
      cases q <;> first | exact absurd rfl hq | decide
    refine finds_of_not_looksAt fun l hl => ?_
    rw [List.mem_singleton.1 hl]
    exact looksAt_of_word (Text.isIndent_indentation line).isBlankChar (plain_of_mem (by decide))
      (Scan.delimits_cons (by decide) _) hwords

/-- Of the method that comes for a hook only the body can hold something for a rule. -/
theorem isMethod_hooks {ls : List Line} {c : Lines.Change}
    (hc : c ∈ StatementRule.hooks.changes ls (statementsOn StatementRule.hooks.starts ls)) :
    IsMethod c.2 := by
  obtain ⟨r, -, hc⟩ := List.mem_filterMap.1 hc
  obtain ⟨new, hnew, rfl⟩ := Option.map_eq_some_iff.1 hc
  obtain ⟨line, -, hnew⟩ := Option.bind_eq_some_iff.1 hnew
  obtain ⟨hook, -, hnew⟩ := Option.bind_eq_some_iff.1 hnew
  obtain ⟨statement, proc, -, -, rfl⟩ := Hook.method_eq_ok (toOption_eq_some_iff.1 hnew)
  exact ⟨_, _, _, Text.isIndent_indentation line, rfl⟩

/-- A renamed statement is none that a rule looks at. -/
theorem finds_name {q : Rule} {ns : Text} {ls : List Line} {c : Lines.Change}
    (hls : ∀ line ∈ ls, '\n' ∉ line) (hc : c ∈ Rule.name.changes ns ls) : q.finds c.2 = [] := by
  obtain ⟨change, hchange, rfl⟩ := List.mem_map.1 hc
  obtain ⟨line, index, hline, hne, rfl⟩ := Lines.mem_lineChanges.1 hchange
  rcases NameStatement.fate_cases (NameStatement.edits ls) line index with hnone | hrenamed | hstays
  · show q.finds ((NameStatement.fate ls (NameStatement.edits ls) (line, index)).flatMap Text.lines) = []
    rw [hnone]
    exact finds_nil q
  · obtain ⟨hedit, hfate⟩ := hrenamed
    obtain ⟨line', hline', hname⟩ := NameStatement.parse?_of_mem_edits hedit
    obtain rfl := Option.some.inj (hline'.symm.trans hline)
    obtain ⟨name, hname⟩ := Option.isSome_iff_exists.1 hname
    have hfeed := NameStatement.notMem_renamed hname (hls line' (List.mem_of_getElem? hline))
    show q.finds ((NameStatement.fate ls (NameStatement.edits ls) (line', index)).flatMap Text.lines) = []
    rw [hfate, List.flatMap_singleton, Text.lines_of_notMem hfeed]
    obtain ⟨indent, rest, hindent, hrest, -, hrenamed⟩ := NameStatement.exists_renamed hname
    refine finds_of_not_looksAt fun l hl => ?_
    rw [List.mem_singleton.1 hl, hrenamed]
    exact looksAt_of_word hindent (plain_of_mem (by decide)) hrest (ne_of_mem_words (by decide))
  · exact absurd hstays.2 hne

end Rule

/-! ## Any rule -/

/-- The new lines of a rule hold nothing for it nor for one before it. -/
def Rule.Inert (ns : Text) (earlier : List Rule) (ls : List Line) (r : Rule) : Prop :=
  ∀ c ∈ r.changes ns ls, ∀ q ∈ r :: earlier, q.finds c.2 = []

/-- What a rule does leaves nothing behind for it nor for those before it: each declaration is rewritten for
good, no list of types has another list as its only item, no method that comes for a hook holds something in
its body, and no new line holds a line feed. -/
def Rule.Orderly (earlier : List Rule) (ls : List Line) : Rule → Prop
  | .typeDefinition | .name => True
  | .implements =>
    ∀ c ∈ StatementRule.interfaces.changes ls (statementsOn StatementRule.interfaces.starts ls),
      ∀ line ∈ c.2, '\n' ∉ line
  | .possibleTypes =>
    ∀ c ∈ StatementRule.possibleTypes.changes ls (statementsOn StatementRule.possibleTypes.starts ls),
      ∀ line ∈ c.2, '\n' ∉ line ∧ ListCall.parse? "possible_types" line = none
  | .classProc =>
    ∀ c ∈ StatementRule.hooks.changes ls (statementsOn StatementRule.hooks.starts ls),
      (∀ line ∈ c.2, '\n' ∉ line) ∧ (ofLines (innerLines c.2)).Closed ∧
        ∀ q ∈ .classProc :: earlier, q.finds (innerLines c.2) = []
  | r => ∀ e ∈ r.editor?, ∀ d ∈ Declaration.declarations ls e.keyword, ∀ w ∈ d.rewrite? ls e.rule,
      ∀ q ∈ r :: earlier, w.Orderly d ls q

namespace Rule

instance (ns : Text) (earlier : List Rule) (ls : List Line) (r : Rule) :
    Decidable (r.Inert ns earlier ls) :=
  inferInstanceAs (Decidable (∀ c ∈ r.changes ns ls, ∀ q ∈ r :: earlier, q.finds c.2 = []))

instance (earlier : List Rule) (ls : List Line) : (r : Rule) → Decidable (r.Orderly earlier ls)
  | .typeDefinition | .name => inferInstanceAs (Decidable True)
  | .implements | .possibleTypes | .classProc =>
    inferInstanceAs (Decidable (∀ c ∈ StatementRule.changes _ _ _, _))
  | .field | .argument | .inputField | .connection | .propertyToMethod | .resolveProc =>
    inferInstanceAs (Decidable (∀ e ∈ editor? _, ∀ d ∈ Declaration.declarations _ _, _))

theorem orderly_editor {e : Declaration.Editor} (he : e ∈ Declaration.editors) {earlier : List Rule}
    {ls : List Line} (h : e.rule.Orderly earlier ls) : ∀ d ∈ Declaration.declarations ls e.keyword,
      ∀ w ∈ d.rewrite? ls e.rule, ∀ q ∈ e.rule :: earlier, w.Orderly d ls q := by
  rcases Declaration.editors_cases he with ⟨_ | _ | _ | _, rfl⟩ | rfl | rfl <;> exact h _ rfl

/-- **When new lines are inert.** -/
theorem Orderly.inert {ns : Text} {ls : List Line} (hls : ∀ line ∈ ls, '\n' ∉ line) {earlier : List Rule}
    {r : Rule} (htype : r ≠ .typeDefinition) (hapart : r.Apart ls)
    (hrest : ∀ q ∈ earlier, q.Precedes r ∧ q.finds ls = []) (h : r.Orderly earlier ls) :
    r.Inert ns earlier ls := by
  intro c hc q hq
  have hrecut : ∀ {new : List Line}, (∀ line ∈ new, '\n' ∉ line) → q.finds new = [] →
      q.finds (new.flatMap Text.lines) = [] := by
    intro new hnew hnil
    rwa [Text.flatMap_lines hnew]
  rcases r.kinds with ⟨e, he, rfl⟩ | ⟨w, rfl⟩ | rfl | rfl
  · rw [changes, replacements_editor he] at hc
    obtain ⟨change, hchange, rfl⟩ := List.mem_map.1 hc
    obtain ⟨d, hd, hchange⟩ := List.mem_filterMap.1 hchange
    obtain ⟨w, hw, rfl⟩ := Option.map_eq_some_iff.1 hchange
    have horderly := orderly_editor he h d hd w hw q hq
    have hbefore : q = e.rule ∨ q.Precedes e.rule ∧ q.finds ls = [] :=
      (List.mem_cons.1 hq).imp_right (hrest q)
    exact hrecut horderly.oneLine (horderly.finds_lines he hd ((apart_editor he).1 hapart) hw hbefore)
  · rw [changes, replacements_statement] at hc
    obtain ⟨change, hchange, rfl⟩ := List.mem_map.1 hc
    cases w with
    | interfaces => exact hrecut (h change hchange) (finds_interfaces q ls change hchange)
    | possibleTypes =>
      have hlines := h change hchange
      exact hrecut (fun line hline => (hlines line hline).1)
        (finds_possibleTypes hchange fun line hline => (hlines line hline).2)
    | hooks =>
      obtain ⟨hlines, hclosed, hinner⟩ := h change hchange
      have hall := finds_method_append (q := q) (isMethod_hooks hchange) hclosed []
      rw [List.append_nil] at hall
      exact hrecut hlines (hall.2 ⟨hinner q hq, finds_nil q⟩)
  · exact absurd rfl htype
  · exact finds_name hls hc

end Rule

end SchemaLift
