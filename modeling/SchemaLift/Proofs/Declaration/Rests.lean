import SchemaLift.Proofs.Declaration.Found
import SchemaLift.Proofs.Declaration.Taken

/-!
# What a rule leaves of a declaration

A rule that has rewritten a declaration would not rewrite it again, and rules that come before it and had
nothing to do with the declaration still have nothing to do (`applies_header`). A flat header tells
nullability, so no rule that flattens takes it up again; a property that has become a method is named by
`method:`, and a resolver that has become a method is gone. The other arguments stay as they are. Where a
declaration names several properties or several resolvers, each pass takes one of them.
-/

namespace SchemaLift

/-- The one rule is applied before the other. -/
def Rule.Precedes (q r : Rule) : Prop := Rule.all.idxOf q < Rule.all.idxOf r

instance (q r : Rule) : Decidable (q.Precedes r) := inferInstanceAs (Decidable (_ < _))

namespace Declaration

/-- The statements of the block that stay. -/
def Rewrite.stays (w : Rewrite) (d : Declaration) (ls : List Line) : List Statement :=
  ((d.readStatements ls).filter fun entry => !w.removed.covers entry.1.first).map Prod.snd

/-- The statements of a block share no line. -/
structure Disjoint (d : Declaration) : Prop where
  nonempty : ∀ r ∈ d.children, r.first ≤ r.last
  apart : d.children.Pairwise fun a b => a.last < b.first

/-- What a rule takes from a declaration, there is at most one of: of properties among its arguments, and of
resolvers, there or in its block. -/
structure Single (d : Declaration) (ls : List Line) (q : Rule) : Prop where
  property : q = .propertyToMethod → d.signature.keys.count "property".toList ≤ 1
  resolver : q = .resolveProc → (d.statementList ls).countP (Statement.offers ["resolve"]) +
    d.signature.keys.count "resolve".toList ≤ 1

instance (d : Declaration) (ls : List Line) (q : Rule) : Decidable (d.Single ls q) :=
  decidable_of_iff ((q = .propertyToMethod → d.signature.keys.count "property".toList ≤ 1) ∧
      (q = .resolveProc → (d.statementList ls).countP (Statement.offers ["resolve"]) +
        d.signature.keys.count "resolve".toList ≤ 1))
    ⟨fun ⟨property, resolver⟩ => ⟨property, resolver⟩, fun h => ⟨h.property, h.resolver⟩⟩

section

variable {d : Declaration} {ls : List Line} {w : Rewrite}

/-! ## Lines that stay -/

section

variable {b : Block}

theorem bodyLines_eq (hb : d.block = some b) (ls : List Line) : d.bodyLines ls = bodyOf ls b := by
  rw [bodyLines, hb, bodyOf, take_eq_filterMap]
  rfl

/-- The body of a block as a stretch of the text. -/
theorem exists_below_bodyLines (h : d.Placed ls.length) (hb : d.block = some b) :
    ∃ below, ls = ls.take (d.headerEnd + 1) ++ (d.bodyLines ls ++ below) := by
  refine ⟨(ls.drop (d.headerEnd + 1)).drop (b.stop - (b.start + 1)), ?_⟩
  rw [bodyLines_eq hb, bodyOf, (h.block b hb).1, List.take_append_drop, List.take_append_drop]

/-- A range of the block, counted from the first line of its body. -/
def inBody (d : Declaration) (r : LineRange) : LineRange :=
  ⟨r.first - (d.headerEnd + 1), r.last - (d.headerEnd + 1)⟩

/-- The ranges of the block that go, counted from the first line of its body. -/
def takenRanges (d : Declaration) (removed : Removed) : List LineRange :=
  (d.children.filter (removed.contains ·)).map d.inBody

theorem mem_takenRanges {removed : Removed} {range : LineRange} : range ∈ d.takenRanges removed ↔
    ∃ r ∈ d.children, r ∈ removed ∧ d.inBody r = range := by
  unfold takenRanges
  rw [List.mem_map]
  constructor
  · rintro ⟨r, hr, hrange⟩
    obtain ⟨hchild, hgone⟩ := List.mem_filter.1 hr
    exact ⟨r, hchild, List.contains_iff_mem.1 hgone, hrange⟩
  · rintro ⟨r, hchild, hgone, hrange⟩
    exact ⟨r, List.mem_filter.2 ⟨hchild, List.contains_iff_mem.2 hgone⟩, hrange⟩

theorem Placed.children_bounds {count : Nat} (h : d.Placed count) (hb : d.block = some b) {r : LineRange}
    (hr : r ∈ d.children) : d.headerEnd < r.first ∧ r.first ≤ r.last ∧ r.last < b.stop := by
  obtain ⟨b', hb', hbounds⟩ := h.children r hr
  rw [hb] at hb'
  obtain rfl := Option.some.inj hb'
  rw [← (h.block b hb).1]
  exact hbounds

theorem length_bodyLines (h : d.Placed ls.length) (hb : d.block = some b) :
    (d.bodyLines ls).length = b.stop - (d.headerEnd + 1) := by
  have hstop : d.stop = b.stop := by rw [stop, hb]
  have hlt := h.stop_lt
  rw [bodyLines_eq hb, bodyOf, (h.block b hb).1, List.length_take, List.length_drop]
  omega

/-- A statement of the block, and the lines of the body above it. -/
theorem Placed.inBody_lines (h : d.Placed ls.length) (hb : d.block = some b) {r : LineRange}
    (hr : r ∈ d.children) :
    (d.bodyLines ls).take (d.inBody r).first = (ls.take r.first).drop (d.headerEnd + 1) ∧
      Lines.oldLines (d.bodyLines ls) (d.inBody r) = Lines.oldLines ls r := by
  have hbounds := h.children_bounds hb hr
  have hfirst : d.headerEnd + 1 + (r.first - (d.headerEnd + 1)) = r.first := by omega
  have hcount : r.last - (d.headerEnd + 1) + 1 - (r.first - (d.headerEnd + 1)) = r.last + 1 - r.first := by
    omega
  have hroom : r.last + 1 - r.first ≤ b.stop - (d.headerEnd + 1) - (r.first - (d.headerEnd + 1)) := by omega
  have habove : r.first - (d.headerEnd + 1) ≤ b.stop - (d.headerEnd + 1) := by omega
  rw [bodyLines_eq hb, bodyOf, (h.block b hb).1, Lines.oldLines, Lines.oldLines, inBody]
  constructor
  · rw [List.take_take, List.drop_take, Nat.min_eq_left habove]
  · rw [List.drop_take, List.drop_drop, hfirst, List.take_take, hcount, Nat.min_eq_left hroom]

theorem sorted_takenRanges (h : d.Placed ls.length) (hdisjoint : d.Disjoint) (hb : d.block = some b)
    (removed : Removed) : Lines.Sorted (d.bodyLines ls) ((d.takenRanges removed).map (·, [])) := by
  constructor
  · intro c hc
    obtain ⟨range, hrange, rfl⟩ := List.mem_map.1 hc
    obtain ⟨r, hr, -, rfl⟩ := mem_takenRanges.1 hrange
    have hbounds := h.children_bounds hb hr
    rw [length_bodyLines h hb]
    show r.first - (d.headerEnd + 1) ≤ r.last - (d.headerEnd + 1) ∧
      r.last - (d.headerEnd + 1) < b.stop - (d.headerEnd + 1)
    omega
  · unfold takenRanges
    rw [List.pairwise_map, List.pairwise_map]
    refine (hdisjoint.apart.sublist List.filter_sublist).imp_of_mem fun ha hb' hlt => ?_
    have hbounds := h.children_bounds hb (List.mem_of_mem_filter ha)
    exact Nat.sub_lt_sub_right (by omega) hlt

/-- What stays of a block is its body without the ranges that go, blank lines at the ends aside. -/
theorem staying_eq_replaceRanges (h : d.Placed ls.length) (hb : d.block = some b) {removed : Removed}
    (hremoved : ∀ r ∈ removed, r ∈ d.children) : d.staying ls removed =
      trimBlankEnds (Lines.replaceRanges (d.bodyLines ls) ((d.takenRanges removed).map (·, []))) := by
  have hstart := (h.block b hb).1
  have hstays : d.staying ls removed =
      trimBlankEnds ((b.body.filter (!removed.covers ·)).filterMap (ls[·]?)) := by rw [staying, hb]
  rw [hstays, Lines.replaceRanges_delete, length_bodyLines h hb, Block.body, List.filter_map,
    List.filterMap_map, hstart]
  have hcovers : ∀ i, removed.covers (d.headerEnd + 1 + i) =
      (d.takenRanges removed).any (·.contains i) := by
    intro i
    rw [Bool.eq_iff_iff, Removed.covers, List.any_eq_true, List.any_eq_true]
    constructor
    · rintro ⟨r, hr, hin⟩
      have hbounds := h.children_bounds hb (hremoved r hr)
      refine ⟨_, mem_takenRanges.2 ⟨r, hremoved r hr, hr, rfl⟩, LineRange.contains_iff.2 ?_⟩
      have hin := LineRange.contains_iff.1 hin
      show r.first - (d.headerEnd + 1) ≤ i ∧ i ≤ r.last - (d.headerEnd + 1)
      omega
    · rintro ⟨range, hrange, hin⟩
      obtain ⟨r, hr, hgone, rfl⟩ := mem_takenRanges.1 hrange
      have hbounds := h.children_bounds hb hr
      have hin : r.first - (d.headerEnd + 1) ≤ i ∧ i ≤ r.last - (d.headerEnd + 1) :=
        LineRange.contains_iff.1 hin
      exact ⟨r, hgone, LineRange.contains_iff.2 (by omega)⟩
  have hfilter : ((fun i => !removed.covers i) ∘ fun i => d.headerEnd + 1 + i) =
      fun i => !(d.takenRanges removed).any (·.contains i) := by
    funext i
    exact congrArg (!·) (hcovers i)
  rw [hfilter]
  refine congrArg trimBlankEnds (List.filterMap_congr fun i hi => ?_)
  have hlt := List.mem_range.1 (List.mem_of_mem_filter hi)
  rw [bodyLines_eq hb, bodyOf, hstart, List.getElem?_take_of_lt hlt, List.getElem?_drop]
  rfl

end

/-- No declaration begins inside one that shares no line with it. -/
theorem not_inside_of_apart {keyword : String} {d' : Declaration} (hd : d ∈ declarations ls keyword)
    (hd' : d' ∈ declarations ls keyword)
    (hapart : (declarations ls keyword).Pairwise fun a b => a.range.Apart b.range) :
    ¬(d.start < d'.start ∧ d'.start ≤ d.stop) := by
  rintro ⟨hlt, hle⟩
  have hne : d ≠ d' := fun heq => absurd (congrArg start heq) (Nat.ne_of_lt hlt)
  have : Std.Symm fun a b : Declaration => a.range.Apart b.range := ⟨fun a b h i hi => h i hi.symm⟩
  have hstop := (placed_of_mem_scan (mem_declarations.1 hd')).start_le_stop
  refine hapart.forall hd hd' hne d'.start ⟨LineRange.contains_iff.2 ⟨hlt.le, hle⟩, ?_⟩
  exact LineRange.contains_iff.2 ⟨le_rfl, hstop⟩

/-! ## Statements that stay -/

theorem disjoint_of_locate {keyword : String} {start : Nat}
    (h : locate ls (Outline.ofLines ls) keyword start = .ok d) : d.Disjoint where
  nonempty _ hr := ((placed_of_locate h).2.child_bounds hr).2.1
  apart := children_pairwise_of_locate h

/-- A statement that begins on a line of another one is that one. -/
theorem Disjoint.eq_of_contains (h : d.Disjoint) {a b : LineRange × Statement}
    (ha : a ∈ d.readStatements ls) (hb : b ∈ d.readStatements ls)
    (hin : a.1.contains b.1.first = true) : a = b := by
  have hpairwise : (d.readStatements ls).Pairwise fun a b =>
      a.1.contains b.1.first = false ∧ b.1.contains a.1.first = false := by
    have hbounds : d.children.Pairwise fun a b => a.first ≤ a.last ∧ a.last < b.first ∧ b.first ≤ b.last :=
      h.apart.imp_of_mem fun ha hb hlt => ⟨h.nonempty _ ha, hlt, h.nonempty _ hb⟩
    refine List.Pairwise.filterMap _ (fun r r' hr a ha b hb => ?_) hbounds
    obtain ⟨s, -, rfl⟩ := Option.map_eq_some_iff.1 ha
    obtain ⟨s', -, rfl⟩ := Option.map_eq_some_iff.1 hb
    rw [Bool.eq_false_iff, Bool.eq_false_iff, ne_eq, ne_eq, LineRange.contains_iff, LineRange.contains_iff]
    show ¬(r.first ≤ r'.first ∧ r'.first ≤ r.last) ∧ ¬(r'.first ≤ r.first ∧ r.first ≤ r'.last)
    omega
  by_contra hne
  have : Std.Symm fun a b : LineRange × Statement =>
      a.1.contains b.1.first = false ∧ b.1.contains a.1.first = false := ⟨fun _ _ h => ⟨h.2, h.1⟩⟩
  have hapart := hpairwise.forall ha hb hne
  rw [hapart.1] at hin
  cases hin

/-- Where no statement that goes has one of the words, the first value is that of before. -/
theorem firstValue_stays {words : List String} (h : ∀ entry ∈ d.readStatements ls,
    w.removed.covers entry.1.first = true → entry.2.named words = false) :
    firstValue words (w.stays d ls) = firstValue words (d.statementList ls) := by
  rw [← firstValue_filter, ← firstValue_filter words (d.statementList ls)]
  unfold Rewrite.stays statementList
  rw [List.filter_map, List.filter_map, List.filter_filter]
  congr 2
  refine List.filter_congr fun entry hentry => ?_
  cases hcovers : w.removed.covers entry.1.first with
  | false => simp
  | true => simp [h entry hentry hcovers]

theorem firstValue_stays_of_removed {words : List String} {entry : LineRange × Statement}
    (hdisjoint : d.Disjoint) (hentry : entry ∈ d.readStatements ls) (hremoved : w.removed = [entry.1])
    (hnamed : entry.2.named words = false) :
    firstValue words (w.stays d ls) = firstValue words (d.statementList ls) := by
  refine firstValue_stays fun other hother hcovers => ?_
  rw [hremoved, Removed.covers, List.any_cons, List.any_nil, Bool.or_false] at hcovers
  rwa [← hdisjoint.eq_of_contains hentry hother hcovers]

theorem stays_of_removed_nil (hremoved : w.removed = []) : w.stays d ls = d.statementList ls := by
  unfold Rewrite.stays statementList
  rw [hremoved]
  exact congrArg _ (List.filter_eq_self.2 fun _ _ => rfl)

theorem mem_of_statement? {words : List String} {entry : LineRange × Statement}
    (h : d.statement? ls words = some entry) :
    entry ∈ d.readStatements ls ∧ entry.2.offers words = true := by
  rw [statement?_eq] at h
  obtain ⟨hoffers, -⟩ := List.find?_eq_some_iff_append.1 h
  exact ⟨List.mem_of_find?_eq_some h, hoffers⟩

/-- A statement with one of some words has none of others. -/
theorem named_eq_false {words words' : List String} {s : Statement} (h : s.offers words = true)
    (hwords : ∀ word ∈ words, ∀ word' ∈ words', word.toList ≠ word'.toList) : s.named words' = false := by
  obtain ⟨word, hword, hk⟩ := Statement.exists_of_offers h
  rw [Bool.eq_false_iff]
  intro hnamed
  obtain ⟨word', hword', hk'⟩ := List.any_eq_true.1 hnamed
  exact hwords word hword word' hword' (hk.symm.trans (beq_iff_eq.1 hk').symm)

/-! ## Flat headers -/

/-- A flat header tells nullability. -/
theorem hasKeyword_flatRewrite? {kind : DeclarationKind} (h : d.flatRewrite? ls kind = some w) :
    w.header.hasKeyword kind.nullabilityKey.toList = true := by
  have hspent : kind.nullabilityKey.toList ∉ spentKeys := by
    cases kind <;> decide
  have hcount := (trades_flatRewrite? h).count_eq hspent
  have hgained : kind.nullabilityKey.toList ∈ d.flatKeys ls kind :=
    List.mem_append_right _ (List.mem_append_left _ (List.mem_append_left _ List.mem_cons_self))
  have hpos := List.count_pos_iff.2 hgained
  exact Signature.hasKeyword_iff.2 (List.count_pos_iff.1 (by omega))

/-- No rule of the same key flattens it again. -/
theorem flattens_flatRewrite? {kind kind' : DeclarationKind} (h : d.flatRewrite? ls kind = some w)
    (hkey : kind'.nullabilityKey = kind.nullabilityKey) (statements : List Statement) :
    flattens kind' w.header statements = false := by
  unfold flattens
  rw [hkey, hasKeyword_flatRewrite? h]
  rfl

/-! ## Renamed properties and moved resolvers -/

/-- A rewritten header has the keyword, the name and the further arguments of the old one, apart from those
of some keys. -/
structure Rewrite.Retains (w : Rewrite) (d : Declaration) (keys : List Text) : Prop where
  keyword : w.header.keyword = d.signature.keyword
  name : w.header.name = d.signature.name
  positional : w.header.positional = d.signature.positional
  keywords : ∀ key ∉ keys, w.header.hasKeyword key = d.signature.hasKeyword key

theorem Signature.hasKeyword_congr {s s' : Signature} {key : Text} (h : key ∈ s.keys ↔ key ∈ s'.keys) :
    s.hasKeyword key = s'.hasKeyword key := by
  rw [Bool.eq_iff_iff, Signature.hasKeyword_iff, Signature.hasKeyword_iff, h]

theorem retains_renameRewrite? (h : d.renameRewrite? ls = some w) :
    w.Retains d ["property".toList, "method".toList] := by
  have hkeywords : ∀ key ∉ ["property".toList, "method".toList],
      w.header.hasKeyword key = d.signature.hasKeyword key := by
    intro key hkey
    rw [List.mem_cons, List.mem_singleton, not_or] at hkey
    refine Signature.hasKeyword_congr ?_
    rcases keys_renameRewrite? h with ⟨hold, hkeys⟩ | ⟨-, hkeys⟩
    · rw [hkeys, (perm_replace hold).mem_iff, List.mem_cons, List.mem_erase_of_ne hkey.1,
        or_iff_right hkey.2]
    · rw [hkeys, List.mem_append, List.mem_singleton, or_iff_left hkey.2]
  rcases renameRewrite?_cases h with ⟨-, rfl⟩ | ⟨-, entry, -, rfl⟩
  · exact ⟨rfl, rfl, rfl, hkeywords⟩
  · exact ⟨rfl, rfl, rfl, hkeywords⟩

theorem retains_moveRewrite? (h : d.moveRewrite? ls = some w) : w.Retains d ["resolve".toList] := by
  obtain ⟨trailer, -, rfl⟩ := Option.map_eq_some_iff.1 h
  split
  · exact ⟨rfl, rfl, rfl, fun _ _ => rfl⟩
  · refine ⟨rfl, rfl, rfl, fun key hkey => Signature.hasKeyword_congr ?_⟩
    rw [Signature.keys_removeKeyword, List.mem_erase_of_ne]
    exact fun heq => hkey (List.mem_singleton.2 heq)

/-- A rule that flattens takes up a header with the same arguments as little as before. -/
theorem Rewrite.Retains.flattens_eq {keys : List Text} {kind : DeclarationKind} (h : w.Retains d keys)
    (hkey : kind.nullabilityKey.toList ∉ keys)
    (hvalue : firstValue ["type"] (w.stays d ls) = firstValue ["type"] (d.statementList ls)) :
    flattens kind w.header (w.stays d ls) = flattens kind d.signature (d.statementList ls) := by
  unfold flattens headerType
  rw [h.keywords _ hkey, h.name, h.positional, hvalue]

theorem flattens_renameRewrite? (hdisjoint : d.Disjoint) (h : d.renameRewrite? ls = some w)
    (kind : DeclarationKind) :
    flattens kind w.header (w.stays d ls) = flattens kind d.signature (d.statementList ls) := by
  refine (retains_renameRewrite? h).flattens_eq (by cases kind <;> decide) ?_
  rcases renameRewrite?_cases h with ⟨-, rfl⟩ | ⟨-, entry, hentry, rfl⟩
  · rw [stays_of_removed_nil rfl]
  · obtain ⟨hmem, hoffers⟩ := mem_of_statement? hentry
    exact firstValue_stays_of_removed hdisjoint hmem rfl (named_eq_false hoffers (by decide))

theorem firstValue_moveRewrite? (words : List String) (hdisjoint : d.Disjoint)
    (h : d.moveRewrite? ls = some w) (hwords : ∀ word ∈ words, "resolve".toList ≠ word.toList) :
    firstValue words (w.stays d ls) = firstValue words (d.statementList ls) := by
  obtain ⟨trailer, -, rfl⟩ := Option.map_eq_some_iff.1 h
  split
  · rename_i r s hentry
    obtain ⟨hmem, hoffers⟩ := mem_of_statement? hentry
    refine firstValue_stays_of_removed hdisjoint hmem rfl (named_eq_false hoffers fun word hword => ?_)
    rw [List.mem_singleton.1 hword]
    exact hwords
  · rw [stays_of_removed_nil rfl]

/-- A renamed property is no longer there to rename. -/
theorem applies_renameRewrite? (hsingle : d.Single ls .propertyToMethod) (h : d.renameRewrite? ls = some w)
    (statements : List Statement) : applies .propertyToMethod w.header statements = false := by
  have hmethod : w.header.hasKeyword "method".toList = true := by
    have hcount := (trades_renameRewrite h).count_eq (by decide : "method".toList ∉ spentKeys)
    rw [List.count_singleton_self] at hcount
    exact Signature.hasKeyword_iff.2 (List.count_pos_iff.1 (by omega))
  have hproperty : w.header.hasKeyword "property".toList = false := by
    rw [Bool.eq_false_iff, ne_eq, Signature.hasKeyword_iff]
    rcases keys_renameRewrite? h with ⟨hthere, hkeys⟩ | ⟨hnone, hkeys⟩
    · have hcount := (perm_replace (b := "method".toList) hthere).count_eq "property".toList
      rw [List.count_cons_of_ne (by decide), List.count_erase_self] at hcount
      have hone := hsingle.property rfl
      rw [hkeys, ← List.count_pos_iff]
      omega
    · rw [hkeys, List.mem_append, not_or]
      exact ⟨hnone, by decide⟩
  unfold applies
  rw [hproperty, hmethod]
  rfl

theorem eq_of_length_le_one {α : Type} {l : List α} (h : l.length ≤ 1) {a b : α} (ha : a ∈ l) (hb : b ∈ l) :
    a = b := by
  obtain ⟨c, hc⟩ : ∃ c, l = [c] := by
    have hpos := List.length_pos_of_mem ha
    exact List.length_eq_one_iff.1 (by omega)
  rw [hc, List.mem_singleton] at ha hb
  exact ha.trans hb.symm

/-- The only resolver of a block is the one that goes. -/
theorem firstValue_resolve_eq_none (hsingle : d.Single ls .resolveProc) (hdisjoint : d.Disjoint)
    {entry : LineRange × Statement} (hentry : entry ∈ d.readStatements ls)
    (hoffers : entry.2.offers ["resolve"] = true) (hremoved : w.removed = [entry.1]) :
    firstValue ["resolve"] (w.stays d ls) = none := by
  have hone : ((d.readStatements ls).filter (Statement.offers ["resolve"] ·.2)).length ≤ 1 := by
    have hresolver := hsingle.resolver rfl
    unfold statementList at hresolver
    rw [List.countP_map, List.countP_eq_length_filter] at hresolver
    exact Nat.le_of_add_right_le hresolver
  rw [firstValue, Option.map_eq_none_iff, List.find?_eq_none]
  intro s hs hs'
  obtain ⟨other, hother, rfl⟩ := List.mem_map.1 hs
  obtain ⟨hmem, hcovers⟩ := List.mem_filter.1 hother
  obtain rfl : entry = other :=
    eq_of_length_le_one hone (List.mem_filter.2 ⟨hentry, hoffers⟩) (List.mem_filter.2 ⟨hmem, hs'⟩)
  have hchild : entry.1 ∈ d.children := by
    obtain ⟨r, hr, hread⟩ := List.mem_filterMap.1 hentry
    obtain ⟨s, -, rfl⟩ := Option.map_eq_some_iff.1 hread
    exact hr
  have hself : entry.1.contains entry.1.first = true :=
    LineRange.contains_iff.2 ⟨Nat.le_refl _, hdisjoint.nonempty _ hchild⟩
  rw [hremoved, Removed.covers, List.any_cons, hself] at hcovers
  cases hcovers

/-- A moved resolver leaves none that could be moved. -/
theorem applies_moveRewrite? (hsingle : d.Single ls .resolveProc) (hdisjoint : d.Disjoint)
    (h : d.moveRewrite? ls = some w) : applies .resolveProc w.header (w.stays d ls) = false := by
  have hnone : (firstValue ["resolve"] (w.stays d ls)).or (w.header.keyword? "resolve".toList) = none := by
    have hresolver := hsingle.resolver rfl
    obtain ⟨trailer, hmethod, rfl⟩ := Option.map_eq_some_iff.1 h
    split
    · rename_i r s hentry
      obtain ⟨hmem, hoffers⟩ := mem_of_statement? hentry
      have hpos : 0 < (d.statementList ls).countP (Statement.offers ["resolve"]) :=
        List.countP_pos_iff.2 ⟨s, List.mem_map_of_mem hmem, hoffers⟩
      have habsent : "resolve".toList ∉ d.signature.keys := List.count_eq_zero.1 (by omega)
      rw [firstValue_resolve_eq_none hsingle hdisjoint hmem hoffers rfl, Option.none_or]
      rw [← Signature.hasKeyword_iff, Signature.hasKeyword, Option.not_isSome_iff_eq_none] at habsent
      exact habsent
    · rename_i hentry
      have hvalue := value_statement? d ls ["resolve"]
      rw [hentry] at hvalue
      rw [stays_of_removed_nil rfl, ← hvalue, Option.map_none, Option.none_or]
      have habsent : "resolve".toList ∉ (d.signature.removeKeyword "resolve".toList).keys := by
        rw [Signature.keys_removeKeyword, ← List.count_eq_zero, List.count_erase_self]
        omega
      rwa [← Signature.hasKeyword_iff, Signature.hasKeyword, Option.not_isSome_iff_eq_none] at habsent
  unfold applies
  rw [hnone]
  simp [methodBelow]

/-! ## All rules -/

/-- The keyword of a declaration that a rule has rewritten. -/
def keywordAfter : Rule → String
  | .argument | .inputField => "argument"
  | _ => "field"

theorem keyword_flatRewrite? {kind : DeclarationKind} (h : d.flatRewrite? ls kind = some w) :
    w.header.keyword = kind.flatKeyword.toList := by
  obtain ⟨name, text, t, -, -, -, rfl⟩ := exists_of_flatRewrite? h
  unfold flatRewrite
  simp only
  split
  · rfl
  · exact keyword_withoutResolver _ _

theorem keyword_header {e : Editor} (he : e ∈ editors) (hkeyword : d.signature.keyword = e.keyword.toList)
    (h : d.rewrite? ls e.rule = some w) : w.header.keyword = (keywordAfter e.rule).toList := by
  rcases editors_cases he with ⟨kind, rfl⟩ | rfl | rfl
  · rw [rewrite?_rule] at h
    rw [keyword_flatRewrite? h]
    cases kind <;> rfl
  · exact (retains_renameRewrite? h).keyword.trans hkeyword
  · exact (retains_moveRewrite? h).keyword.trans hkeyword

/-- The rules that read a header which a rule has written, up to that rule itself. -/
def readersUpTo : Rule → List Rule
  | .field | .connection => [.field]
  | .argument | .inputField => [.argument]
  | .propertyToMethod => [.field, .propertyToMethod]
  | .resolveProc => [.field, .propertyToMethod, .resolveProc]
  | .typeDefinition | .name | .implements | .possibleTypes | .classProc => []

theorem mem_readersUpTo {e q : Editor} (he : e ∈ editors) (hq : q ∈ editors)
    (hsame : q.keyword = keywordAfter e.rule) (hbefore : q.rule = e.rule ∨ q.rule.Precedes e.rule) :
    q.rule ∈ readersUpTo e.rule := by
  rcases editors_cases he with ⟨_ | _ | _ | _, rfl⟩ | rfl | rfl <;>
    rcases editors_cases hq with ⟨_ | _ | _ | _, rfl⟩ | rfl | rfl <;>
      first | decide | exact absurd hsame (by decide) | exact absurd hbefore (by decide)

/-- **A declaration at rest.** What a rule leaves of a declaration is nothing for it to rewrite, nor for a
rule before it that had nothing to rewrite. -/
theorem applies_header {e : Editor} (he : e ∈ editors) {q : Rule} (hq : q ∈ readersUpTo e.rule)
    (hdisjoint : d.Disjoint) (hsingle : d.Single ls q) (h : d.rewrite? ls e.rule = some w)
    (hrest : e.keyword = "field" → q ≠ e.rule → applies q d.signature (d.statementList ls) = false) :
    applies q w.header (w.stays d ls) = false := by
  rcases editors_cases he with ⟨kind, rfl⟩ | rfl | rfl
  · rw [rewrite?_rule] at h
    have hflat : ∀ kind' : DeclarationKind, kind'.nullabilityKey = kind.nullabilityKey →
        flattens kind' w.header (w.stays d ls) = false := fun _ hkey => flattens_flatRewrite? h hkey _
    cases kind <;> obtain rfl := List.mem_singleton.1 hq <;> exact hflat _ rfl
  · simp only [readersUpTo, List.mem_cons, List.not_mem_nil, or_false] at hq
    rcases hq with rfl | rfl
    · exact (flattens_renameRewrite? hdisjoint h .field).trans (hrest rfl (by decide))
    · exact applies_renameRewrite? hsingle h _
  · have hretains := retains_moveRewrite? h
    simp only [readersUpTo, List.mem_cons, List.not_mem_nil, or_false] at hq
    rcases hq with rfl | rfl | rfl
    · have hvalue := firstValue_moveRewrite? ["type"] hdisjoint h (by decide)
      exact (hretains.flattens_eq (by decide) hvalue).trans (hrest rfl (by decide))
    · have hvalue := firstValue_moveRewrite? methodWords hdisjoint h (by decide)
      rw [← hrest rfl (by decide)]
      unfold applies
      rw [hretains.keywords _ (by decide), hretains.keywords _ (by decide), hvalue]
    · exact applies_moveRewrite? hsingle hdisjoint h

end

end Declaration

end SchemaLift
