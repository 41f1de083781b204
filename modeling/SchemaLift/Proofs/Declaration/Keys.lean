import SchemaLift.Proofs.Declaration.Pulled
import SchemaLift.Proofs.Declaration.Rewrite

/-!
# The keys of a rewritten header

A rule adds keyword arguments to a header: settings of the block, nullability, a method, a connection
mark. It does not ask whether the header has them, except that a statement which names the method
gives way to an argument `method:` when properties are renamed. All that a rule takes away is a
resolver or a property (`trades_rewrite`). So keys that are different stay different, through one rule
after the other, exactly if none of the rules adds a key that is there (`rewritten_keys_nodup_iff`).
-/

namespace SchemaLift.Declaration

open scoped List

section

variable (d : Declaration) (ls : List Line)

/-! ## Gains -/

/-- The keys of the settings in the block. -/
def settingKeys (kind : DeclarationKind) : List Text :=
  ((d.readStatements ls).filter (Statement.offers kind.settingWords ·.2)).map (·.2.keyword)

/-- The keys that flattening adds: those of the settings, and then its own. -/
def flatKeys (kind : DeclarationKind) : List Text :=
  d.settingKeys ls kind ++ ([kind.nullabilityKey.toList] ++
    (if kind.isField && (d.readStatements ls).any (Statement.offers methodWords ·.2) then
      ["method".toList] else []) ++
    (if kind = .connection then ["connection".toList] else []))

/-- The keys that a rule adds to a header that it changes. -/
def addedKeys : Rule → List Text
  | .field => d.flatKeys ls .field
  | .argument => d.flatKeys ls .argument
  | .inputField => d.flatKeys ls .inputField
  | .connection => d.flatKeys ls .connection
  | .propertyToMethod => ["method".toList]
  | _ => []

/-- The keys that a rule adds to the header of a declaration. -/
def gainedKeys (rule : Rule) : List Text :=
  if (d.rewrite? ls rule).isSome then d.addedKeys ls rule else []

/-- The keys of the header that a rule leaves. -/
def keysAfter (rule : Rule) : List Text :=
  ((d.rewrite? ls rule).map Rewrite.header |>.getD d.signature).keys

end

/-- The keys that a rule may take away. -/
def spentKeys : List Text := ["resolve".toList, "property".toList]

/-- A header gets some keys and loses at most a resolver and a property. -/
def Trades (keys gained keys' : List Text) : Prop :=
  ∃ lost : List Text, (∀ key ∈ lost, key ∈ spentKeys) ∧ (keys' ++ lost).Perm (keys ++ gained)

namespace Trades

variable {keys gained keys' : List Text}

theorem append (keys gained : List Text) : Trades keys gained (keys ++ gained) :=
  ⟨[], by simp, by rw [List.append_nil]⟩

theorem erase {key : Text} (hkey : key ∈ spentKeys) (h : Trades keys gained keys') :
    Trades keys gained (keys'.erase key) := by
  obtain ⟨lost, hlost, hperm⟩ := h
  by_cases hmem : key ∈ keys'
  · refine ⟨key :: lost, List.forall_mem_cons.2 ⟨hkey, hlost⟩, ?_⟩
    exact (List.perm_middle.trans ((List.perm_cons_erase hmem).symm.append_right lost)).trans hperm
  · rw [List.erase_of_not_mem hmem]
    exact ⟨lost, hlost, hperm⟩

/-- A key that is kept stands as often as before, and once more for each gain. -/
theorem count_eq (h : Trades keys gained keys') {key : Text} (hkey : key ∉ spentKeys) :
    keys'.count key = keys.count key + gained.count key := by
  obtain ⟨lost, hlost, hperm⟩ := h
  have hnone : lost.count key = 0 := List.count_eq_zero.2 fun hmem => hkey (hlost key hmem)
  have hcount := hperm.count_eq key
  rw [List.count_append, List.count_append, hnone, Nat.add_zero] at hcount
  exact hcount

/-- Different keys stay different exactly if no gain was there. -/
theorem nodup_iff (h : Trades keys gained keys') (hkeys : keys.Nodup) (hgained : gained.Nodup)
    (hspent : ∀ key ∈ gained, key ∉ spentKeys) : keys'.Nodup ↔ ∀ key ∈ gained, key ∉ keys := by
  constructor
  · intro hnodup key hkey hmem
    have hcount := h.count_eq (hspent key hkey)
    have := List.nodup_iff_count_le_one.1 hnodup key
    have := List.count_pos_iff.2 hkey
    have := List.count_pos_iff.2 hmem
    omega
  · intro hfresh
    obtain ⟨lost, -, hperm⟩ := h
    have hall : (keys ++ gained).Nodup := by
      rw [List.nodup_append]
      refine ⟨hkeys, hgained, ?_⟩
      rintro key hmem key' hkey rfl
      exact hfresh key hkey hmem
    exact (List.nodup_append.1 (hperm.nodup_iff.2 hall)).1

end Trades

/-! ## What the statements of a block give -/

namespace Pulled

variable {kind : DeclarationKind} {typed described : Bool} {p : Pulled} {r : LineRange}
  {s : Statement}

/-- The words with a meaning of their own are no settings. -/
theorem not_setting {word : String}
    (hword : word ∈ ["type", "description", "property", "method", "resolve"])
    (hk : s.keyword = word.toList) : Statement.offers kind.settingWords s = false := by
  rw [Statement.offers, hk, Bool.and_eq_false_iff]
  refine .inr ?_
  simp only [List.mem_cons, List.not_mem_nil, or_false] at hword
  rcases hword with rfl | rfl | rfl | rfl | rfl <;> cases kind <;> decide

theorem not_method {word : String} (hword : word ∈ ["type", "description"])
    (hk : s.keyword = word.toList) : Statement.offers methodWords s = false := by
  rw [Statement.offers, hk, Bool.and_eq_false_iff]
  refine .inr ?_
  simp only [List.mem_cons, List.not_mem_nil, or_false] at hword
  rcases hword with rfl | rfl <;> decide

theorem add_settings : (p.add kind typed described r s).settings = p.settings ++
    if Statement.offers kind.settingWords s then [.labelled s.keyword s.value] else [] := by
  have hnone : ∀ {word : String}, s.keyword = word.toList →
      word ∈ ["type", "description", "property", "method", "resolve"] →
      p.settings = p.settings ++
        if Statement.offers kind.settingWords s then
          [KeywordArgument.labelled s.keyword s.value] else [] := by
    intro word hk hword
    rw [not_setting hword hk, if_neg Bool.false_ne_true, List.append_nil]
  have hadds := adds_add kind typed described p r s
  generalize p.add kind typed described r s = q at hadds ⊢
  cases hadds with
  | kept hsetting => rw [hsetting, if_neg Bool.false_ne_true, List.append_nil]
  | type _ hk => exact hnone hk (by simp)
  | description _ hk => exact hnone hk (by simp)
  | method hk =>
    obtain ⟨word, hword, hk⟩ := Statement.exists_of_offers hk
    refine hnone hk ?_
    simp only [methodWords, List.mem_cons, List.not_mem_nil, or_false] at hword
    rcases hword with rfl | rfl <;> simp
  | resolver hk => exact hnone hk (by simp)
  | setting hk => rw [if_pos hk]; rfl

theorem add_method : (p.add kind typed described r s).method.isSome =
    (p.method.isSome || (kind.isField && Statement.offers methodWords s)) := by
  have hnone : ∀ {word : String}, s.keyword = word.toList → word ∈ ["type", "description"] →
      p.method.isSome = (p.method.isSome || (kind.isField && Statement.offers methodWords s)) := by
    intro word hk hword
    rw [not_method hword hk, Bool.and_false, Bool.or_false]
  have hsame : ((kind.isField && Statement.offers methodWords s) = true → p.method.isSome = true) →
      p.method.isSome = (p.method.isSome || (kind.isField && Statement.offers methodWords s)) := by
    intro hmethod
    rw [Bool.eq_iff_iff, Bool.or_eq_true]
    exact ⟨.inl, fun h => h.elim id hmethod⟩
  have hadds := adds_add kind typed described p r s
  generalize p.add kind typed described r s = q at hadds ⊢
  cases hadds with
  | kept _ hmethod => exact hsame hmethod
  | type _ hk => exact hnone hk (by simp)
  | description _ hk => exact hnone hk (by simp)
  | method hk hfield => rw [hk, hfield, Bool.and_true, Bool.or_true]; rfl
  | resolver _ hmethod => exact hsame hmethod
  | setting _ hmethod => exact hsame hmethod

theorem foldl_settings (entries : List (LineRange × Statement)) (p : Pulled) :
    (entries.foldl (fun p entry => p.add kind typed described entry.1 entry.2) p).settings =
      p.settings ++ (entries.filter (Statement.offers kind.settingWords ·.2)).map
        fun entry => .labelled entry.2.keyword entry.2.value := by
  induction entries generalizing p with
  | nil => exact (List.append_nil _).symm
  | cons entry rest ih =>
    rw [List.foldl_cons, ih, add_settings, List.filter_cons, List.append_assoc]
    split <;> rfl

theorem foldl_method (entries : List (LineRange × Statement)) (p : Pulled) :
    (entries.foldl (fun p entry => p.add kind typed described entry.1 entry.2) p).method.isSome =
      (p.method.isSome || (kind.isField && entries.any (Statement.offers methodWords ·.2))) := by
  induction entries generalizing p with
  | nil => rw [List.any_nil, Bool.and_false, Bool.or_false]; rfl
  | cons entry rest ih =>
    rw [List.foldl_cons, ih, add_method, List.any_cons, Bool.and_or_distrib_left, Bool.or_assoc]

end Pulled

section

variable {d : Declaration} {ls : List Line} {kind : DeclarationKind}

theorem pulled_settings : (d.pulled ls kind).settings.map KeywordArgument.key =
    d.settingKeys ls kind := by
  unfold pulled Pulled.ofStatements settingKeys
  rw [Pulled.foldl_settings, Pulled.nothing, List.nil_append, List.map_map]
  rfl

theorem pulled_method : (d.pulled ls kind).method.isSome =
    (kind.isField && (d.readStatements ls).any (Statement.offers methodWords ·.2)) := by
  unfold pulled Pulled.ofStatements
  rw [Pulled.foldl_method, Pulled.nothing, Option.isSome_none, Bool.false_or]

/-! ## What each rule makes of the keys -/

theorem keys_flatSignature (name : Text) (t : TypeExpression) :
    (flatSignature kind d.signature name (d.pulled ls kind) t).keys =
      d.signature.keys ++ d.flatKeys ls kind := by
  have hmethod : ((d.pulled ls kind).method.map (KeywordArgument.labelled "method".toList)).toList.map
      KeywordArgument.key = if (d.pulled ls kind).method.isSome then ["method".toList] else [] := by
    cases (d.pulled ls kind).method <;> rfl
  have hconnection : (if kind = .connection then
      [KeywordArgument.labelled "connection".toList "true".toList] else []).map KeywordArgument.key =
        if kind = .connection then ["connection".toList] else [] := by
    split <;> rfl
  unfold Signature.keys flatSignature flatKeywords flatKeys
  simp only [List.map_append, pulled_settings, hmethod, hconnection, pulled_method,
    List.append_assoc]
  rfl

theorem trades_flatRewrite (name : Text) (t : TypeExpression) :
    Trades d.signature.keys (d.flatKeys ls kind) (d.flatRewrite ls kind name t).header.keys := by
  have hflat : Trades d.signature.keys (d.flatKeys ls kind)
      (flatSignature kind d.signature name (d.pulled ls kind) t).keys := by
    rw [keys_flatSignature]
    exact .append _ _
  unfold flatRewrite
  simp only
  split
  · exact hflat
  unfold withoutResolver
  split
  · exact hflat
  · rw [Signature.keys_removeKeyword]
    exact hflat.erase (by simp [spentKeys])

theorem keys_renameRewrite? {r : Rewrite} (h : d.renameRewrite? ls = some r) :
    ("property".toList ∈ d.signature.keys ∧
      r.header.keys = d.signature.keys.replace "property".toList "method".toList) ∨
    ("property".toList ∉ d.signature.keys ∧ r.header.keys = d.signature.keys ++ ["method".toList]) := by
  rcases renameRewrite?_cases h with ⟨hproperty, rfl⟩ | ⟨hproperty, entry, -, rfl⟩
  · exact .inl ⟨Signature.hasKeyword_iff.1 hproperty, Signature.keys_renameKeyword _ _ _⟩
  · have hnone : "property".toList ∉ d.signature.keys :=
      mt Signature.hasKeyword_iff.2 (Bool.eq_false_iff.1 hproperty)
    refine .inr ⟨hnone, (Signature.keys_pushKeyword _ _ entry.2.value).trans ?_⟩
    rw [Signature.keys_renameKeyword, List.replace_of_not_mem hnone]

theorem trades_renameRewrite {r : Rewrite} (h : d.renameRewrite? ls = some r) :
    Trades d.signature.keys ["method".toList] r.header.keys := by
  rcases keys_renameRewrite? h with ⟨hmem, hkeys⟩ | ⟨-, hkeys⟩
  · rw [hkeys]
    refine ⟨["property".toList], by simp [spentKeys], ?_⟩
    calc d.signature.keys.replace "property".toList "method".toList ++ ["property".toList]
      _ ~ "method".toList :: d.signature.keys.erase "property".toList ++ ["property".toList] :=
        (perm_replace hmem).append_right _
      _ ~ "property".toList :: "method".toList :: d.signature.keys.erase "property".toList :=
        List.perm_append_singleton _ _
      _ ~ "method".toList :: "property".toList :: d.signature.keys.erase "property".toList :=
        .swap _ _ _
      _ ~ "method".toList :: d.signature.keys := (List.perm_cons_erase hmem).symm.cons _
      _ ~ d.signature.keys ++ ["method".toList] := (List.perm_append_singleton _ _).symm
  · rw [hkeys]
    exact Trades.append d.signature.keys ["method".toList]

theorem trades_moveRewrite {r : Rewrite} (h : d.moveRewrite? ls = some r) :
    Trades d.signature.keys [] r.header.keys := by
  have hkeep : Trades d.signature.keys [] d.signature.keys :=
    ⟨[], by simp, by rw [List.append_nil]⟩
  obtain ⟨trailer, -, rfl⟩ := Option.map_eq_some_iff.1 h
  split
  · exact hkeep
  · rw [Signature.keys_removeKeyword]
    exact hkeep.erase (by simp [spentKeys])

theorem trades_flatRewrite? {r : Rewrite} (h : d.flatRewrite? ls kind = some r) :
    Trades d.signature.keys (d.flatKeys ls kind) r.header.keys := by
  obtain ⟨name, text, t, -, -, -, rfl⟩ := exists_of_flatRewrite? h
  exact trades_flatRewrite name t

/-- A rule adds its gains to a header and takes away at most a resolver and a property. -/
theorem trades_rewrite (d : Declaration) (ls : List Line) (rule : Rule) :
    Trades d.signature.keys (d.gainedKeys ls rule) (d.keysAfter ls rule) := by
  unfold gainedKeys keysAfter
  cases hr : d.rewrite? ls rule with
  | none => exact ⟨[], by simp, by simp⟩
  | some r =>
    cases rule with
    | field | argument | inputField | connection => exact trades_flatRewrite? hr
    | propertyToMethod => exact trades_renameRewrite hr
    | resolveProc => exact trades_moveRewrite hr
    | typeDefinition | name | implements | possibleTypes | classProc => cases hr

/-! ## Gains are different keys -/

theorem mem_settingWords {key : Text} (h : key ∈ d.settingKeys ls kind) :
    ∃ word ∈ kind.settingWords, key = word.toList := by
  obtain ⟨entry, hentry, rfl⟩ := List.mem_map.1 h
  have hoffers := (List.mem_filter.1 hentry).2
  simp only [Statement.offers, Bool.and_eq_true, List.any_eq_true, beq_iff_eq] at hoffers
  exact hoffers.2

/-- The keys that flattening may add by itself. -/
def markKeys (kind : DeclarationKind) : List Text :=
  [kind.nullabilityKey.toList, "method".toList, "connection".toList]

theorem exists_marks (d : Declaration) (ls : List Line) (kind : DeclarationKind) :
    ∃ marks, d.flatKeys ls kind = d.settingKeys ls kind ++ marks ∧ marks <+ markKeys kind := by
  refine ⟨_, rfl, ?_⟩
  rw [markKeys, List.append_assoc]
  refine .cons_cons _ ?_
  split <;> split <;> simp

theorem nodup_flatKeys (hsingle : ((d.readStatements ls).map (·.2.keyword)).Nodup) :
    (d.flatKeys ls kind).Nodup := by
  have hapart : ∀ word ∈ kind.settingWords, word.toList ∉ markKeys kind := by
    cases kind <;> decide
  have hmarks : (markKeys kind).Nodup := by cases kind <;> decide
  obtain ⟨marks, heq, hsub⟩ := exists_marks d ls kind
  rw [heq, List.nodup_append]
  refine ⟨hsingle.sublist (List.filter_sublist.map _), hmarks.sublist hsub, ?_⟩
  rintro key hkey key' hkey' rfl
  obtain ⟨word, hword, rfl⟩ := mem_settingWords hkey
  exact hapart word hword (hsub.subset hkey')

/-- Flattening adds no key that it or another rule takes away. -/
theorem flatKeys_notMem_spentKeys {key : Text} (h : key ∈ d.flatKeys ls kind) :
    key ∉ spentKeys := by
  have hwords : ∀ word ∈ kind.settingWords, word.toList ∉ spentKeys := by cases kind <;> decide
  have hmarks : ∀ mark ∈ markKeys kind, mark ∉ spentKeys := by cases kind <;> decide
  obtain ⟨marks, heq, hsub⟩ := exists_marks d ls kind
  rw [heq] at h
  rcases List.mem_append.1 h with h | h
  · obtain ⟨word, hword, rfl⟩ := mem_settingWords h
    exact hwords word hword
  · exact hmarks key (hsub.subset h)

theorem addedKeys_notMem_spentKeys {rule : Rule} {key : Text} (h : key ∈ d.addedKeys ls rule) :
    key ∉ spentKeys := by
  cases rule with
  | field | argument | inputField | connection => exact flatKeys_notMem_spentKeys h
  | propertyToMethod =>
    obtain rfl := List.mem_singleton.1 h
    decide
  | resolveProc | typeDefinition | name | implements | possibleTypes | classProc => cases h

theorem nodup_addedKeys (hsingle : ((d.readStatements ls).map (·.2.keyword)).Nodup) (rule : Rule) :
    (d.addedKeys ls rule).Nodup := by
  cases rule with
  | field | argument | inputField | connection => exact nodup_flatKeys hsingle
  | propertyToMethod => exact List.nodup_singleton _
  | resolveProc | typeDefinition | name | implements | possibleTypes | classProc => exact .nil

theorem mem_addedKeys_of_gained {rule : Rule} {key : Text} (h : key ∈ d.gainedKeys ls rule) :
    key ∈ d.addedKeys ls rule := by
  unfold gainedKeys at h
  split at h
  · exact h
  · cases h

/-- One rule keeps the keys of a declaration different exactly if it adds none that is there. -/
theorem keysAfter_nodup_iff (rule : Rule) (hkeys : d.signature.keys.Nodup)
    (hsingle : ((d.readStatements ls).map (·.2.keyword)).Nodup) :
    (d.keysAfter ls rule).Nodup ↔ ∀ key ∈ d.gainedKeys ls rule, key ∉ d.signature.keys := by
  have hnodup : (d.gainedKeys ls rule).Nodup := by
    unfold gainedKeys
    split
    · exact nodup_addedKeys hsingle rule
    · exact .nil
  exact (trades_rewrite d ls rule).nodup_iff hkeys hnodup fun key hkey =>
    addedKeys_notMem_spentKeys (mem_addedKeys_of_gained hkey)

/-- A key that is gained and was there stands twice. -/
theorem two_le_count_keysAfter {rule : Rule} {key : Text} (hgained : key ∈ d.gainedKeys ls rule)
    (hkey : key ∈ d.signature.keys) : 2 ≤ (d.keysAfter ls rule).count key := by
  have hspent := addedKeys_notMem_spentKeys (mem_addedKeys_of_gained hgained)
  have hcount := (trades_rewrite d ls rule).count_eq hspent
  have := List.count_pos_iff.2 hgained
  have := List.count_pos_iff.2 hkey
  omega

end

/-! ## One rule after the other -/

/-- A declaration that a rule finds in a text. -/
structure Stage where
  editor : Editor
  source : Text
  declaration : Declaration

namespace Stage

def gained (st : Stage) : List Text :=
  st.declaration.gainedKeys (Text.lines st.source) st.editor.rule

def keysAfter (st : Stage) : List Text :=
  st.declaration.keysAfter (Text.lines st.source) st.editor.rule

/-- One of the six rules finds the declaration, no line of the text belongs to two, and no keyword
stands before two statements of the block. -/
structure Fits (st : Stage) : Prop where
  editor : st.editor ∈ editors
  found : st.declaration ∈ declarations (Text.lines st.source) st.editor.keyword
  apart : (declarations (Text.lines st.source) st.editor.keyword).Pairwise
    fun a b => a.range.Apart b.range
  single : ((st.declaration.readStatements (Text.lines st.source)).map (·.2.keyword)).Nodup

/-- The first rule and perhaps others make the second text of the first one, and there the header is
read with the keys that the first rule left. -/
structure Leads (ns : Text) (a b : Stage) : Prop where
  run : ∃ rules report, (a.editor.rule :: rules).foldlM (Report.step ns) ⟨a.source, [], []⟩ =
    .ok report ∧ report.output = b.source
  keys : b.declaration.signature.keys = a.keysAfter

/-- In the text that the rule gives, the declarations are replaced by the lines that are made of
them. -/
def Replaces (ns : Text) (st : Stage) : Prop :=
  ∃ (plan : Plan) (skipped : List Skip),
    plan.map Prod.fst = declarations (Text.lines st.source) st.editor.keyword ∧
    (∀ entry ∈ plan, entry.2.replacement =
      (entry.1.rewrite? (Text.lines st.source) st.editor.rule).map
        (·.lines entry.1 (Text.lines st.source))) ∧
    st.editor.rule.apply ns st.source =
      .ok ⟨Text.unlines (Lines.replaceRanges (Text.lines st.source) (replacements plan)),
        plan.countP (alters (Text.lines st.source)), skipped⟩

theorem Fits.replaces {st : Stage} (h : st.Fits) (ns : Text) : st.Replaces ns :=
  Editor.exists_plan h.editor ns st.source h.apart

/-- What stands twice in a header still stands twice after further rules. -/
theorem count_keysAfter_le {ns : Text} {st : Stage} {rest : List Stage}
    (hchain : (st :: rest).IsChain (Leads ns)) {key : Text} (hkey : key ∉ spentKeys) :
    st.keysAfter.count key ≤ ((st :: rest).getLast (List.cons_ne_nil st rest)).keysAfter.count key := by
  induction rest generalizing st with
  | nil => exact Nat.le_refl _
  | cons next rest ih =>
    obtain ⟨hleads, hchain⟩ := List.isChain_cons_cons.1 hchain
    have hcount := (trades_rewrite next.declaration (Text.lines next.source)
      next.editor.rule).count_eq hkey
    rw [hleads.keys] at hcount
    rw [List.getLast_cons (List.cons_ne_nil next rest)]
    refine Nat.le_trans ?_ (ih hchain)
    exact hcount ▸ Nat.le_add_right _ _

end Stage

/-- **When no key is emitted twice.** Follow a declaration through rules, each of which reads the keys
that the one before it has left. If the keys of its header are different at first and no keyword
stands before two statements of its block, they are different in the end exactly if no rule on the way
gains a key that the header has. -/
theorem rewritten_keys_nodup_iff (ns : Text) {first : Stage} {rest : List Stage}
    (hfits : ∀ st ∈ first :: rest, st.Fits) (hchain : (first :: rest).IsChain (Stage.Leads ns))
    (hkeys : first.declaration.signature.keys.Nodup) :
    (∀ st ∈ first :: rest, st.Replaces ns) ∧
      (((first :: rest).getLast (List.cons_ne_nil first rest)).keysAfter.Nodup ↔
        ∀ st ∈ first :: rest, ∀ key ∈ st.gained, key ∉ st.declaration.signature.keys) := by
  refine ⟨fun st hst => (hfits st hst).replaces ns, ?_⟩
  have hone : ∀ {st : Stage}, st.Fits → st.declaration.signature.keys.Nodup →
      (st.keysAfter.Nodup ↔ ∀ key ∈ st.gained, key ∉ st.declaration.signature.keys) :=
    fun hst hnodup => keysAfter_nodup_iff _ hnodup hst.single
  induction rest generalizing first with
  | nil =>
    rw [List.getLast_singleton, List.forall_mem_singleton]
    exact hone (hfits first List.mem_cons_self) hkeys
  | cons next rest ih =>
    have hfirst := hone (hfits first List.mem_cons_self) hkeys
    obtain ⟨hleads, hchain'⟩ := List.isChain_cons_cons.1 hchain
    have hrest := ih (fun st hst => hfits st (List.mem_cons_of_mem first hst)) hchain'
    rw [hleads.keys] at hrest
    rw [List.getLast_cons (List.cons_ne_nil next rest), List.forall_mem_cons]
    constructor
    · intro hnodup
      -- a key that the first rule doubles stays doubled, for no rule takes such keys away
      have hfresh : ∀ key ∈ first.gained, key ∉ first.declaration.signature.keys := by
        intro key hgained hkey
        have htwice := two_le_count_keysAfter hgained hkey
        have hle := Stage.count_keysAfter_le hchain
          (addedKeys_notMem_spentKeys (mem_addedKeys_of_gained hgained))
        rw [List.getLast_cons (List.cons_ne_nil next rest)] at hle
        have hone := List.nodup_iff_count_le_one.1 hnodup key
        exact absurd (Nat.le_trans htwice (Nat.le_trans hle hone)) (by decide)
      exact ⟨hfresh, (hrest (hfirst.2 hfresh)).1 hnodup⟩
    · rintro ⟨hfresh, hlater⟩
      exact (hrest (hfirst.2 hfresh)).2 hlater

/-- A field with a property in its header and a setting in its block. -/
def settingField : Stage where
  editor := ⟨.field, "field", flatten .field⟩
  source := "field :a, types.Int, property: :b do\n  deprecation_reason \"c\"\nend".toList
  declaration := ⟨0, 0, some ⟨0, 2⟩, [⟨1, 1⟩],
    ⟨[], "field".toList, some ":a".toList, ["types.Int".toList],
      [.labelled "property".toList ":b".toList], false, some "do".toList, []⟩⟩

/-- The same field when its property is about to be renamed. -/
def flatSettingField : Stage where
  editor := ⟨.propertyToMethod, "field", renameProperty⟩
  source := "field :a, Integer, property: :b, deprecation_reason: \"c\", null: true".toList
  declaration := ⟨0, 0, none, [],
    ⟨[], "field".toList, some ":a".toList, ["Integer".toList],
      [.labelled "property".toList ":b".toList, .labelled "deprecation_reason".toList "\"c\"".toList,
        .labelled "null".toList "true".toList], false, none, []⟩⟩

theorem rewritten_keys_nodup_setting :
    (∀ st ∈ [settingField, flatSettingField], st.Fits) ∧
      [settingField, flatSettingField].IsChain (Stage.Leads []) ∧
      settingField.declaration.signature.keys.Nodup ∧
      (∀ st ∈ [settingField, flatSettingField], st.Replaces []) ∧
      (flatSettingField.keysAfter.Nodup ↔ ∀ st ∈ [settingField, flatSettingField],
        ∀ key ∈ st.gained, key ∉ st.declaration.signature.keys) := by
  have hfits : ∀ st ∈ [settingField, flatSettingField], st.Fits := by
    refine List.forall_mem_cons.2 ⟨?_, List.forall_mem_singleton.2 ?_⟩
    · exact ⟨List.mem_cons_self, by decide +kernel, by decide +kernel, by decide +kernel⟩
    · exact ⟨by simp [editors, flatSettingField], by decide +kernel, by decide +kernel,
        by decide +kernel⟩
  have hrun : ([.field, .argument, .inputField, .connection] : List Rule).foldlM (Report.step [])
      ⟨settingField.source, [], []⟩ = .ok ⟨flatSettingField.source, [(.field, 1)], []⟩ := by
    decide +kernel
  have hleads : settingField.Leads [] flatSettingField := ⟨⟨_, _, hrun, rfl⟩, by decide +kernel⟩
  have hchain : [settingField, flatSettingField].IsChain (Stage.Leads []) :=
    .cons_cons hleads (.singleton flatSettingField)
  have hkeys : settingField.declaration.signature.keys.Nodup := by decide +kernel
  exact ⟨hfits, hchain, hkeys, rewritten_keys_nodup_iff [] hfits hchain hkeys⟩

/-- A field that names its method in the header and in the block. -/
def methodTwice : Text := "field :a, types.Int, method: :b do\n  method :c\nend".toList

/-- Flattening gives such a field two arguments `method:`. -/
theorem rewritten_keys_twice :
    ((declarations (Text.lines methodTwice) "field").Pairwise fun a b => a.range.Apart b.range) ∧
      (∀ d ∈ declarations (Text.lines methodTwice) "field", d.signature.keys.Nodup ∧
        ((d.readStatements (Text.lines methodTwice)).map (·.2.keyword)).Nodup) ∧
      ∃ out, Rule.field.apply [] methodTwice = .ok out ∧
        out.text = "field :a, Integer, method: :b, null: true, method: :c".toList ∧
        ∃ d ∈ declarations (Text.lines out.text) "field", ¬ d.signature.keys.Nodup := by
  have hout : Rule.field.apply [] methodTwice =
      .ok ⟨"field :a, Integer, method: :b, null: true, method: :c".toList, 1, []⟩ := by
    decide +kernel
  exact ⟨by decide +kernel, by decide +kernel, _, hout, rfl, by decide +kernel⟩

end SchemaLift.Declaration
