import SchemaLift.Proofs.Definition.Header
import SchemaLift.Proofs.Definition.NameStatement
import SchemaLift.Proofs.Definition.Scan
import SchemaLift.Proofs.Upgrade.Pipeline

/-!
# What a rule reports as skipped

A record of a skipped construct names the rule and a line of the text that the rule was given, with
what stands on that line; the records of one application go down the text (`Rule.skipped_truthful`). The
scans for lists and hooks write their records as they pass. Declarations are reported while the text
is edited from the bottom up, but an edit starts below every header above it, so the line that is
reported still stands where it stood (`handleAll_skipped`).
-/

namespace SchemaLift

/-! ## Records -/

/-- A record of `rule` on a text: it tells a line of the text, and what stands there. -/
structure Skip.Truthful (rule : Rule) (ls : List Line) (s : Skip) : Prop where
  rule_eq : s.rule = rule
  positive : 1 ≤ s.line
  within : s.line ≤ ls.length
  snippet : ls[s.line - 1]?.map Text.trim = some s.snippet

theorem Skip.truthful_atLine (rule : Rule) {ls : List Line} {index : Nat} {line : Line}
    (hline : ls[index]? = some line) (reason : SkipReason) :
    (Skip.atLine rule index line reason).Truthful rule ls where
  rule_eq := rfl
  positive := Nat.le_add_left 1 index
  within := (List.getElem?_eq_some_iff.1 hline).1
  snippet := by
    show ls[index]?.map Text.trim = some (Text.trim line)
    rw [hline, Option.map_some]

/-- Records of `rule` on a text that go down the text, from the line at `top` on. -/
structure Records (rule : Rule) (ls : List Line) (top : Nat) (skips : List Skip) : Prop where
  truthful : ∀ s ∈ skips, s.Truthful rule ls
  below : ∀ s ∈ skips, top < s.line
  sorted : skips.Pairwise fun a b => a.line < b.line

namespace Records

variable {rule : Rule} {ls : List Line} {top : Nat} {skips : List Skip}

theorem nil (rule : Rule) (ls : List Line) (top : Nat) : Records rule ls top [] :=
  ⟨by simp, by simp, .nil⟩

theorem mono {top' : Nat} (h : Records rule ls top skips) (hle : top' ≤ top) :
    Records rule ls top' skips :=
  ⟨h.truthful, fun s hs => Nat.lt_of_le_of_lt hle (h.below s hs), h.sorted⟩

/-- One more record, of a line above the others. -/
theorem cons {index : Nat} {line : Line} (h : Records rule ls (index + 1) skips)
    (hline : ls[index]? = some line) (reason : SkipReason) :
    Records rule ls index (Skip.atLine rule index line reason :: skips) where
  truthful := List.forall_mem_cons.2 ⟨Skip.truthful_atLine rule hline reason, h.truthful⟩
  below := List.forall_mem_cons.2 ⟨Nat.lt_succ_self index, (h.mono (Nat.le_succ index)).below⟩
  sorted := .cons h.below h.sorted

end Records

/-! ## Rules that scan the text they are given -/

section

variable {rule : Rule} {keyword : String} {ls : List Line}

/-- The record that a scan for lists makes, if any. -/
def TypeList.Found.skip? : TypeList.Found → Option Skip
  | .list _ => none
  | .unterminated skip => some skip

theorem TypeList.scanFrom_skipped {outline : Outline} {taken index : Nat} {rest : List Line}
    (hrest : ls.drop index = rest) :
    Records rule ls index
      ((scanFrom rule keyword ls outline taken index rest).filterMap Found.skip?) := by
  induction rest generalizing taken index with
  | nil => exact .nil rule ls index
  | cons line rest ih =>
    have hline := getElem?_of_drop_eq_cons hrest
    have hnext := drop_succ_of_drop_eq_cons hrest
    have hfurther : ∀ n, Records rule ls index
        ((scanFrom rule keyword ls outline n (index + 1) rest).filterMap Found.skip?) :=
      fun n => (ih hnext).mono (Nat.le_succ index)
    cases taken with
    | succ taken => exact hfurther taken
    | zero =>
      rw [scanFrom]
      split
      · split
        · exact (ih hnext).cons hline _
        · simp only
          split <;> exact hfurther _
      · exact hfurther 0

theorem TypeList.skipped_records {wanted : TypeList → Bool} {newLines : TypeList → List Line}
    {source : Text} {out : Outcome} (h : upgradeAll rule keyword wanted newLines source = .ok out) :
    Records rule (Text.lines source) 0 out.skipped := by
  rw [upgradeAll_eq] at h
  obtain ⟨edited, -, rfl⟩ := map_eq_ok_iff.1 h
  exact scanFrom_skipped rfl

/-- The record that a scan for hooks makes, if any. -/
def Hook.Found.skip? : Hook.Found → Option Skip
  | .method _ _ => none
  | .skipped skip => some skip

theorem Hook.scanFrom_skipped {outline : Outline} {taken index : Nat} {rest : List Line}
    (hrest : ls.drop index = rest) :
    Records .classProc ls index
      ((scanFrom ls outline taken index rest).filterMap Found.skip?) := by
  induction rest generalizing taken index with
  | nil => exact .nil .classProc ls index
  | cons line rest ih =>
    have hline := getElem?_of_drop_eq_cons hrest
    have hnext := drop_succ_of_drop_eq_cons hrest
    have hfurther : ∀ n, Records .classProc ls index
        ((scanFrom ls outline n (index + 1) rest).filterMap Found.skip?) :=
      fun n => (ih hnext).mono (Nat.le_succ index)
    cases taken with
    | succ taken => exact hfurther taken
    | zero =>
      rw [scanFrom]
      split
      · exact hfurther 0
      split
      · exact (ih hnext).cons hline _
      split
      · exact hfurther _
      · exact (ih hnext).cons hline _

theorem Hook.skipped_records {source : Text} {out : Outcome} (h : upgradeAll source = .ok out) :
    Records .classProc (Text.lines source) 0 out.skipped := by
  rw [upgradeAll_eq] at h
  obtain ⟨edited, -, rfl⟩ := map_eq_ok_iff.1 h
  exact scanFrom_skipped rfl

theorem DefinitionHeader.zipIdx_skipped (ns : Text) (outline : Outline) {index : Nat}
    {rest : List Line} (hrest : ls.drop index = rest) :
    Records .typeDefinition ls index ((rest.zipIdx index).filterMap fun e =>
      (upgradeLine ns outline e.2 e.1).skip?) := by
  induction rest generalizing index with
  | nil => exact .nil .typeDefinition ls index
  | cons line rest ih =>
    have hline := getElem?_of_drop_eq_cons hrest
    have hfurther := ih (drop_succ_of_drop_eq_cons hrest)
    rw [List.zipIdx_cons, List.filterMap_cons]
    cases hskip : (upgradeLine ns outline index line).skip? with
    | none =>
      simp only
      exact hfurther.mono (Nat.le_succ index)
    | some skip =>
      simp only [eq_atLine_of_skip? hskip]
      exact hfurther.cons hline _

theorem DefinitionHeader.skipped_records (ns source : Text) :
    Records .typeDefinition (Text.lines source) 0 (upgradeAll ns source).skipped := by
  rw [skipped_eq]
  exact zipIdx_skipped ns _ rfl

/-- Lines that declare a name are never skipped. -/
theorem NameStatement.skipped_eq_nil {source : Text} {out : Outcome}
    (h : upgradeAll source = .ok out) : out.skipped = [] := by
  rw [upgradeAll_eq] at h
  obtain ⟨edited, -, rfl⟩ := map_eq_ok_iff.1 h
  rfl

end

/-! ## Rules that edit declarations -/

namespace Declaration

section

variable {kind : DeclarationKind} {d : Declaration} {ls : List Line} {edit : Edit}

theorem flattenTyped_skipped {name : Text} {pulled : Pulled} {t : TypeExpression}
    (h : flattenTyped kind d ls name pulled t = .ok edit) : edit.skipped.length ≤ 1 := by
  unfold flattenTyped at h
  simp only at h
  split at h
  · obtain ⟨new, -, h⟩ := bind_eq_ok_iff.1 h
    obtain rfl := Except.ok.inj h
    exact Nat.zero_le 1
  obtain ⟨declaresArguments, -, h⟩ := bind_eq_ok_iff.1 h
  split at h
  all_goals
    obtain ⟨new, -, h⟩ := bind_eq_ok_iff.1 h
    obtain rfl := Except.ok.inj h
  · exact Nat.zero_le 1
  · exact Nat.le_refl 1

theorem flatten_skipped (h : flatten kind d ls = .ok edit) : edit.skipped.length ≤ 1 := by
  unfold flatten at h
  simp only at h
  split at h
  · obtain rfl := Except.ok.inj h
    exact Nat.zero_le 1
  split at h
  · obtain rfl := Except.ok.inj h
    exact Nat.zero_le 1
  obtain ⟨statements, -, h⟩ := bind_eq_ok_iff.1 h
  split at h
  · split at h
    all_goals obtain rfl := Except.ok.inj h
    · exact Nat.zero_le 1
    · exact Nat.le_refl 1
  split at h
  · obtain rfl := Except.ok.inj h
    exact Nat.le_refl 1
  · exact flattenTyped_skipped h

theorem renameProperty_skipped (h : renameProperty d ls = .ok edit) : edit.skipped = [] := by
  unfold renameProperty at h
  extract_lets property method renamed signature keepOrReplace at h
  have hkeep : keepOrReplace = .ok edit → edit.skipped = [] := by
    intro hkeep
    simp only [keepOrReplace] at hkeep
    split at hkeep
    · obtain ⟨new, -, rfl⟩ := map_eq_ok_iff.1 hkeep
      rfl
    · obtain rfl := Except.ok.inj hkeep
      rfl
  split at h
  · exact hkeep h
  obtain ⟨statement, -, h⟩ := bind_eq_ok_iff.1 h
  split at h
  · exact hkeep h
  · obtain ⟨new, -, h⟩ := bind_eq_ok_iff.1 h
    obtain rfl := Except.ok.inj h
    rfl

theorem moveResolver_skipped (h : moveResolver d ls = .ok edit) : edit.skipped.length ≤ 1 := by
  unfold moveResolver at h
  obtain ⟨statement, -, h⟩ := bind_eq_ok_iff.1 h
  simp only at h
  split at h
  · obtain rfl := Except.ok.inj h
    exact Nat.zero_le 1
  split at h
  · obtain rfl := Except.ok.inj h
    exact Nat.le_refl 1
  obtain ⟨declaresArguments, -, h⟩ := bind_eq_ok_iff.1 h
  split at h
  · obtain rfl := Except.ok.inj h
    exact Nat.le_refl 1
  split at h
  all_goals
    obtain ⟨new, -, h⟩ := bind_eq_ok_iff.1 h
    obtain rfl := Except.ok.inj h
    exact Nat.zero_le 1

/-- No rule skips a declaration for two reasons. -/
theorem skipped_of_mem_editors {e : Editor} (he : e ∈ editors) (h : e.revise d ls = .ok edit) :
    edit.skipped.length ≤ 1 := by
  rcases editors_cases he with ⟨kind, rfl⟩ | rfl | rfl
  · exact flatten_skipped h
  · exact Nat.le_trans (Nat.le_of_eq (congrArg List.length (renameProperty_skipped h)))
      (Nat.zero_le 1)
  · exact moveResolver_skipped h

end

section

variable {rule : Rule} {revise : Revision} {keyword : String} {ls : List Line}

/-- What one edit reports stands above what was reported below. -/
theorem applyEdit_skipped {p p' : Progress} {d : Declaration} {edit : Edit} {line : Line}
    (hone : edit.skipped.length ≤ 1) (hline : Lines.line p.lines d.start = .ok line)
    (hstart : ls[d.start]? = some line) (hbelow : Records rule ls (d.start + 1) p.skipped)
    (h : applyEdit rule p d edit = .ok p') : Records rule ls d.start p'.skipped := by
  have hskipped : p'.skipped = skippedBy rule d line edit p.skipped := by
    unfold applyEdit at h
    obtain ⟨skips, hskips, h⟩ := bind_eq_ok_iff.1 h
    obtain rfl := Except.ok.inj ((mapM_skips hline _).symm.trans hskips)
    simp only at h
    split at h
    · obtain rfl := Except.ok.inj h
      rfl
    obtain ⟨old, -, h⟩ := bind_eq_ok_iff.1 h
    split at h
    · obtain rfl := Except.ok.inj h
      rfl
    · obtain ⟨out, -, h⟩ := bind_eq_ok_iff.1 h
      obtain rfl := Except.ok.inj h
      rfl
  rw [hskipped, skippedBy]
  match hreasons : edit.skipped, hone with
  | [], _ => exact hbelow.mono (Nat.le_succ d.start)
  | [reason], _ => exact hbelow.cons hstart reason

theorem handle_skipped (hone : ∀ {d ls edit}, revise d ls = .ok edit → edit.skipped.length ≤ 1)
    {p p' : Progress} {f : Found} {line : Line} (hplace : ls[f.place]? = some line)
    (hsame : p.lines[f.place]? = some line) (hbelow : Records rule ls (f.place + 1) p.skipped)
    (h : handle rule revise p f = .ok p') : Records rule ls f.place p'.skipped := by
  have hline : Lines.line p.lines f.place = .ok line := Lines.line_ok_iff.2 hsame
  cases f with
  | failed index reason =>
    obtain ⟨line', hline', h⟩ := bind_eq_ok_iff.1 h
    obtain rfl := Except.ok.inj (hline.symm.trans hline')
    obtain rfl := Except.ok.inj h
    exact hbelow.cons hplace reason
  | declaration d =>
    obtain ⟨edit, hedit, h⟩ := bind_eq_ok_iff.1 h
    exact applyEdit_skipped (hone hedit) hline hplace hbelow h

/-- The records of all declarations. Where one is reported, only lines below its first have changed,
whatever the ranges of the declarations are. -/
theorem handleAll_skipped (hone : ∀ {d ls edit}, revise d ls = .ok edit → edit.skipped.length ≤ 1)
    {found : List Found} (hscan : ∀ f ∈ found, f ∈ scan ls keyword)
    (hsorted : found.Pairwise fun a b => a.place < b.place) {p : Progress}
    (h : handleAll rule revise ls found = .ok p) {top : Nat} (htop : ∀ f ∈ found, top ≤ f.place) :
    Records rule ls top p.skipped := by
  induction found generalizing p top with
  | nil =>
    obtain rfl := Except.ok.inj h
    exact .nil rule ls top
  | cons f rest ih =>
    obtain ⟨hfirst, hsorted⟩ := List.pairwise_cons.1 hsorted
    obtain ⟨q, hq, hf⟩ := handleAll_cons h
    obtain ⟨line, hplace, -⟩ := (genuine_of_mem_scan (hscan f List.mem_cons_self)).1
    have htake : q.lines.take (f.place + 1) = ls.take (f.place + 1) :=
      take_handleAll hq fun d hd => hfirst _ hd
    have hsame : q.lines[f.place]? = some line := by
      rw [← List.getElem?_take_of_lt (Nat.lt_succ_self f.place), htake,
        List.getElem?_take_of_lt (Nat.lt_succ_self f.place), hplace]
    have hbelow : Records rule ls (f.place + 1) q.skipped :=
      ih (fun g hg => hscan g (List.mem_cons_of_mem f hg)) hsorted hq hfirst
    exact (handle_skipped hone hplace hsame hbelow hf).mono (htop f List.mem_cons_self)

theorem scan_sorted (ls : List Line) (keyword : String) :
    (scan ls keyword).Pairwise fun a b => a.place < b.place := by
  refine (scan_pairwise ls keyword).imp_of_mem ?_
  intro a b ha _ hlt
  cases a with
  | declaration d => exact Nat.lt_of_le_of_lt (placed_of_mem_scan ha).start_le hlt
  | failed index reason => exact hlt

theorem skipped_records {e : Editor} (he : e ∈ editors) {source : Text} {out : Outcome}
    (h : upgradeAll e.rule e.keyword e.revise source = .ok out) :
    Records e.rule (Text.lines source) 0 out.skipped := by
  obtain ⟨p, hp, h⟩ := bind_eq_ok_iff.1 h
  obtain rfl := Except.ok.inj h
  exact handleAll_skipped (skipped_of_mem_editors he) (fun _ hf => hf) (scan_sorted _ _) hp
    fun f _ => Nat.zero_le f.place

end

end Declaration

/-! ## Every rule -/

/-- **Records are truthful and in order.** Each record of an application carries the rule, a line
number within the text that the rule was given, and that line without the white space around it; the
line numbers of the records increase strictly. -/
theorem Rule.skipped_truthful (rule : Rule) {ns source : Text} {out : Outcome}
    (h : rule.apply ns source = .ok out) :
    (∀ s ∈ out.skipped, s.rule = rule ∧ 1 ≤ s.line ∧ s.line ≤ (Text.lines source).length ∧
      (Text.lines source)[s.line - 1]?.map Text.trim = some s.snippet) ∧
    out.skipped.Pairwise fun a b => a.line < b.line := by
  have hrecords : Records rule (Text.lines source) 0 out.skipped := by
    rcases rule.cases with ⟨e, he, rfl⟩ | rfl | rfl | rfl | rfl | rfl
    · rw [Declaration.apply_of_mem_editors he] at h
      exact Declaration.skipped_records he h
    · obtain rfl := Except.ok.inj h
      exact DefinitionHeader.skipped_records ns source
    · rw [NameStatement.skipped_eq_nil h]
      exact .nil .name _ 0
    · exact TypeList.skipped_records h
    · exact TypeList.skipped_records h
    · exact Hook.skipped_records h
  refine ⟨fun s hs => ?_, hrecords.sorted⟩
  obtain ⟨hrule, hpos, hle, hsnippet⟩ := hrecords.truthful s hs
  exact ⟨hrule, hpos, hle, hsnippet⟩

/-- Fields of unknown types, one in the block of the other below a field that gets longer, and a
field whose brackets stay open. -/
def skippedFields : Text :=
  Text.unlines (["field :a do", "  type foo", "  field :b, types.Int, resolve: ->(o, a, c) { o.x }",
    "  field :c, bar", "end", "  field :d, (", "end"].map String.toList)

/-- What the rule makes of them: the line of `field :c` has moved down, its record has not. -/
def skippedFieldsOutcome : Outcome where
  text := Text.unlines (["field :a do", "  type foo", "  field :b, Integer, null: true", "",
    "  def b", "    object.x", "  end", "", "  field :c, bar", "end", "  field :d, (", "end"].map
      String.toList)
  changes := 1
  skipped := [⟨.field, 1, "field :a do".toList, .unrecognizedType "foo".toList⟩,
    ⟨.field, 4, "field :c, bar".toList, .unrecognizedType "bar".toList⟩,
    ⟨.field, 6, "field :d, (".toList, .unterminatedStatement "field".toList⟩]

theorem Rule.skipped_truthful_fields :
    Rule.field.apply [] skippedFields = .ok skippedFieldsOutcome ∧
      (∀ s ∈ skippedFieldsOutcome.skipped, s.rule = .field ∧ 1 ≤ s.line ∧
        s.line ≤ (Text.lines skippedFields).length ∧
        (Text.lines skippedFields)[s.line - 1]?.map Text.trim = some s.snippet) ∧
      skippedFieldsOutcome.skipped.Pairwise fun a b => a.line < b.line :=
  have h : Rule.field.apply [] skippedFields = .ok skippedFieldsOutcome := by decide +kernel
  ⟨h, Rule.skipped_truthful .field h⟩

end SchemaLift
