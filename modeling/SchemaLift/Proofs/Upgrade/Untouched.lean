import SchemaLift.Proofs.Definition.Header
import SchemaLift.Proofs.Definition.NameStatement
import SchemaLift.Proofs.Definition.Scan
import SchemaLift.Proofs.Text.Replace
import SchemaLift.Proofs.Upgrade.Pipeline

/-!
# Text that no rule touches

Every construct that a rule may change starts on a line that can be told from its head: the header of
a legacy definition, or a line whose first code token is one of ten words (`isTrigger`). Nothing
above the first such line changes, whichever rules run (`upgrade_above_triggers`), because an edit
moves only what is below the line where it begins; a text without any such line comes back as it is,
with nothing to report.
-/

namespace SchemaLift

/-- The words that start a statement which some rule may change. -/
def triggerWords : List String :=
  ["name", "field", "argument", "input_field", "connection", "interfaces", "possible_types",
    "resolve_type", "coerce_input", "coerce_result"]

/-- Whether a line may start something that a rule changes. -/
def isTrigger (line : Line) : Bool :=
  (DefinitionHeader.parse? line).isSome ||
    (tokenizeCode line).head?.any fun t => triggerWords.any t.isWord

/-- The first `k` lines of a text hold no trigger. -/
def Quiet (k : Nat) (lines : List Line) : Prop := ∀ line ∈ lines.take k, isTrigger line = false

/-! ## What triggers -/

theorem isTrigger_of_word {line : Line} {word : String} (hword : word ∈ triggerWords)
    (h : (tokenizeCode line).head?.any (·.isWord word) = true) : isTrigger line = true := by
  obtain ⟨t, ht, hw⟩ := (Option.any_eq_true _ _).1 h
  rw [isTrigger, Bool.or_eq_true]
  refine Or.inr ((Option.any_eq_true _ _).2 ⟨t, ht, ?_⟩)
  exact List.any_eq_true.2 ⟨word, hword, hw⟩

theorem keyword_mem_triggerWords {e : Declaration.Editor} (h : e ∈ Declaration.editors) :
    e.keyword ∈ triggerWords := by
  rcases Declaration.editors_cases h with ⟨_ | _ | _ | _, rfl⟩ | rfl | rfl <;> decide

theorem isTrigger_of_startsOn {keyword : String} (hword : keyword ∈ triggerWords) {line : Line}
    (h : Declaration.startsOn keyword line = true) : isTrigger line = true := by
  by_contra hnot
  have hhead : (tokenizeCode line).head?.any (·.isWord keyword) = false := by
    rw [Bool.eq_false_iff]
    exact fun hhead => hnot (isTrigger_of_word hword hhead)
  rw [Declaration.startsOn_eq_false hhead] at h
  cases h

theorem isTrigger_of_list {keyword : String} (hword : keyword ∈ triggerWords) {line : Line}
    (h : TypeList.startsOn keyword line = true) : isTrigger line = true :=
  isTrigger_of_word hword h

theorem isTrigger_of_on? {line : Line} (h : (Hook.on? line).isSome = true) :
    isTrigger line = true := by
  unfold Hook.on? at h
  split at h
  · rename_i first next rest htokens
    obtain ⟨hook, hfind⟩ : ∃ hook, Hook.names.find? first.isWord = some hook := by
      cases hf : Hook.names.find? first.isWord with
      | none => rw [hf] at h; cases h
      | some hook => exact ⟨hook, rfl⟩
    have hmem : hook ∈ triggerWords := by
      have hnames := List.mem_of_find?_eq_some hfind
      simp only [Hook.names, List.mem_cons, List.not_mem_nil, or_false] at hnames
      rcases hnames with rfl | rfl | rfl <;> decide
    apply isTrigger_of_word hmem
    have hword : first.isWord hook = true := List.find?_some hfind
    rw [htokens]
    exact hword
  · cases h

theorem isTrigger_of_name {line : Line} (h : (NameStatement.parse? line).isSome = true) :
    isTrigger line = true :=
  isTrigger_of_word (by decide) (NameStatement.startsWithName_of_parse? h)

/-! ## One rule -/

theorem Quiet.le {k : Nat} {ls : List Line} (hq : Quiet k ls) {i : Nat} {line : Line}
    (hline : ls[i]? = some line) (ht : isTrigger line = true) : k ≤ i := by
  by_contra hlt
  have hmem : line ∈ ls.take k := by
    rw [List.mem_iff_getElem?]
    exact ⟨i, by rw [List.getElem?_take_of_lt (Nat.lt_of_not_le hlt), hline]⟩
  rw [hq line hmem] at ht
  cases ht

/-- Replaced lines may hold line feeds; those above stay lines of the text. -/
theorem Text.take_lines_unlines {source : Text} {edited : List Line} {k : Nat}
    (h : edited.take k = (lines source).take k) :
    (lines (unlines edited)).take k = (lines source).take k := by
  by_cases hnil : edited = []
  · have hk : k = 0 := by
      by_contra hk
      rw [hnil, List.take_nil] at h
      have hlen := congrArg List.length h
      have hpos := List.length_pos_of_ne_nil (lines_ne_nil source)
      rw [List.length_take, List.length_nil] at hlen
      omega
    rw [hk, List.take_zero, List.take_zero]
  · have habove : (edited.take k).flatMap lines = edited.take k := by
      apply flatMap_lines
      intro line hline
      rw [h] at hline
      exact notMem_of_mem_lines (List.mem_of_mem_take hline)
    have hsplit : lines (unlines edited) = edited.take k ++ (edited.drop k).flatMap lines := by
      rw [lines_unlines_flatMap hnil, ← habove, ← List.flatMap_append, List.take_append_drop]
    rw [hsplit, ← h]
    by_cases hlen : k ≤ edited.length
    · rw [List.take_append_of_le_length (by simp [hlen]), List.take_take, Nat.min_self]
    · rw [List.drop_of_length_le (by omega), List.flatMap_nil, List.append_nil, List.take_take,
        Nat.min_self]

theorem Lines.take_spliceUpwards {ls out : List Line} {changes : List Change}
    (h : spliceUpwards ls changes = .ok out) {k : Nat} (hk : ∀ c ∈ changes, k ≤ c.1.first) :
    out.take k = ls.take k := by
  induction changes generalizing out with
  | nil =>
    obtain rfl := Except.ok.inj h
    rfl
  | cons c rest ih =>
    obtain ⟨r, new⟩ := c
    rw [spliceUpwards] at h
    obtain ⟨below, hbelow, hsplice⟩ := bind_eq_ok_iff.1 h
    rw [take_splice hsplice (hk (r, new) List.mem_cons_self),
      ih hbelow fun c hc => hk c (List.mem_cons_of_mem _ hc)]

section

variable {source : Text} {out : Outcome} {k : Nat} (hq : Quiet k (Text.lines source))
include hq

theorem take_declarations {e : Declaration.Editor} (he : e ∈ Declaration.editors)
    (h : Declaration.upgradeAll e.rule e.keyword e.revise source = .ok out) :
    (Text.lines out.text).take k = (Text.lines source).take k := by
  obtain ⟨p, hp, h⟩ := bind_eq_ok_iff.1 h
  obtain rfl := Except.ok.inj h
  apply Text.take_lines_unlines
  apply Declaration.take_handleAll hp
  intro d hd
  obtain ⟨line, hline, hstarts⟩ := (Declaration.genuine_of_mem_scan hd).1
  exact hq.le hline (isTrigger_of_startsOn (keyword_mem_triggerWords he) hstarts)

theorem take_typeLists {rule : Rule} {keyword : String} (hword : keyword ∈ triggerWords)
    {wanted : TypeList → Bool} {newLines : TypeList → List Line}
    (h : TypeList.upgradeAll rule keyword wanted newLines source = .ok out) :
    (Text.lines out.text).take k = (Text.lines source).take k := by
  rw [TypeList.upgradeAll_eq] at h
  obtain ⟨edited, hedited, rfl⟩ := map_eq_ok_iff.1 h
  apply Text.take_lines_unlines
  apply Lines.take_spliceUpwards hedited
  intro c hc
  obtain ⟨l, hl, rfl⟩ := List.mem_map.1 hc
  obtain ⟨line, hline, hstarts⟩ := TypeList.mem_scan (TypeList.mem_lists.1 hl).1
  exact hq.le hline (isTrigger_of_list hword hstarts)

theorem take_hooks (h : Hook.upgradeAll source = .ok out) :
    (Text.lines out.text).take k = (Text.lines source).take k := by
  rw [Hook.upgradeAll_eq] at h
  obtain ⟨edited, hedited, rfl⟩ := map_eq_ok_iff.1 h
  apply Text.take_lines_unlines
  apply Lines.take_spliceUpwards hedited
  rintro ⟨range, new⟩ hc
  obtain ⟨line, hline, hhook⟩ := Hook.mem_scan (Hook.mem_methods.1 hc)
  exact hq.le hline (isTrigger_of_on? hhook)

theorem take_names (h : NameStatement.upgradeAll source = .ok out) :
    (Text.lines out.text).take k = (Text.lines source).take k := by
  rw [NameStatement.upgradeAll_eq] at h
  obtain ⟨edited, hedited, rfl⟩ := map_eq_ok_iff.1 h
  apply Text.take_lines_unlines
  apply NameStatement.take_foldlM_apply hedited
  intro edit hedit
  have hmem : edit ∈ NameStatement.edits (Text.lines source) := List.mem_mergeSort.1 hedit
  obtain ⟨line, hline, hname⟩ := NameStatement.parse?_of_mem_edits hmem
  exact hq.le hline (isTrigger_of_name hname)

theorem take_headers (ns : Text) :
    (Text.lines (DefinitionHeader.upgradeAll ns source).text).take k =
      (Text.lines source).take k := by
  rw [DefinitionHeader.upgradeAll_text]
  apply Text.take_lines_unlines
  have hkeep : ∀ e ∈ (Text.lines source).zipIdx.take k, DefinitionHeader.newLine ns
      (Outline.ofLines (Text.lines source)) e.1 e.2 = e.1 := by
    intro e he
    have hmem : e.1 ∈ (Text.lines source).take k := by
      rw [← List.zipIdx_map_fst 0 (Text.lines source), ← List.map_take]
      exact List.mem_map_of_mem he
    apply DefinitionHeader.newLine_of_parse?_eq_none
    have hnot := hq e.1 hmem
    rw [isTrigger, Bool.or_eq_false_iff] at hnot
    exact Option.isSome_eq_false_iff.1 hnot.1 |> Option.isNone_iff_eq_none.1
  rw [← List.map_take, List.map_congr_left hkeep, List.map_take, List.zipIdx_map_fst]

/-- A rule changes nothing above the first trigger. -/
theorem take_apply {rule : Rule} {ns : Text} (h : rule.apply ns source = .ok out) :
    (Text.lines out.text).take k = (Text.lines source).take k := by
  rcases rule.cases with ⟨e, he, rfl⟩ | rfl | rfl | rfl | rfl | rfl
  · rw [Declaration.apply_of_mem_editors he] at h
    exact take_declarations hq he h
  · obtain rfl := Except.ok.inj h
    exact take_headers hq ns
  · exact take_names hq h
  · exact take_typeLists hq (by decide) h
  · exact take_typeLists hq (by decide) h
  · exact take_hooks hq h

end

/-! ## One rule on a text without triggers -/

section

variable {source : Text} (hq : ∀ line ∈ Text.lines source, isTrigger line = false)
include hq

theorem quiet_false {p : Line → Bool} (hp : ∀ {line}, p line = true → isTrigger line = true) :
    ∀ line ∈ Text.lines source, p line = false := by
  intro line hline
  rw [Bool.eq_false_iff]
  intro htrue
  have hnot := hq line hline
  rw [hp htrue] at hnot
  cases hnot

theorem declarations_quiet {e : Declaration.Editor} (he : e ∈ Declaration.editors) :
    Declaration.upgradeAll e.rule e.keyword e.revise source = .ok ⟨source, 0, []⟩ := by
  have hscan : Declaration.scan (Text.lines source) e.keyword = [] :=
    Declaration.scan_eq_nil (quiet_false hq (isTrigger_of_startsOn (keyword_mem_triggerWords he)))
  unfold Declaration.upgradeAll
  simp only [hscan, Declaration.handleAll, bind, Except.bind, pure, Except.pure,
    Text.unlines_lines]

theorem typeLists_quiet {rule : Rule} {keyword : String} (hword : keyword ∈ triggerWords)
    (wanted : TypeList → Bool) (newLines : TypeList → List Line) :
    TypeList.upgradeAll rule keyword wanted newLines source = .ok ⟨source, 0, []⟩ :=
  TypeList.upgradeAll_idle (quiet_false hq (isTrigger_of_list hword)) wanted newLines

theorem hooks_quiet : Hook.upgradeAll source = .ok ⟨source, 0, []⟩ := by
  have hnone : ∀ line ∈ Text.lines source, Hook.on? line = none := by
    intro line hline
    have hsome := quiet_false hq (p := fun l => (Hook.on? l).isSome) isTrigger_of_on? line hline
    exact Option.isNone_iff_eq_none.1 (Option.isSome_eq_false_iff.1 hsome)
  exact Hook.upgradeAll_idle hnone

theorem names_quiet : NameStatement.upgradeAll source = .ok ⟨source, 0, []⟩ := by
  apply NameStatement.upgradeAll_idle
  intro line hline
  have hsome := quiet_false hq (p := fun l => (NameStatement.parse? l).isSome) isTrigger_of_name
    line hline
  exact Option.isNone_iff_eq_none.1 (Option.isSome_eq_false_iff.1 hsome)

theorem headers_quiet (ns : Text) :
    DefinitionHeader.upgradeAll ns source = ⟨source, 0, []⟩ := by
  apply DefinitionHeader.upgradeAll_idle
  intro line hline
  have hnot := hq line hline
  rw [isTrigger, Bool.or_eq_false_iff] at hnot
  exact Option.isNone_iff_eq_none.1 (Option.isSome_eq_false_iff.1 hnot.1)

/-- A text without triggers is left alone by every rule. -/
theorem apply_quiet (rule : Rule) (ns : Text) : rule.apply ns source = .ok ⟨source, 0, []⟩ := by
  rcases rule.cases with ⟨e, he, rfl⟩ | rfl | rfl | rfl | rfl | rfl
  · rw [Declaration.apply_of_mem_editors he]
    exact declarations_quiet hq he
  · exact congrArg Except.ok (headers_quiet hq ns)
  · exact names_quiet hq
  · exact typeLists_quiet hq (by decide) _ _
  · exact typeLists_quiet hq (by decide) _ _
  · exact hooks_quiet hq

end

/-! ## A whole upgrade -/

section

variable {options : UpgradeOptions} {plain : Text}

theorem take_applyRules {k : Nat} (hq : Quiet k (Text.lines plain)) {report : Report}
    (h : applyRules options plain = .ok report) :
    (Text.lines report.output).take k = (Text.lines plain).take k := by
  refine Report.foldlM_step
    (P := fun r => (Text.lines r.output).take k = (Text.lines plain).take k) ?_ rfl h
  intro rule _ r out hr hout
  have hquiet : Quiet k (Text.lines r.output) := by
    unfold Quiet
    rw [hr]
    exact hq
  rw [take_apply hquiet hout, hr]

theorem applyRules_quiet (hq : ∀ line ∈ Text.lines plain, isTrigger line = false) :
    applyRules options plain = .ok ⟨plain, [], []⟩ :=
  Report.foldlM_idle fun rule _ => apply_quiet hq rule options.baseNamespace

end

/-- **Above the first trigger nothing changes.** Lines above all triggers are the first lines of the
output as well, before it gets its line ends back; without any trigger the upgrade succeeds, gives
the text as it is, and has nothing to report. -/
theorem upgrade_above_triggers (options : UpgradeOptions) (source : Text) :
    (∀ k, Quiet k (Text.lines (plainText source)) →
      ∀ report, upgrade options source = .ok report →
        ∃ plain, applyRules options (plainText source) = .ok plain ∧
          report.output = (Newline.detect source).restore plain.output ∧
          (Text.lines plain.output).take k = (Text.lines (plainText source)).take k) ∧
      ((∀ line ∈ Text.lines (plainText source), isTrigger line = false) →
        upgrade options source = .ok ⟨source, [], []⟩) := by
  constructor
  · intro k hq report h
    rw [upgrade_eq] at h
    obtain ⟨plain, hplain, rfl⟩ := map_eq_ok_iff.1 h
    exact ⟨plain, hplain, rfl, take_applyRules hq hplain⟩
  · intro hq
    have hrestore : (Newline.detect source).restore (plainText source) = source :=
      Newline.restore_normalize source
    rw [upgrade_eq, applyRules_quiet hq, Except.map, hrestore]

/-- A comment above a declaration. -/
def commented : Text := "# a field\nfield :a, types.Int".toList

/-- What an upgrade makes of it. -/
def commentedReport : Report :=
  ⟨"# a field\nfield :a, Integer, null: true".toList, [(.field, 1)], []⟩

theorem upgrade_commented :
    upgrade .standard commented = .ok commentedReport ∧
      (∃ plain, applyRules .standard (plainText commented) = .ok plain ∧
        commentedReport.output = (Newline.detect commented).restore plain.output ∧
        (Text.lines plain.output).take 1 = (Text.lines (plainText commented)).take 1) ∧
      upgrade .standard "class A\r\nend".toList = .ok ⟨"class A\r\nend".toList, [], []⟩ := by
  have hupgrade : upgrade .standard commented = .ok commentedReport := by decide +kernel
  have hquiet : Quiet 1 (Text.lines (plainText commented)) := by
    unfold Quiet
    decide +kernel
  exact ⟨hupgrade, (upgrade_above_triggers .standard commented).1 1 hquiet _ hupgrade,
    (upgrade_above_triggers .standard "class A\r\nend".toList).2 (by decide +kernel)⟩

end SchemaLift
