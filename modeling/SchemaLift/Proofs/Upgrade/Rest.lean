import SchemaLift.Proofs.Definition.Header
import SchemaLift.Proofs.Definition.NameStatement
import SchemaLift.Proofs.Definition.Scan
import SchemaLift.Proofs.Upgrade.Pipeline

/-!
# Texts at rest

A rule is at rest on a text that holds nothing for it to change (`Rule.AtRest`): then it succeeds and
leaves the text alone, and whenever it succeeds without counting a change, the text was at rest. So no
change is counted exactly where nothing was changed, in one rule and in a whole run (`changes_counted`).
-/

namespace SchemaLift

/-! ## Headers of definitions -/

/-- No header of a known definition opens a block that is closed. -/
def DefinitionHeader.AtRest (ls : List Line) : Prop :=
  ∀ index line h, ls[index]? = some line → parse? line = some h →
    (DefinitionKind.ofLegacyName? h.kind).isSome = true →
      (Outline.ofLines ls).matchBlock index = none

namespace DefinitionHeader

theorem atRest_iff {ns source : Text} :
    AtRest (Text.lines source) ↔ (upgradeAll ns source).changes = 0 := by
  rw [changes_eq_zero_iff]
  constructor
  · rintro h ⟨line, index⟩ he new hnew
    obtain ⟨header, kind, hparse, hkind, hblock, -⟩ := upgradeLine_eq_replaced_iff.1 hnew
    have hline : (Text.lines source)[index]? = some line := List.mem_zipIdx_iff_getElem?.1 he
    rw [h index line header hline hparse (by rw [hkind]; rfl)] at hblock
    cases hblock
  · intro h index line header hline hparse hknown
    obtain ⟨kind, hkind⟩ := Option.isSome_iff_exists.1 hknown
    rw [← Option.not_isSome_iff_eq_none]
    intro hblock
    exact h (line, index) (List.mem_zipIdx_iff_getElem?.2 hline) _
      (upgradeLine_eq_replaced_iff.2 ⟨header, kind, hparse, hkind, hblock, rfl⟩)

end DefinitionHeader

/-! ## Name statements -/

/-- No class over a base class has a name statement directly inside. -/
def NameStatement.AtRest (ls : List Line) : Prop :=
  ∀ index line header block child, ls[index]? = some line → ClassHeader.parse? line = some header →
    DefinitionKind.isBaseClass header.superclass = true →
      (Outline.ofLines ls).matchBlock index = some block →
        child ∈ (Outline.ofLines ls).children block → ls[child.first]?.bind parse? = none

namespace NameStatement

theorem atRest_iff {ls : List Line} : AtRest ls ↔ edits ls = [] := by
  unfold edits
  rw [List.filterMap_eq_nil_iff]
  constructor
  · rintro h ⟨line, index⟩ he
    by_contra hne
    obtain ⟨edit, hedit⟩ := Option.ne_none_iff_exists'.1 hne
    obtain ⟨header, block, child, name, hheader, hbase, hblock, hchild, hname, -⟩ :=
      editAt_eq_some hedit
    rw [h index line header block child (List.mem_zipIdx_iff_getElem?.1 he) hheader hbase hblock
      hchild] at hname
    cases hname
  · intro h index line header block child hline hheader hbase hblock hchild
    by_contra hne
    obtain ⟨name, hname⟩ := Option.ne_none_iff_exists'.1 hne
    have hnone : editAt ls (Outline.ofLines ls) index line = none :=
      h (line, index) (List.mem_zipIdx_iff_getElem?.2 hline)
    have hsome := editAt_isSome hheader hbase hblock hchild hname
    rw [hnone] at hsome
    cases hsome

theorem upgradeAll_of_atRest {source : Text} (h : AtRest (Text.lines source)) :
    upgradeAll source = .ok ⟨source, 0, []⟩ :=
  upgradeAll_of_edits_eq_nil (atRest_iff.1 h)

theorem atRest_of_unchanged {source : Text} {out : Outcome} (h : upgradeAll source = .ok out)
    (hout : out.changes = 0) : AtRest (Text.lines source) := by
  rw [upgradeAll_eq] at h
  obtain ⟨edited, -, rfl⟩ := map_eq_ok_iff.1 h
  exact atRest_iff.2 (List.eq_nil_of_length_eq_zero hout)

end NameStatement

/-! ## Declarations -/

/-- No declaration of the keyword is replaced by other lines than its own. -/
def Declaration.AtRest (keyword : String) (revise : Revision) (ls : List Line) : Prop :=
  ∀ d edit new, .declaration d ∈ scan ls keyword → revise d ls = .ok edit →
    edit.replacement = some new → new = d.ownLines ls

namespace Declaration

variable {keyword : String} {revise : Revision} {ls : List Line}

/-- Handling finds of a text at rest leaves it as it is. -/
theorem handleAll_of_atRest (rule : Rule) (hl : Lawful revise) (h : AtRest keyword revise ls)
    {found : List Found} (hscan : ∀ f ∈ found, f ∈ scan ls keyword) :
    ∃ skipped, handleAll rule revise ls found = .ok ⟨ls, 0, skipped⟩ := by
  induction found with
  | nil => exact ⟨[], rfl⟩
  | cons f rest ih =>
    obtain ⟨skipped, hrest⟩ := ih fun g hg => hscan g (List.mem_cons_of_mem f hg)
    have hf := hscan f List.mem_cons_self
    obtain ⟨line, hline, -⟩ := (genuine_of_mem_scan hf).1
    rw [handleAll, hrest]
    cases f with
    | failed index reason =>
      refine ⟨Skip.atLine rule index line reason :: skipped, ?_⟩
      have hget : Lines.line ls index = .ok line := Lines.line_ok_iff.2 hline
      simp only [bind, Except.bind, handle, hget]
      rfl
    | declaration d =>
      have hd := placed_of_mem_scan hf
      obtain ⟨edit, hedit, -⟩ := hl.total hd
      refine ⟨skippedBy rule d line edit skipped, ?_⟩
      have hget : Lines.line ls d.start = .ok line := Lines.line_ok_iff.2 hline
      simp only [bind, Except.bind, handle, hedit]
      cases hnew : edit.replacement with
      | none => exact applyEdit_keep hget hnew
      | some new =>
        refine applyEdit_same hget hnew ?_
        rw [h d edit new hf hedit hnew]
        exact Lines.slice_of_fits hd.fits

theorem upgradeAll_of_atRest (rule : Rule) (hl : Lawful revise) {source : Text}
    (h : AtRest keyword revise (Text.lines source)) :
    ∃ skipped, upgradeAll rule keyword revise source = .ok ⟨source, 0, skipped⟩ := by
  obtain ⟨skipped, hall⟩ := handleAll_of_atRest rule hl h fun f hf => hf
  refine ⟨skipped, ?_⟩
  unfold upgradeAll
  simp only [hall, bind, Except.bind, pure, Except.pure, Text.unlines_lines]

theorem atRest_of_unchanged {rule : Rule} {source : Text} {out : Outcome}
    (h : upgradeAll rule keyword revise source = .ok out) (hout : out.changes = 0) :
    AtRest keyword revise (Text.lines source) := by
  obtain ⟨p, hp, h⟩ := bind_eq_ok_iff.1 h
  obtain rfl := Except.ok.inj h
  obtain ⟨-, hkeep⟩ := handleAll_unchanged hp hout
  intro d edit new hd hedit hnew
  obtain ⟨edit', hedit', hslice⟩ := hkeep d hd
  rw [hedit] at hedit'
  obtain rfl := Except.ok.inj hedit'
  have hfits := (placed_of_mem_scan hd).fits
  rw [Lines.slice_of_fits hfits] at hslice
  exact (Except.ok.inj (hslice new hnew)).symm

end Declaration

/-! ## Lists of types -/

/-- No wanted list is found. -/
def TypeList.AtRest (rule : Rule) (keyword : String) (wanted : TypeList → Bool) (ls : List Line) :
    Prop :=
  ∀ l, .list l ∈ scan rule keyword ls → wanted l = false

namespace TypeList

variable {rule : Rule} {keyword : String} {wanted : TypeList → Bool}
  {newLines : TypeList → List Line} {source : Text}

theorem atRest_iff {ls : List Line} :
    AtRest rule keyword wanted ls ↔ lists rule keyword wanted ls = [] := by
  rw [List.eq_nil_iff_forall_not_mem]
  constructor
  · intro h l hl
    obtain ⟨hscan, hwanted⟩ := mem_lists.1 hl
    rw [h l hscan] at hwanted
    cases hwanted
  · intro h l hl
    rw [Bool.eq_false_iff]
    intro hwanted
    exact h l (mem_lists.2 ⟨hl, hwanted⟩)

theorem upgradeAll_of_atRest (h : AtRest rule keyword wanted (Text.lines source)) :
    upgradeAll rule keyword wanted newLines source =
      .ok ⟨source, 0, skips rule keyword (Text.lines source)⟩ :=
  upgradeAll_of_lists_eq_nil (atRest_iff.1 h)

theorem atRest_of_unchanged {out : Outcome}
    (h : upgradeAll rule keyword wanted newLines source = .ok out) (hout : out.changes = 0) :
    AtRest rule keyword wanted (Text.lines source) := by
  rw [upgradeAll_eq] at h
  obtain ⟨edited, -, rfl⟩ := map_eq_ok_iff.1 h
  exact atRest_iff.2 (List.eq_nil_of_length_eq_zero hout)

end TypeList

/-! ## Hooks -/

/-- No hook is set to a proc that could become a method. -/
def Hook.AtRest (ls : List Line) : Prop := ∀ range new, .method range new ∉ scan ls

namespace Hook

variable {source : Text}

theorem atRest_iff {ls : List Line} : AtRest ls ↔ methods ls = [] := by
  rw [List.eq_nil_iff_forall_not_mem]
  constructor
  · rintro h ⟨range, new⟩ hmem
    exact h range new (mem_methods.1 hmem)
  · intro h range new hscan
    exact h (range, new) (mem_methods.2 hscan)

theorem upgradeAll_of_atRest (h : AtRest (Text.lines source)) :
    upgradeAll source = .ok ⟨source, 0, skips (Text.lines source)⟩ :=
  upgradeAll_of_methods_eq_nil (atRest_iff.1 h)

theorem atRest_of_unchanged {out : Outcome} (h : upgradeAll source = .ok out)
    (hout : out.changes = 0) : AtRest (Text.lines source) := by
  rw [upgradeAll_eq] at h
  obtain ⟨edited, -, rfl⟩ := map_eq_ok_iff.1 h
  exact atRest_iff.2 (List.eq_nil_of_length_eq_zero hout)

end Hook

/-! ## All rules -/

/-- The rule finds nothing to change in a text with plain line feeds. -/
def Rule.AtRest (source : Text) : Rule → Prop
  | .typeDefinition => DefinitionHeader.AtRest (Text.lines source)
  | .name => NameStatement.AtRest (Text.lines source)
  | .field => Declaration.AtRest "field" (Declaration.flatten .field) (Text.lines source)
  | .argument => Declaration.AtRest "argument" (Declaration.flatten .argument) (Text.lines source)
  | .inputField =>
    Declaration.AtRest "input_field" (Declaration.flatten .inputField) (Text.lines source)
  | .connection =>
    Declaration.AtRest "connection" (Declaration.flatten .connection) (Text.lines source)
  | .propertyToMethod =>
    Declaration.AtRest "field" Declaration.renameProperty (Text.lines source)
  | .resolveProc => Declaration.AtRest "field" Declaration.moveResolver (Text.lines source)
  | .implements => TypeList.AtRest .implements "interfaces" (fun _ => true) (Text.lines source)
  | .possibleTypes =>
    TypeList.AtRest .possibleTypes "possible_types" (fun l => !l.call.items.isEmpty)
      (Text.lines source)
  | .classProc => Hook.AtRest (Text.lines source)

namespace Rule

variable {source : Text}

theorem atRest_editor {e : Declaration.Editor} (he : e ∈ Declaration.editors) :
    e.rule.AtRest source ↔ Declaration.AtRest e.keyword e.revise (Text.lines source) := by
  rcases Declaration.editors_cases he with ⟨_ | _ | _ | _, rfl⟩ | rfl | rfl <;> exact Iff.rfl

/-- On a text at rest a rule succeeds and changes nothing. -/
theorem apply_of_atRest (ns : Text) {r : Rule} (h : r.AtRest source) :
    ∃ skipped, r.apply ns source = .ok ⟨source, 0, skipped⟩ := by
  rcases r.cases with ⟨e, he, rfl⟩ | rfl | rfl | rfl | rfl | rfl
  · rw [Declaration.apply_of_mem_editors he]
    exact Declaration.upgradeAll_of_atRest e.rule (Declaration.lawful_of_mem_editors he)
      ((atRest_editor he).1 h)
  · have hchanges : (DefinitionHeader.upgradeAll ns source).changes = 0 :=
      DefinitionHeader.atRest_iff.1 h
    have hsame := DefinitionHeader.upgradeAll_of_changes_eq_zero hchanges
    exact ⟨_, congrArg Except.ok hsame⟩
  · exact ⟨_, NameStatement.upgradeAll_of_atRest h⟩
  · exact ⟨_, TypeList.upgradeAll_of_atRest h⟩
  · exact ⟨_, TypeList.upgradeAll_of_atRest h⟩
  · exact ⟨_, Hook.upgradeAll_of_atRest h⟩

/-- A rule that succeeds without a change was at rest. -/
theorem atRest_of_unchanged {ns : Text} {r : Rule} {out : Outcome}
    (h : r.apply ns source = .ok out) (hout : out.changes = 0) :
    r.AtRest source ∧ out.text = source := by
  have hrest : r.AtRest source := by
    rcases r.cases with ⟨e, he, rfl⟩ | rfl | rfl | rfl | rfl | rfl
    · rw [Declaration.apply_of_mem_editors he] at h
      exact (atRest_editor he).2 (Declaration.atRest_of_unchanged h hout)
    · obtain rfl := Except.ok.inj h
      exact DefinitionHeader.atRest_iff.2 hout
    · exact NameStatement.atRest_of_unchanged h hout
    · exact TypeList.atRest_of_unchanged h hout
    · exact TypeList.atRest_of_unchanged h hout
    · exact Hook.atRest_of_unchanged h hout
  obtain ⟨skipped, hsame⟩ := apply_of_atRest ns hrest
  rw [h] at hsame
  obtain rfl := Except.ok.inj hsame
  exact ⟨hrest, rfl⟩

end Rule

/-! ## A whole upgrade -/

namespace Report

variable {ns : Text} {rules : List Rule} {r r' : Report}

theorem foldlM_of_atRest (h : ∀ rule ∈ rules, rule.AtRest r.output) :
    ∃ skipped, rules.foldlM (step ns) r = .ok ⟨r.output, r.applied, skipped⟩ := by
  induction rules generalizing r with
  | nil => exact ⟨r.skipped, rfl⟩
  | cons rule rest ih =>
    obtain ⟨skipped, happly⟩ := Rule.apply_of_atRest ns (h rule List.mem_cons_self)
    rw [List.foldlM_cons, step_eq_ok_iff.2 ⟨_, happly, rfl⟩]
    obtain ⟨skipped', hrest⟩ := ih (r := ⟨r.output, r.applied ++ [], r.skipped ++ skipped⟩)
      fun rule' h' => h rule' (List.mem_cons_of_mem rule h')
    refine ⟨skipped', ?_⟩
    rw [List.append_nil] at hrest
    simp only [bind, Except.bind, ↓reduceIte, List.append_nil]
    exact hrest

/-- A run that reports no change changed nothing, and every rule was at rest. -/
theorem atRest_of_foldlM (h : rules.foldlM (step ns) r = .ok r') (happlied : r'.applied = []) :
    r.applied = [] ∧ r'.output = r.output ∧ ∀ rule ∈ rules, rule.AtRest r.output := by
  induction rules generalizing r with
  | nil =>
    obtain rfl := Except.ok.inj h
    exact ⟨happlied, rfl, by simp⟩
  | cons rule rest ih =>
    rw [List.foldlM_cons] at h
    obtain ⟨q, hq, h⟩ := bind_eq_ok_iff.1 h
    obtain ⟨out, hout, rfl⟩ := step_eq_ok_iff.1 hq
    obtain ⟨hnil, hsame, hrest⟩ := ih h
    obtain ⟨happ, hstep⟩ := List.append_eq_nil_iff.1 hnil
    have hzero : out.changes = 0 := by
      by_contra hne
      rw [if_neg hne] at hstep
      cases hstep
    obtain ⟨hrule, htext⟩ := Rule.atRest_of_unchanged hout hzero
    have htext : out.text = r.output := htext
    simp only [htext] at hsame hrest
    refine ⟨happ, hsame, ?_⟩
    intro rule' h'
    rcases List.mem_cons.1 h' with rfl | h'
    · exact hrule
    · exact hrest rule' h'

end Report

/-- An upgrade reports no change exactly if all its rules are at rest; the text then stays. -/
theorem upgrade_unchanged_iff {options : UpgradeOptions} {source : Text} {report : Report}
    (h : upgrade options source = .ok report) :
    (report.output = source ∧ report.applied = []) ↔
      ∀ r ∈ options.rules, r.AtRest (plainText source) := by
  have hrestore : (Newline.detect source).restore (plainText source) = source :=
    Newline.restore_normalize source
  rw [upgrade_eq] at h
  obtain ⟨plain, hplain, rfl⟩ := map_eq_ok_iff.1 h
  constructor
  · rintro ⟨-, happlied⟩
    exact (Report.atRest_of_foldlM hplain happlied).2.2
  · intro hrest
    obtain ⟨skipped, hsame⟩ : ∃ skipped, applyRules options (plainText source) =
        .ok ⟨plainText source, [], skipped⟩ := Report.foldlM_of_atRest hrest
    rw [hsame] at hplain
    obtain rfl := Except.ok.inj hplain
    exact ⟨hrestore, rfl⟩

/-! ## Counts -/

namespace Rule

/-- A rule that succeeds counts no change exactly on a text at rest, which it leaves alone. -/
theorem changes_eq_zero_iff {ns source : Text} {rule : Rule} {out : Outcome}
    (h : rule.apply ns source = .ok out) :
    (out.changes = 0 ↔ rule.AtRest source) ∧ (out.changes = 0 → out.text = source) := by
  refine ⟨⟨fun hout => (atRest_of_unchanged h hout).1, fun hrest => ?_⟩,
    fun hout => (atRest_of_unchanged h hout).2⟩
  obtain ⟨skipped, hsame⟩ := apply_of_atRest ns hrest
  rw [h] at hsame
  obtain rfl := Except.ok.inj hsame
  rfl

end Rule

namespace Report

/-- A report lists no rule without a change. -/
theorem ne_zero_of_mem_applied {ns : Text} {rules : List Rule} {r r' : Report}
    (hr : ∀ entry ∈ r.applied, entry.2 ≠ 0) (h : rules.foldlM (step ns) r = .ok r') :
    ∀ entry ∈ r'.applied, entry.2 ≠ 0 := by
  refine foldlM_step (P := fun r => ∀ entry ∈ r.applied, entry.2 ≠ 0) ?_ hr h
  intro rule _ r out hr _ entry hentry
  rcases List.mem_append.1 hentry with hentry | hentry
  · exact hr entry hentry
  · split at hentry
    · cases hentry
    · rename_i hchanges
      obtain rfl := List.mem_singleton.1 hentry
      exact hchanges

theorem totalChanges_eq_zero_iff {r : Report} (hr : ∀ entry ∈ r.applied, entry.2 ≠ 0) :
    r.totalChanges = 0 ↔ r.applied = [] := by
  unfold totalChanges
  cases happlied : r.applied with
  | nil => simp
  | cons entry rest =>
    have hentry := hr entry (happlied ▸ List.mem_cons_self)
    simp only [List.foldr_cons, reduceCtorEq, iff_false]
    omega

end Report

/-- **Every change is counted.** A rule that succeeds counts no change exactly on a text at rest, and
its text is then the one that it was given. So a run that reports no change, which is one whose total is
zero, gives back its source, line ends included. -/
theorem changes_counted :
    (∀ (rule : Rule) (ns source : Text) (out : Outcome), rule.apply ns source = .ok out →
      (out.changes = 0 ↔ rule.AtRest source) ∧ (out.changes = 0 → out.text = source)) ∧
    ∀ (options : UpgradeOptions) (source : Text) (report : Report),
      upgrade options source = .ok report →
        (report.totalChanges = 0 ↔ report.applied = []) ∧
          (report.totalChanges = 0 → report.output = source) := by
  refine ⟨fun _ _ _ _ => Rule.changes_eq_zero_iff, fun options source report h => ?_⟩
  have hupgrade := h
  rw [upgrade_eq] at h
  obtain ⟨plain, hplain, rfl⟩ := map_eq_ok_iff.1 h
  have htotal : plain.totalChanges = 0 ↔ plain.applied = [] :=
    Report.totalChanges_eq_zero_iff
      (Report.ne_zero_of_mem_applied (by rintro entry ⟨⟩) hplain)
  refine ⟨htotal, fun hzero => ?_⟩
  have hrest := (Report.atRest_of_foldlM hplain (htotal.1 hzero)).2.2
  exact ((upgrade_unchanged_iff hupgrade).2 hrest).1

/-- A definition that is up to date, with carriage returns. -/
def returnedText : Text := "possible_types A\r\nresolve_type :b\r\n".toList

theorem changes_counted_returned :
    Rule.possibleTypes.apply [] returnedText = .ok ⟨returnedText, 0, []⟩ ∧
      upgrade .standard returnedText = .ok ⟨returnedText, [], []⟩ ∧
      Rule.possibleTypes.AtRest returnedText ∧
      (⟨returnedText, [], []⟩ : Report).output = returnedText := by
  have hrule : Rule.possibleTypes.apply [] returnedText = .ok ⟨returnedText, 0, []⟩ := by
    decide +kernel
  have hupgrade : upgrade .standard returnedText = .ok ⟨returnedText, [], []⟩ := by decide +kernel
  exact ⟨hrule, hupgrade, (changes_counted.1 _ _ _ _ hrule).1.1 rfl,
    (changes_counted.2 _ _ _ hupgrade).2 rfl⟩

end SchemaLift
