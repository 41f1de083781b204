import SchemaLift.Proofs.Upgrade.Inert
import SchemaLift.Proofs.Upgrade.Newline

/-!
# Upgrading twice

A second upgrade changes nothing if each rule comes to rest and the later ones keep it there. Where what a
rule exchanges stands apart from the rest, it and the rules before it are at rest on the outcome exactly if
its new lines hold nothing for them (`Rule.Clear.apply`), which they do if it rewrites for good
(`Rule.Orderly.inert`). When this goes on from rule to rule, all of them are at rest in the end
(`Settled.foldlM`), and a second pass does nothing (`upgrade_settled`).

New lines are not always inert: the list that comes out of two pairs of brackets is a list again.
-/

namespace SchemaLift

open Outline

/-! ## One rule -/

/-- What a rule exchanges stands apart: no line belongs to two of its constructs, no class names itself
twice, and neither the lines that go nor those that come are a part of what the rule or one before it reads
elsewhere. -/
structure Rule.Clear (ns : Text) (earlier : List Rule) (ls : List Line) (r : Rule) : Prop where
  apart : r.Apart ls
  once : r = .name → ∀ i ∈ NameStatement.names ls, ∃ edit ∈ NameStatement.edits ls, edit.index = i
  tolerated : ∀ c ∈ r.changes ns ls, ∀ q ∈ r :: earlier, q.Tolerates ls c

namespace Rule

instance (ns : Text) (earlier : List Rule) (ls : List Line) (r : Rule) :
    Decidable (r.Clear ns earlier ls) :=
  decidable_of_iff (r.Apart ls ∧
      (r = .name → ∀ i ∈ NameStatement.names ls, ∃ edit ∈ NameStatement.edits ls, edit.index = i) ∧
      ∀ c ∈ r.changes ns ls, ∀ q ∈ r :: earlier, q.Tolerates ls c)
    ⟨fun ⟨apart, once, tolerated⟩ => ⟨apart, once, tolerated⟩,
      fun h => ⟨h.apart, h.once, h.tolerated⟩⟩

/-- **One step.** With the rules before it at rest, a rule leaves them and itself at rest exactly if its new
lines hold nothing for them. -/
theorem Clear.apply {ns source : Text} {earlier : List Rule} {r : Rule}
    (h : r.Clear ns earlier (Text.lines source)) (htype : r ≠ .typeDefinition)
    (hrest : ∀ q ∈ earlier, q.finds (Text.lines source) = []) :
    ∃ out, r.apply ns source = .ok out ∧
      out.text = Text.unlines (Lines.replaceRanges (Text.lines source)
        (r.replacements ns (Text.lines source))) ∧
      ((∀ q ∈ r :: earlier, q.finds (Text.lines out.text) = []) ↔
        r.Inert ns earlier (Text.lines source)) := by
  obtain ⟨out, happly, htext, hfinds⟩ := finds_apply ns source h.apart
  have hcovered : ∀ q ∈ r :: earlier, ∀ i ∈ q.finds (Text.lines source),
      ∃ c ∈ r.changes ns (Text.lines source), c.1.contains i = true := by
    intro q hq i hi
    rcases List.mem_cons.1 hq with rfl | hearlier
    · exact exists_change htype h.once hi
    · rw [hrest q hearlier] at hi
      cases hi
  have hiff : ∀ q ∈ r :: earlier, q.finds (Text.lines out.text) = [] ↔
      ∀ c ∈ r.changes ns (Text.lines source), q.finds c.2 = [] := fun q hq =>
    (hfinds q fun c hc => h.tolerated c hc q hq).trans (and_iff_right (hcovered q hq))
  refine ⟨out, happly, htext, ?_⟩
  constructor
  · intro hnil c hc q hq
    exact (hiff q hq).1 (hnil q hq) c hc
  · intro hinert q hq
    exact (hiff q hq).2 fun c hc => hinert c hc q hq

/-- The rule for headers leaves no header that it would change. -/
theorem finds_typeDefinition {ns : Text} (hns : ns = [] ∨ Scan.ConstantPath ns) (source : Text) :
    Rule.typeDefinition.finds (Text.lines (DefinitionHeader.upgradeAll ns source).text) = [] := by
  have hrest := DefinitionHeader.atRest_iff.2 (DefinitionHeader.changes_upgradeAll hns source)
  refine List.eq_nil_iff_forall_not_mem.2 fun index hindex => ?_
  obtain ⟨line, h, hline, hparse, hkind, hblock⟩ := DefinitionHeader.mem_upgraded_iff.1 hindex
  rw [hrest index line h hline hparse hkind] at hblock
  cases hblock

end Rule

/-! ## A run of rules -/

/-- Each rule of a run is clear of the others and leaves inert lines, on the text that it is given. The rule
for headers is free from that: it comes first, and no header is left behind it. -/
def Settled (ns : Text) : List Rule → List Rule → Text → Prop
  | _, [], _ => True
  | earlier, r :: rest, source =>
    (r = .typeDefinition ∨
      r.Clear ns earlier (Text.lines source) ∧ r.Inert ns earlier (Text.lines source)) ∧
      ∀ out ∈ (r.apply ns source).toOption, Settled ns (r :: earlier) rest out.text

instance (ns : Text) : ∀ earlier rules source, Decidable (Settled ns earlier rules source)
  | _, [], _ => inferInstanceAs (Decidable True)
  | earlier, r :: rest, source =>
    have : ∀ out : Outcome, Decidable (Settled ns (r :: earlier) rest out.text) := fun out =>
      instDecidableSettled ns (r :: earlier) rest out.text
    inferInstanceAs (Decidable ((r = .typeDefinition ∨
      r.Clear ns earlier (Text.lines source) ∧ r.Inert ns earlier (Text.lines source)) ∧
      ∀ out ∈ (r.apply ns source).toOption, Settled ns (r :: earlier) rest out.text))

namespace Settled

variable {ns : Text} {earlier rules : List Rule}

/-- **A run.** All rules of a run that settles find nothing in the end, nor do those before it. -/
theorem foldlM (htype : Rule.typeDefinition ∉ rules) {r : Report} (h : Settled ns earlier rules r.output)
    (hrest : ∀ q ∈ earlier, q.finds (Text.lines r.output) = []) :
    ∃ r', rules.foldlM (Report.step ns) r = .ok r' ∧
      (∀ q ∈ earlier, q.finds (Text.lines r'.output) = []) ∧
      ∀ q ∈ rules, q.finds (Text.lines r'.output) = [] := by
  -- over the rules still to come; those that have been applied are at rest all along
  induction rules generalizing earlier r with
  | nil => exact ⟨r, rfl, hrest, by rintro q ⟨⟩⟩
  | cons rule rules ih =>
    rw [List.mem_cons, not_or] at htype
    obtain ⟨hrule, hnext⟩ := h
    obtain ⟨hclear, hinert⟩ := hrule.resolve_left (Ne.symm htype.1)
    obtain ⟨out, happly, -, hout⟩ := hclear.apply (Ne.symm htype.1) hrest
    rw [Report.foldlM_step_cons happly]
    obtain ⟨r', hrun, hearlier, hrules⟩ :=
      ih htype.2 (r := ⟨out.text, _, _⟩) (hnext out (toOption_eq_some_iff.2 happly)) (hout.2 hinert)
    refine ⟨r', hrun, fun q hq => hearlier q (List.mem_cons_of_mem rule hq), fun q hq => ?_⟩
    rcases List.mem_cons.1 hq with rfl | hq
    · exact hearlier q List.mem_cons_self
    · exact hrules q hq

end Settled

/-- The rule for headers comes first, if it is enabled. -/
theorem UpgradeOptions.rules_cases (options : UpgradeOptions) : ∃ rest,
    Rule.typeDefinition ∉ rest ∧ (options.rules = rest ∨ options.rules = .typeDefinition :: rest) := by
  refine ⟨Rule.all.tail.filter (!options.disabled.contains ·), fun h => ?_, ?_⟩
  · exact absurd (List.mem_of_mem_filter h) (by decide)
  · unfold rules
    rw [show Rule.all = .typeDefinition :: Rule.all.tail from rfl, List.filter_cons]
    split
    · exact .inr rfl
    · exact .inl rfl

/-- A run of all enabled rules that settles leaves each of them at rest. -/
theorem Settled.applyRules {options : UpgradeOptions} {plain : Text}
    (hns : options.baseNamespace = [] ∨ Scan.ConstantPath options.baseNamespace)
    (h : Settled options.baseNamespace [] options.rules plain) :
    ∃ report, SchemaLift.applyRules options plain = .ok report ∧
      ∀ q ∈ options.rules, q.finds (Text.lines report.output) = [] := by
  unfold SchemaLift.applyRules
  obtain ⟨rest, htype, hrules | hrules⟩ := options.rules_cases
  · rw [hrules] at h ⊢
    obtain ⟨report, hrun, -, hall⟩ := foldlM htype (r := ⟨plain, [], []⟩) h fun q hq => by cases hq
    exact ⟨report, hrun, hall⟩
  · rw [hrules] at h ⊢
    have happly : Rule.typeDefinition.apply options.baseNamespace plain =
        .ok (DefinitionHeader.upgradeAll options.baseNamespace plain) := rfl
    rw [Report.foldlM_step_cons happly]
    obtain ⟨report, hrun, hfirst, hall⟩ :=
      foldlM htype (r := ⟨_, _, _⟩) (h.2 _ (toOption_eq_some_iff.2 happly)) fun q hq => by
        obtain rfl := List.mem_singleton.1 hq
        exact Rule.finds_typeDefinition hns plain
    refine ⟨report, hrun, fun q hq => ?_⟩
    rcases List.mem_cons.1 hq with rfl | hq
    · exact hfirst _ (List.mem_singleton.2 rfl)
    · exact hall q hq

/-! ## A second pass -/

/-- The rules of a second pass see the text that those of the first one left, unless that takes on carriage
returns on its own. -/
theorem plainText_restore {source output : Text}
    (h : Newline.detect source = .lf → Newline.detect output = .lf) :
    plainText ((Newline.detect source).restore output) = output := by
  cases hsource : Newline.detect source with
  | lf =>
    rw [plainText, Newline.restore, h hsource]
    rfl
  | crlf =>
    by_cases hfeed : '\n' ∈ output
    · exact plainText_addReturns hfeed
    · have hsame : Newline.addReturns output = output := by
        unfold Newline.addReturns
        rw [← List.flatMap_singleton' output, List.flatMap_assoc]
        refine List.flatMap_congr fun c hc => ?_
        have hne : c ≠ '\n' := by
          rintro rfl
          exact hfeed hc
        simp [hne]
      rw [Newline.restore, hsame, plainText, Newline.detect, if_neg fun hall => hfeed hall.1]
      rfl

/-- **Upgrading twice.** Where what a rule exchanges stands apart and the rules before it are at rest, the
rule succeeds, and all of them find nothing on the outcome exactly if the new lines hold nothing for them.
They hold nothing if the rule rewrites for good: where each declaration has one property and one resolver at
most, no list is the only item of a list, and no method has a construct of these rules in its body. A rule
that finds nothing changes nothing. So when each enabled rule in turn leaves inert lines, the upgrade
succeeds, and upgrading its output again gives the same text and reports no change. -/
theorem upgrade_settled (options : UpgradeOptions) (ns source : Text) :
    (∀ (earlier : List Rule) (r : Rule), r ≠ .typeDefinition →
      r.Clear ns earlier (Text.lines source) → (∀ q ∈ earlier, q.finds (Text.lines source) = []) →
        ∃ out, r.apply ns source = .ok out ∧
          out.text = Text.unlines (Lines.replaceRanges (Text.lines source)
            (r.replacements ns (Text.lines source))) ∧
          ((∀ q ∈ r :: earlier, q.finds (Text.lines out.text) = []) ↔
            r.Inert ns earlier (Text.lines source))) ∧
    (∀ (earlier : List Rule) (r : Rule), r ≠ .typeDefinition → r.Apart (Text.lines source) →
      (∀ q ∈ earlier, q.Precedes r ∧ q.finds (Text.lines source) = []) →
        r.Orderly earlier (Text.lines source) → r.Inert ns earlier (Text.lines source)) ∧
    (∀ r : Rule, r.finds (Text.lines source) = [] →
      ∃ skipped, r.apply ns source = .ok ⟨source, 0, skipped⟩) ∧
    ((options.baseNamespace = [] ∨ Scan.ConstantPath options.baseNamespace) →
      Settled options.baseNamespace [] options.rules (plainText source) →
        ∃ first, upgrade options source = .ok first ∧
          ((Newline.detect source = .lf → Newline.detect first.output = .lf) →
            ∃ skipped, upgrade options first.output = .ok ⟨first.output, [], skipped⟩)) := by
  refine ⟨fun earlier r htype hclear hrest => hclear.apply htype hrest,
    fun earlier r htype hapart hrest h => ?_,
    fun r hnil => Rule.apply_of_atRest ns (Rule.atRest_of_finds_eq_nil hnil), fun hns hsettled => ?_⟩
  · exact h.inert (fun line => Text.notMem_of_mem_lines) htype hapart hrest
  obtain ⟨report, hrun, hall⟩ := hsettled.applyRules hns
  refine ⟨_, by rw [upgrade_eq, hrun]; rfl, fun hdetect => ?_⟩
  have hplain : plainText ((Newline.detect source).restore report.output) = report.output := by
    refine plainText_restore fun hsource => ?_
    have hout := hdetect hsource
    rwa [hsource] at hout
  obtain ⟨skipped, hsecond⟩ : ∃ skipped, applyRules options report.output =
      .ok ⟨report.output, [], skipped⟩ :=
    Report.foldlM_of_atRest fun q hq => Rule.atRest_of_finds_eq_nil (hall q hq)
  have hrestore := Newline.restore_normalize ((Newline.detect source).restore report.output)
  refine ⟨skipped, ?_⟩
  rw [upgrade_eq, hplain, hsecond, Except.map, ← hplain]
  exact congrArg (fun text => Except.ok (Report.mk text [] skipped)) hrestore

/-- A definition with something to do for four rules, in blocks inside each other. -/
def legacyPost : Text :=
  ("Post = GraphQL::ObjectType.define do\n  interfaces [Node]\n" ++
    "  field :by, A do\n    argument :c, A\n  end\nend").toList

def classPost : Text :=
  ("class Post < Types::BaseObject\n  implements Node\n" ++
    "  field :by, A, null: true do\n    argument :c, A, required: false\n  end\nend").toList

/-- The lines that the first two rules leave of it. -/
def openedPost : List Line :=
  ["class Post < Types::BaseObject", "  interfaces [Node]", "  field :by, A do", "    argument :c, A",
    "  end", "end"].map String.toList

/-- A list of types in two pairs of brackets. -/
def nestedList : Text := "possible_types [[A]]".toList

theorem upgrade_settled_post :
    Scan.ConstantPath UpgradeOptions.standard.baseNamespace ∧
      Settled UpgradeOptions.standard.baseNamespace [] UpgradeOptions.standard.rules
        (plainText legacyPost) ∧
      upgrade .standard legacyPost = .ok ⟨classPost,
        [(.typeDefinition, 1), (.field, 1), (.argument, 1), (.implements, 1)], []⟩ ∧
      (∃ skipped, upgrade .standard classPost = .ok ⟨classPost, [], skipped⟩) ∧
      Rule.field.Orderly [.name, .typeDefinition] (Text.lines (Text.unlines openedPost)) ∧
      Rule.field.Inert [] [.name, .typeDefinition] (Text.lines (Text.unlines openedPost)) ∧
      Rule.possibleTypes.Clear [] [] (Text.lines nestedList) ∧
      (∃ out, Rule.possibleTypes.apply [] nestedList = .ok out ∧
        ¬∀ q ∈ [Rule.possibleTypes], q.finds (Text.lines out.text) = []) ∧
      ∃ skipped, Rule.field.apply [] nestedList = .ok ⟨nestedList, 0, skipped⟩ := by
  have hns : Scan.ConstantPath UpgradeOptions.standard.baseNamespace :=
    .word (by decide) (List.all_eq_true.1 (by decide))
  have hsettled : Settled UpgradeOptions.standard.baseNamespace [] UpgradeOptions.standard.rules
      (plainText legacyPost) := by decide +kernel
  have hupgrade : upgrade .standard legacyPost = .ok ⟨classPost,
      [(.typeDefinition, 1), (.field, 1), (.argument, 1), (.implements, 1)], []⟩ := by decide +kernel
  obtain ⟨hstep, -, hidle, -⟩ := upgrade_settled .standard [] nestedList
  obtain ⟨-, hinert, -⟩ := upgrade_settled .standard [] (Text.unlines openedPost)
  obtain ⟨-, -, -, htwice⟩ := upgrade_settled .standard [] legacyPost
  obtain ⟨first, hfirst, hsecond⟩ := htwice (.inr hns) hsettled
  obtain rfl := Except.ok.inj (hfirst.symm.trans hupgrade)
  simp only at hsecond
  have hclear : Rule.possibleTypes.Clear [] [] (Text.lines nestedList) := by decide +kernel
  have hlist : ¬Rule.possibleTypes.Inert [] [] (Text.lines nestedList) := by decide +kernel
  have horderly : Rule.field.Orderly [.name, .typeDefinition] (Text.lines (Text.unlines openedPost)) := by
    decide +kernel
  have hfield := hinert [.name, .typeDefinition] .field (by decide) (by decide +kernel) (by decide +kernel)
    horderly
  obtain ⟨out, happly, -, hiff⟩ := hstep [] .possibleTypes (by decide) hclear fun q hq => by
    cases hq
  exact ⟨hns, hsettled, hupgrade, hsecond fun _ => by decide +kernel, horderly, hfield, hclear,
    ⟨out, happly, fun hnil => hlist (hiff.1 hnil)⟩,
    hidle .field (by decide +kernel)⟩

/-- What one pass makes of a list, as a report of one change. -/
def unwrapped (list : String) : Report := ⟨list.toList, [(.possibleTypes, 1)], []⟩

/-- A list of types in two pairs of brackets is unwrapped once by each pass. -/
theorem upgrade_twice_nested :
    ∃ first second, upgrade .standard nestedList = .ok first ∧
      upgrade .standard first.output = .ok second ∧
      second.output ≠ first.output ∧ second.applied ≠ [] := by
  refine ⟨unwrapped "possible_types [A]", unwrapped "possible_types A", ?_, ?_, ?_, ?_⟩
  · decide +kernel
  · decide +kernel
  · decide
  · decide

end SchemaLift
