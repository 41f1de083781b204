import SchemaLift.Proofs.Definition.HeaderShape
import SchemaLift.Proofs.Definition.NameEdits
import SchemaLift.Proofs.Upgrade.Found
import SchemaLift.Proofs.Upgrade.Rest

/-!
# What a rule changes

Every rule replaces ranges of lines, all at once if they share no line (`Rule.apply_replacements`). The new
lines are cut at their line feeds, since the next rule sees them so. With that, what a rule finds in the
outcome of another is settled by what it found before and by the new lines (`Rule.finds_apply`).
-/

namespace SchemaLift

open Outline Walk

namespace Lines

/-- What comes in place of the lines of a text that do not stay as they are, if each line gives way to
the lines that `f` says. -/
def lineChanges (f : Line × Nat → List Line) (ls : List Line) : List Change :=
  ls.zipIdx.filterMap fun entry => if f entry = [entry.1] then none else some (⟨entry.2, entry.2⟩, f entry)

section

variable {f : Line × Nat → List Line} {ls : List Line}

theorem mem_lineChanges {c : Change} : c ∈ lineChanges f ls ↔ ∃ line index, ls[index]? = some line ∧
    f (line, index) ≠ [line] ∧ (⟨index, index⟩, f (line, index)) = c := by
  unfold lineChanges
  rw [List.mem_filterMap]
  constructor
  · rintro ⟨⟨line, index⟩, he, hc⟩
    split at hc
    · cases hc
    · rename_i hne
      exact ⟨line, index, List.mem_zipIdx_iff_getElem?.1 he, hne, Option.some.inj hc⟩
  · rintro ⟨line, index, hline, hne, rfl⟩
    exact ⟨(line, index), List.mem_zipIdx_iff_getElem?.2 hline, if_neg hne⟩

theorem sorted_lineChanges (f : Line × Nat → List Line) (ls : List Line) :
    Sorted ls (lineChanges f ls) := by
  refine ⟨fun c hc => ?_, ?_⟩
  · obtain ⟨line, index, hline, -, rfl⟩ := mem_lineChanges.1 hc
    exact ⟨Nat.le_refl index, (List.getElem?_eq_some_iff.1 hline).1⟩
  · have hindices : ls.zipIdx.Pairwise fun a b => a.2 < b.2 := by
      rw [← List.pairwise_map, List.zipIdx_map_snd]
      exact List.pairwise_lt_range'
    refine hindices.filterMap _ fun a b hlt c hc d hd => ?_
    split at hc
    · cases hc
    split at hd
    · cases hd
    · obtain rfl := Option.some.inj hc
      obtain rfl := Option.some.inj hd
      exact hlt

/-- Giving every line its own replacement is replacing the lines that do not stay. -/
theorem replaceRanges_lineChanges (f : Line × Nat → List Line) (ls : List Line) :
    replaceRanges ls (lineChanges f ls) = ls.zipIdx.flatMap f := by
  unfold replaceRanges
  refine List.flatMap_congr fun entry hentry => ?_
  obtain ⟨line, index⟩ := entry
  have hline := List.mem_zipIdx_iff_getElem?.1 hentry
  have hunique : ∀ c ∈ lineChanges f ls, c.1.contains index = true →
      c = (⟨index, index⟩, f (line, index)) ∧ f (line, index) ≠ [line] := by
    intro c hc hin
    obtain ⟨line', index', hline', hne, rfl⟩ := mem_lineChanges.1 hc
    obtain rfl : index' = index := by
      have hbounds := LineRange.contains_iff.1 hin
      exact Nat.le_antisymm hbounds.1 hbounds.2
    rw [hline] at hline'
    obtain rfl := Option.some.inj hline'
    exact ⟨rfl, hne⟩
  unfold replaceLine
  cases hfind : (lineChanges f ls).find? (·.1.contains index) with
  | none =>
    by_contra hne
    have hmem : ((⟨index, index⟩, f (line, index)) : Change) ∈ lineChanges f ls :=
      mem_lineChanges.2 ⟨line, index, hline, fun h => hne h.symm, rfl⟩
    exact List.find?_eq_none.1 hfind _ hmem
      (LineRange.contains_iff.2 ⟨Nat.le_refl index, Nat.le_refl index⟩)
  | some c =>
    have hin : c.1.contains index = true := by simpa using List.find?_some hfind
    obtain ⟨rfl, -⟩ := hunique c (List.mem_of_find?_eq_some hfind) hin
    exact if_pos rfl

end

/-- A change with its new lines cut at their line feeds. -/
def recut (c : Change) : Change := (c.1, c.2.flatMap Text.lines)

/-- A changed text is read back with the new lines cut. -/
theorem flatMap_lines_replaceRanges {ls : List Line} (hls : ∀ line ∈ ls, '\n' ∉ line)
    (changes : List Change) :
    (replaceRanges ls changes).flatMap Text.lines = replaceRanges ls (changes.map recut) := by
  unfold replaceRanges
  rw [List.flatMap_assoc]
  refine List.flatMap_congr fun entry hentry => ?_
  have hline : '\n' ∉ entry.1 := hls _ (List.fst_mem_of_mem_zipIdx hentry)
  unfold replaceLine
  rw [List.find?_map]
  have hcontains : ((fun c : Change => c.1.contains entry.2) ∘ recut) = fun c => c.1.contains entry.2 := rfl
  rw [hcontains]
  cases changes.find? (·.1.contains entry.2) with
  | none => simp [Text.lines_of_notMem hline]
  | some c =>
    simp only [Option.map_some, recut]
    split
    · rfl
    · rfl

theorem Sorted.recut {ls : List Line} {changes : List Change} (h : Sorted ls changes) :
    Sorted ls (changes.map recut) := by
  refine ⟨fun c hc => ?_, List.pairwise_map.2 h.sorted⟩
  obtain ⟨d, hd, rfl⟩ := List.mem_map.1 hc
  exact h.inside d hd

end Lines

/-! ## Nothing found -/

namespace NameStatement

theorem mem_names_of_child {ls : List Line} {index : Nat} {line : Line} {header : ClassHeader} {b : Block}
    {child : LineRange} {name : Text} (hline : ls[index]? = some line)
    (hheader : ClassHeader.parse? line = some header)
    (hbase : DefinitionKind.isBaseClass header.superclass = true)
    (hb : (ofLines ls).matchBlock index = some b) (hchild : child ∈ (ofLines ls).children b)
    (hname : ls[child.first]?.bind parse? = some name) : child.first ∈ names ls := by
  obtain ⟨hstart, -, hstop⟩ := matchBlock_bounds hb
  rw [length_ofLines] at hstop
  rw [children_eq hstop.le] at hchild
  obtain ⟨j, hj, hfirst⟩ := List.mem_filterMap.1 hchild
  split at hfirst
  · rename_i hstarts
    obtain rfl := Option.some.inj hfirst
    have hlt := (mem_stops_bounds hj).2
    rw [Nat.zero_add] at hlt
    have hhead : ((bodyOf ls b).drop j).head? = ls[b.start + 1 + j]? := by
      rw [List.head?_drop, bodyOf, List.getElem?_take_of_lt, List.getElem?_drop]
      rw [bodyOf, List.length_take] at hlt
      omega
    have hdeclares : ((bodyOf ls b).drop j).head?.any declares = true := by
      obtain ⟨l, hl, hparse⟩ := Option.bind_eq_some_iff.1 hname
      rw [hhead, hl, Option.any_some, declares, hparse, Option.isSome_some]
    have hclass : (ls.drop index).head?.any opensClass = true := by
      rw [List.head?_drop, hline, Option.any_some, opensClass, hheader, Option.any_some, hbase]
    refine mem_names.2 ⟨index, mem_classNames.2 ⟨hclass, b, hb, j, List.mem_filter.2 ⟨hj, ?_⟩, ?_⟩⟩
    · rw [hstarts, hdeclares, Bool.true_and]
    · show j + (index + 1) = b.start + 1 + j
      omega
  · cases hfirst

/-- The line of an edit does not stay. -/
theorem fate_ne_self {ls : List Line} {todo : List NameEdit} {edit : NameEdit} {line : Line}
    (hedit : edit ∈ todo) (hname : (parse? line).isSome = true) :
    fate ls todo (line, edit.index) ≠ [line] := by
  rcases fate_cases todo line edit.index with hnone | ⟨-, hfate⟩ | ⟨hno, -⟩
  · rw [hnone]
    exact (List.cons_ne_nil line []).symm
  · obtain ⟨name, hname⟩ := Option.isSome_iff_exists.1 hname
    obtain ⟨indent, rest, -, -, hline, hrenamed⟩ := exists_renamed hname
    intro hsame
    -- the keyword of the renamed statement is longer
    have hlength := congrArg List.length ((List.cons.inj (hfate.symm.trans hsame)).1.symm.trans hrenamed)
    rw [hline] at hlength
    simp only [List.length_append] at hlength
    exact absurd (Nat.add_right_cancel (Nat.add_left_cancel hlength)) (by decide)
  · exact absurd rfl (hno edit hedit)

end NameStatement

namespace Rule

/-- A rule that finds nothing is at rest. -/
theorem atRest_of_finds_eq_nil {r : Rule} {source : Text} (h : r.finds (Text.lines source) = []) :
    r.AtRest source := by
  have hnone : ∀ i, i ∉ r.finds (Text.lines source) := List.eq_nil_iff_forall_not_mem.1 h
  rcases r.kinds with ⟨e, he, rfl⟩ | ⟨w, rfl⟩ | rfl | rfl
  · refine (atRest_editor he).2 fun d edit new hd hedit hnew => ?_
    have hplaced := Declaration.placed_of_mem_scan hd
    rw [Declaration.replacement_eq he hplaced hedit] at hnew
    obtain ⟨w, hw, -⟩ := Option.map_eq_some_iff.1 hnew
    rw [finds_editor he] at hnone
    refine absurd (List.mem_map_of_mem (List.mem_filter.2 ⟨Declaration.mem_declarations.2 hd, ?_⟩))
      (hnone d.start)
    rw [hw, Option.isSome_some]
  · obtain ⟨skipped, happly⟩ := w.apply_eq [] source
    rw [finds_statement, StatementRule.replaced, List.map_eq_nil_iff] at h
    refine (atRest_of_unchanged happly ?_).1
    rw [h, List.length_nil]
  · intro index line header hline hparse hkind
    by_contra hne
    refine hnone index (DefinitionHeader.mem_upgraded_iff.2 ⟨line, header, hline, hparse, hkind, ?_⟩)
    exact Option.isSome_iff_ne_none.2 hne
  · intro index line header b child hline hheader hbase hb hchild
    by_contra hne
    obtain ⟨name, hname⟩ := Option.ne_none_iff_exists'.1 hne
    exact hnone _ (NameStatement.mem_names_of_child hline hheader hbase hb hchild hname)

/-! ## What a rule puts in place -/

/-- What a rule puts in place of ranges of lines. -/
def replacements (ns : Text) (ls : List Line) : Rule → List Lines.Change
  | .typeDefinition => Lines.lineChanges (fun e => [DefinitionHeader.newLine ns (ofLines ls) e.1 e.2]) ls
  | .name => Lines.lineChanges (NameStatement.fate ls (NameStatement.edits ls)) ls
  | .implements => StatementRule.interfaces.changes ls (statementsOn StatementRule.interfaces.starts ls)
  | .possibleTypes =>
    StatementRule.possibleTypes.changes ls (statementsOn StatementRule.possibleTypes.starts ls)
  | .classProc => StatementRule.hooks.changes ls (statementsOn StatementRule.hooks.starts ls)
  | r => r.editor?.elim [] (·.rewrites ls)

/-- What a rule puts in place of ranges of lines, as the next rule reads it. -/
def changes (ns : Text) (ls : List Line) (r : Rule) : List Lines.Change :=
  (r.replacements ns ls).map Lines.recut

/-- No line belongs to two constructs that the rule edits. -/
def Apart (ls : List Line) : Rule → Prop
  | .typeDefinition | .implements | .possibleTypes | .classProc => True
  | .name => ((NameStatement.edits ls).map NameStatement.NameEdit.index).Nodup
  | r => ∀ e ∈ r.editor?, (Declaration.declarations ls e.keyword).Pairwise fun a b => a.range.Apart b.range

instance (ls : List Line) : (r : Rule) → Decidable (r.Apart ls)
  | .typeDefinition | .implements | .possibleTypes | .classProc => inferInstanceAs (Decidable True)
  | .name => inferInstanceAs (Decidable (List.Nodup _))
  | .field | .argument | .inputField | .connection | .propertyToMethod | .resolveProc =>
    inferInstanceAs (Decidable (∀ e ∈ editor? _, List.Pairwise _ _))

theorem replacements_editor {e : Declaration.Editor} (he : e ∈ Declaration.editors) (ns : Text)
    (ls : List Line) : e.rule.replacements ns ls = e.rewrites ls := by
  rcases Declaration.editors_cases he with ⟨_ | _ | _ | _, rfl⟩ | rfl | rfl <;> rfl

theorem replacements_statement (w : StatementRule) (ns : Text) (ls : List Line) :
    w.rule.replacements ns ls = w.changes ls (statementsOn w.starts ls) := by
  cases w <;> rfl

theorem apart_editor {e : Declaration.Editor} (he : e ∈ Declaration.editors) {ls : List Line} :
    e.rule.Apart ls ↔
      (Declaration.declarations ls e.keyword).Pairwise fun a b => a.range.Apart b.range := by
  rcases Declaration.editors_cases he with ⟨_ | _ | _ | _, rfl⟩ | rfl | rfl <;>
    exact ⟨fun h => h _ rfl, fun h e he => by obtain rfl := Option.some.inj he; exact h⟩

theorem exists_recut {ns : Text} {ls : List Line} {r : Rule} {i : Nat}
    (h : ∃ c ∈ r.replacements ns ls, c.1.contains i = true) :
    ∃ c ∈ r.changes ns ls, c.1.contains i = true := by
  obtain ⟨c, hc, hin⟩ := h
  exact ⟨_, List.mem_map_of_mem hc, hin⟩

/-- A rule changes all that it finds; of the names in a class only the first one counts. -/
theorem exists_change {ns : Text} {ls : List Line} {r : Rule} (htype : r ≠ .typeDefinition)
    (hname : r = .name → ∀ i ∈ NameStatement.names ls, ∃ edit ∈ NameStatement.edits ls, edit.index = i)
    {i : Nat} (hi : i ∈ r.finds ls) : ∃ c ∈ r.changes ns ls, c.1.contains i = true := by
  refine exists_recut ?_
  rcases r.kinds with ⟨e, he, rfl⟩ | ⟨w, rfl⟩ | rfl | rfl
  · rw [finds_editor he] at hi
    obtain ⟨d, hd, rfl⟩ := List.mem_map.1 hi
    obtain ⟨hd, hrewrite⟩ := List.mem_filter.1 hd
    obtain ⟨w, hw⟩ := Option.isSome_iff_exists.1 hrewrite
    have hplaced := Declaration.placed_of_mem_scan (Declaration.mem_declarations.1 hd)
    rw [replacements_editor he]
    refine ⟨(d.range, w.lines d ls), List.mem_filterMap.2 ⟨d, hd, by rw [hw, Option.map_some]⟩, ?_⟩
    exact LineRange.contains_iff.2 ⟨Nat.le_refl d.start, hplaced.start_le_stop⟩
  · rw [finds_statement] at hi
    obtain ⟨c, hc, rfl⟩ := List.mem_map.1 hi
    rw [replacements_statement]
    have hsorted : Lines.Sorted ls (w.changes ls (statementsOn w.starts ls)) :=
      (statements_statementsOn w.starts ls).sorted _
    exact ⟨c, hc, LineRange.contains_iff.2 ⟨Nat.le_refl _, (hsorted.inside c hc).1⟩⟩
  · exact absurd rfl htype
  · obtain ⟨edit, hedit, rfl⟩ := hname rfl i hi
    obtain ⟨line, hline, hdeclares⟩ := NameStatement.parse?_of_mem_edits hedit
    refine ⟨_, Lines.mem_lineChanges.2 ⟨line, edit.index, hline, ?_, rfl⟩,
      LineRange.contains_iff.2 ⟨Nat.le_refl _, Nat.le_refl _⟩⟩
    exact NameStatement.fate_ne_self hedit hdeclares

/-- A rule whose constructs share no line replaces them all at once. -/
theorem apply_replacements (ns source : Text) {r : Rule} (h : r.Apart (Text.lines source)) :
    Lines.Sorted (Text.lines source) (r.replacements ns (Text.lines source)) ∧
      ∃ changes skipped, r.apply ns source =
        .ok ⟨Text.unlines (Lines.replaceRanges (Text.lines source)
          (r.replacements ns (Text.lines source))), changes, skipped⟩ := by
  rcases r.kinds with ⟨e, he, rfl⟩ | ⟨w, rfl⟩ | rfl | rfl
  · have hapart := (apart_editor he).1 h
    obtain ⟨plan, skipped, hplan, hreplacement, happly⟩ := Declaration.Editor.exists_plan he ns source hapart
    rw [replacements_editor he, ← Declaration.Editor.replacements_eq hplan hreplacement]
    refine ⟨?_, _, skipped, happly⟩
    rw [Declaration.Editor.replacements_eq hplan hreplacement]
    exact Declaration.Editor.sorted_rewrites hapart
  · rw [replacements_statement]
    obtain ⟨skipped, happly⟩ := w.apply_eq ns source
    exact ⟨(statements_statementsOn w.starts (Text.lines source)).sorted _, _, skipped, happly⟩
  · refine ⟨Lines.sorted_lineChanges _ _, (DefinitionHeader.upgradeAll ns source).changes,
      (DefinitionHeader.upgradeAll ns source).skipped, ?_⟩
    rw [replacements, Lines.replaceRanges_lineChanges, ← List.map_eq_flatMap,
      ← DefinitionHeader.upgradeAll_text]
    rfl
  · refine ⟨Lines.sorted_lineChanges _ _, (NameStatement.edits (Text.lines source)).length, [], ?_⟩
    show NameStatement.upgradeAll source = _
    rw [NameStatement.upgradeAll_eq, NameStatement.foldlM_upwards h, replacements,
      Lines.replaceRanges_lineChanges]
    rfl

/-- What a rule finds in lines that are put together to a text. -/
theorem finds_unlines (q : Rule) (edited : List Line) :
    q.finds (Text.lines (Text.unlines edited)) = q.finds (edited.flatMap Text.lines) := by
  cases edited with
  | nil => cases q <;> decide +kernel
  | cons line rest => rw [Text.lines_unlines_flatMap (List.cons_ne_nil line rest)]

/-- **A rule after a rule.** Where the constructs that a rule edits share no line and another rule overlooks
the lines that it exchanges, that other rule finds nothing in the outcome exactly if all that it found stood
in these lines and the new lines, each stretch of them taken alone, hold nothing for it. -/
theorem finds_apply (ns source : Text) {r : Rule} (h : r.Apart (Text.lines source)) :
    ∃ out, r.apply ns source = .ok out ∧
      out.text = Text.unlines (Lines.replaceRanges (Text.lines source)
        (r.replacements ns (Text.lines source))) ∧
      ∀ q : Rule, (∀ c ∈ r.changes ns (Text.lines source), q.Tolerates (Text.lines source) c) →
        (q.finds (Text.lines out.text) = [] ↔
          (∀ i ∈ q.finds (Text.lines source),
            ∃ c ∈ r.changes ns (Text.lines source), c.1.contains i = true) ∧
          ∀ c ∈ r.changes ns (Text.lines source), q.finds c.2 = []) := by
  obtain ⟨hsorted, changes, skipped, happly⟩ := apply_replacements ns source h
  refine ⟨_, happly, rfl, fun q hq => ?_⟩
  rw [finds_unlines, Lines.flatMap_lines_replaceRanges fun line => Text.notMem_of_mem_lines]
  exact finds_replaceRanges hsorted.recut hq

end Rule

end SchemaLift
