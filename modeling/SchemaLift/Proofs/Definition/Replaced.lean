import SchemaLift.Proofs.Call.ListCall
import SchemaLift.Proofs.Definition.Comments
import SchemaLift.Upgrade.Pipeline

/-!
# Rules that replace statements

The rules for lists and hooks replace statements by lines that are built from the lines of the statement
alone, so they replace them all at once and succeed on every text (`statements_replaced`). An `implements`
line comes for each item of each list of interfaces.
-/

namespace SchemaLift

/-! ## Rules that replace statements -/

/-- The three rules that replace statements, named for what they replace. -/
inductive StatementRule where
  | interfaces
  | possibleTypes
  | hooks
  deriving DecidableEq, Repr

namespace StatementRule

def rule : StatementRule → Rule
  | interfaces => .implements
  | possibleTypes => .possibleTypes
  | hooks => .classProc

/-- Whether a statement that the rule looks at begins on a line. -/
def starts : StatementRule → Line → Bool
  | interfaces, line => TypeList.startsOn "interfaces" line
  | possibleTypes, line => TypeList.startsOn "possible_types" line
  | hooks, line => (Hook.on? line).isSome

/-- The lines that the rule builds for a statement, if it replaces it. -/
def replacement (w : StatementRule) (lines : List Line) (r : LineRange) : Option (List Line) :=
  match w with
  | interfaces => (TypeList.at? "interfaces" lines r).map TypeList.implementsLines
  | possibleTypes =>
    ((TypeList.at? "possible_types" lines r).filter fun l => !l.call.items.isEmpty).map
      TypeList.possibleTypesLines
  | hooks => Hook.methodAt? lines r

/-- What the rule puts in place of the statements. -/
def changes (w : StatementRule) (lines : List Line) (ranges : List LineRange) : List Lines.Change :=
  ranges.filterMap fun r => (w.replacement lines r).map (r, ·)

/-- A rule for lists replaces the statements that are lists all at once. -/
theorem upgradeAll_eq (rule : Rule) (keyword : String) (wanted : TypeList → Bool)
    (newLines : TypeList → List Line) (source : Text) {changes : List Lines.Change}
    (hchanges : changes = (statementsOn (TypeList.startsOn keyword) (Text.lines source)).filterMap
      fun r => (((TypeList.at? keyword (Text.lines source) r).filter wanted).map newLines).map (r, ·)) :
    ∃ skipped, TypeList.upgradeAll rule keyword wanted newLines source = .ok
      ⟨Text.unlines (Lines.replaceRanges (Text.lines source) changes), changes.length, skipped⟩ := by
  refine ⟨TypeList.skips rule keyword (Text.lines source), ?_⟩
  rw [TypeList.upgradeAll_eq_replaceRanges, hchanges,
    ← TypeList.map_lists rule keyword (Text.lines source) wanted newLines, List.length_map]

/-- The rule replaces the statements all at once, and succeeds on every text. -/
theorem apply_eq (w : StatementRule) (ns source : Text) : ∃ skipped, w.rule.apply ns source = .ok
    ⟨Text.unlines (Lines.replaceRanges (Text.lines source)
        (w.changes (Text.lines source) (statementsOn w.starts (Text.lines source)))),
      (w.changes (Text.lines source) (statementsOn w.starts (Text.lines source))).length,
      skipped⟩ := by
  cases w with
  | interfaces =>
    have hfilter : ∀ o : Option TypeList, o.filter (fun _ => true) = o := by
      intro o
      cases o <;> rfl
    refine upgradeAll_eq .implements "interfaces" (fun _ => true) TypeList.implementsLines source ?_
    simp only [hfilter]
    rfl
  | possibleTypes =>
    exact upgradeAll_eq .possibleTypes "possible_types" (fun l => !l.call.items.isEmpty)
      TypeList.possibleTypesLines source rfl
  | hooks =>
    have happly := Hook.upgradeAll_eq_replaceRanges source
    rw [Hook.methods_eq] at happly
    exact ⟨_, happly⟩

end StatementRule

/-! ## Interfaces that are implemented -/

/-- The line implements an interface: it is indented, and maybe comments stand behind it. -/
def Implements (line : Line) (interface : Text) : Prop :=
  ∃ (indent : Text) (comments : List Text), Text.IsIndent indent ∧ (∀ c ∈ comments, IsComment c) ∧
    line = indent ++ "implements ".toList ++ interface ++ comments.flatMap (' ' :: ·)

theorem TypeList.forall₂_withComments {front : Text} (hfront : Text.IsIndent front)
    {comments : List Text} (hcomments : ∀ c ∈ comments, IsComment c) (items : List Text) :
    List.Forall₂ Implements
      (withComments (items.map fun item => front ++ "implements ".toList ++ item) comments) items := by
  have hbare : ∀ item : Text, Implements (front ++ "implements ".toList ++ item) item := fun item =>
    ⟨front, [], hfront, by rintro c ⟨⟩, by simp⟩
  rcases List.eq_nil_or_concat items with rfl | ⟨init, last, rfl⟩
  · exact .nil
  · have hinit : List.Forall₂ Implements
        (init.map fun item => front ++ "implements ".toList ++ item) init :=
      List.forall₂_map_left_iff.2 (List.forall₂_same.2 fun item _ => hbare item)
    rw [List.concat_eq_append, List.map_append, List.map_singleton, withComments,
      List.getLast?_concat]
    simp only [List.dropLast_concat]
    exact List.rel_append hinit (.cons ⟨front, comments, hfront, hcomments, rfl⟩ .nil)

section

variable {lines : List Line} {ranges : List LineRange}

/-- The statements that are lists of interfaces, with their items. -/
def interfaceLists (lines : List Line) (ranges : List LineRange) : List (LineRange × List Text) :=
  (ranges.filterMap (TypeList.at? "interfaces" lines)).map fun l => (l.range, l.call.items)

theorem mem_interfaceLists (h : Statements (StatementRule.starts .interfaces) lines ranges)
    {r : LineRange} {items : List Text} : (r, items) ∈ interfaceLists lines ranges ↔
      r ∈ ranges ∧ ListCall.Lists "interfaces" (Lines.extent lines r.first r.last) items := by
  rw [← ListCall.exists_call_iff, interfaceLists, List.mem_map]
  constructor
  · rintro ⟨l, hl, hpair⟩
    obtain ⟨r', hr', hat⟩ := List.mem_filterMap.1 hl
    obtain ⟨line, call, -, hcall, rfl⟩ := TypeList.at?_eq_some_iff.1 hat
    obtain ⟨rfl, rfl⟩ := Prod.mk.inj hpair
    exact ⟨hr', call, hcall, rfl⟩
  · rintro ⟨hr, call, hcall, rfl⟩
    obtain ⟨line, hline, -⟩ := h.begins r hr
    exact ⟨_, List.mem_filterMap.2 ⟨r, hr, TypeList.at?_eq_some_iff.2 ⟨line, call, hline, hcall, rfl⟩⟩,
      rfl⟩

/-- The lines that come for a list implement its items. -/
theorem forall₂_interfaceLists (lines : List Line) (ranges : List LineRange) :
    List.Forall₂ (fun change list => change.1 = list.1 ∧ List.Forall₂ Implements change.2 list.2)
      (StatementRule.changes .interfaces lines ranges) (interfaceLists lines ranges) := by
  have hchanges : StatementRule.changes .interfaces lines ranges =
      (ranges.filterMap (TypeList.at? "interfaces" lines)).map fun l =>
        (l.range, TypeList.implementsLines l) := by
    rw [StatementRule.changes, List.map_filterMap]
    refine List.filterMap_congr fun r _ => ?_
    rw [StatementRule.replacement, Option.map_map]
    cases hat : TypeList.at? "interfaces" lines r with
    | none => rfl
    | some l =>
      obtain ⟨line, call, -, -, rfl⟩ := TypeList.at?_eq_some_iff.1 hat
      rfl
  rw [hchanges, interfaceLists, List.forall₂_map_left_iff, List.forall₂_map_right_iff,
    List.forall₂_same]
  intro l hl
  obtain ⟨r, -, hat⟩ := List.mem_filterMap.1 hl
  obtain ⟨line, call, -, hcall, rfl⟩ := TypeList.at?_eq_some_iff.1 hat
  refine ⟨rfl, TypeList.forall₂_withComments (Text.isIndent_indentation line) ?_ call.items⟩
  intro c hc
  exact isComment_of_mem_comments ((ListCall.of_parse? hcall).1 ▸ hc)

end

/-- **Statements are replaced all at once.** On every text, each of the three rules succeeds: the lines
of some of the statements that it looks at, which follow each other and are all that end, give way to the
lines built for them, and all other lines stay. Of the statements for interfaces exactly the calls with a
list are replaced, and what comes for them implements the items of all the lists, item by item. -/
theorem statements_replaced (w : StatementRule) (ns source : Text) :
    ∃ ranges, Statements w.starts (Text.lines source) ranges ∧
      Lines.Sorted (Text.lines source) (w.changes (Text.lines source) ranges) ∧
      (∃ skipped, w.rule.apply ns source = .ok
        ⟨Text.unlines (Lines.replaceRanges (Text.lines source) (w.changes (Text.lines source) ranges)),
          (w.changes (Text.lines source) ranges).length, skipped⟩) ∧
      (w = .interfaces → ∃ lists : List (LineRange × List Text),
        (∀ r items, (r, items) ∈ lists ↔ r ∈ ranges ∧
          ListCall.Lists "interfaces" (Lines.extent (Text.lines source) r.first r.last) items) ∧
        List.Forall₂ (fun change list => change.1 = list.1 ∧ List.Forall₂ Implements change.2 list.2)
          (w.changes (Text.lines source) ranges) lists ∧
        List.Forall₂ Implements ((w.changes (Text.lines source) ranges).flatMap Prod.snd)
          (lists.flatMap Prod.snd)) := by
  have hstatements := statements_statementsOn w.starts (Text.lines source)
  refine ⟨_, hstatements, hstatements.sorted _, w.apply_eq ns source, ?_⟩
  rintro rfl
  have hlists := forall₂_interfaceLists (Text.lines source)
    (statementsOn (StatementRule.starts .interfaces) (Text.lines source))
  refine ⟨_, fun r items => mem_interfaceLists hstatements, hlists, ?_⟩
  exact List.rel_flatMap hlists fun _ _ hsame => hsame.2

/-- Two lists of interfaces, one over several lines and with a comment. -/
def twoLists : Text := "  interfaces [\n    A, # all\n    B(1)]\n\n  interfaces [C]".toList

theorem statements_replaced_twoLists :
    StatementRule.interfaces = .interfaces ∧
      Rule.implements.apply [] twoLists =
        .ok ⟨"  implements A\n  implements B(1) # all\n\n  implements C".toList, 2, []⟩ ∧
      ∃ ranges, ∃ lists : List (LineRange × List Text),
        Statements (StatementRule.starts .interfaces) (Text.lines twoLists) ranges ∧
        (∀ r items, (r, items) ∈ lists ↔ r ∈ ranges ∧
          ListCall.Lists "interfaces" (Lines.extent (Text.lines twoLists) r.first r.last) items) ∧
        List.Forall₂ Implements
          ((StatementRule.changes .interfaces (Text.lines twoLists) ranges).flatMap Prod.snd)
          (lists.flatMap Prod.snd) := by
  obtain ⟨ranges, hstatements, -, -, hinterfaces⟩ := statements_replaced .interfaces [] twoLists
  obtain ⟨lists, hlists, -, himplemented⟩ := hinterfaces rfl
  exact ⟨rfl, by decide +kernel, ranges, lists, hstatements, hlists, himplemented⟩

end SchemaLift
