import SchemaLift.Proofs.Block.Outline
import SchemaLift.Proofs.Definition.HeaderLine
import SchemaLift.Proofs.Definition.Header
import SchemaLift.Proofs.Text.Lines
import SchemaLift.Upgrade.Pipeline

/-!
# Headers and the structure of blocks

A text and what its headers become have the same outline (`ofLines_upgradeAll`), so blocks, statements
and children are found in the same places before and after, and upgrading the headers again finds
nothing to do (`typeDefinition_keepsOutline`).
-/

namespace SchemaLift

namespace DefinitionHeader

variable {h : DefinitionHeader} {kind : DefinitionKind}

/-! ## Whole texts -/

section

variable {ns : Text} (hns : ns = [] ∨ Scan.ConstantPath ns)

/-- What stands in place of a line: the line itself, or the class header of a definition. -/
theorem newLine_cases (ns : Text) (outline : Outline) (line : Line) (index : Nat) :
    newLine ns outline line index = line ∨ ∃ h kind s, parse? line = some h ∧
      DefinitionKind.ofLegacyName? h.kind = some kind ∧ (outline.matchBlock index).isSome = true ∧
      h.WellFormed ∧ Spacing.Blank s ∧ line = h.legacyLine s ∧
      newLine ns outline line index = h.classLine ns kind := by
  unfold newLine
  split
  · rename_i new hnew
    obtain ⟨h, kind, hparse, hkind, hblock, rfl⟩ := upgradeLine_eq_replaced_iff.1 hnew
    obtain ⟨hw, s, hs, hline⟩ := exists_legacyLine hparse
    exact Or.inr ⟨h, kind, s, hparse, hkind, hblock, hw, hs, hline, rfl⟩
  · exact Or.inl rfl

theorem notMem_comment {s : Spacing} (hfeed : '\n' ∉ h.legacyLine s) : '\n' ∉ h.comment := by
  intro hn
  apply hfeed
  simp [legacyLine, hn]

include hns in
/-- A header keeps its shape. -/
theorem ofLine_newLine (outline : Outline) {line : Line} (hfeed : '\n' ∉ line) (index : Nat) :
    LineShape.ofLine (newLine ns outline line index) = LineShape.ofLine line := by
  rcases newLine_cases ns outline line index with hsame | ⟨h, kind, s, -, hkind, -, hw, hs, rfl, hnew⟩
  · rw [hsame]
  · have hcomment := notMem_comment hfeed
    rw [hnew, ofLine_classLine hw hns hcomment, ofLine_legacyLine hw hs hkind hcomment]

include hns in
theorem notMem_newLine (outline : Outline) {line : Line} (hfeed : '\n' ∉ line) (index : Nat) :
    '\n' ∉ newLine ns outline line index := by
  rcases newLine_cases ns outline line index with hsame | ⟨h, kind, s, -, hkind, -, hw, hs, rfl, hnew⟩
  · rwa [hsame]
  · have hcomment := notMem_comment hfeed
    have hindent := hw.indent.notMem
    have hname := hw.name.notMem
    have hsuper := (constantPath_superclass hns kind).notMem
    rw [hnew, classLine]
    split <;> simp [hindent, hname, hsuper, hcomment]

include hns in
theorem lines_upgradeAll (source : Text) :
    Text.lines (upgradeAll ns source).text = (Text.lines source).zipIdx.map fun e =>
      newLine ns (Outline.ofLines (Text.lines source)) e.1 e.2 := by
  rw [upgradeAll_text, Text.lines_unlines]
  · have hne := Text.lines_ne_nil source
    simpa using hne
  · intro new hnew
    obtain ⟨e, he, rfl⟩ := List.mem_map.1 hnew
    have hmem : e.1 ∈ Text.lines source := List.mem_of_getElem? (List.mem_zipIdx_iff_getElem?.1 he)
    exact notMem_newLine hns _ (Text.notMem_of_mem_lines hmem) e.2

include hns in
/-- The outline stays. -/
theorem ofLines_upgradeAll (source : Text) :
    Outline.ofLines (Text.lines (upgradeAll ns source).text) =
      Outline.ofLines (Text.lines source) := by
  have hshape : ∀ e ∈ (Text.lines source).zipIdx,
      LineShape.ofLine (newLine ns (Outline.ofLines (Text.lines source)) e.1 e.2) =
        LineShape.ofLine e.1 := by
    intro e he
    have hmem : e.1 ∈ Text.lines source := List.mem_of_getElem? (List.mem_zipIdx_iff_getElem?.1 he)
    exact ofLine_newLine hns _ (Text.notMem_of_mem_lines hmem) e.2
  calc Outline.ofLines (Text.lines (upgradeAll ns source).text)
      = (Text.lines source).zipIdx.map fun e =>
          LineShape.ofLine (newLine ns (Outline.ofLines (Text.lines source)) e.1 e.2) := by
        rw [lines_upgradeAll hns, Outline.ofLines, List.map_map]
        rfl
    _ = (Text.lines source).zipIdx.map fun e => LineShape.ofLine e.1 :=
        List.map_congr_left hshape
    _ = ((Text.lines source).zipIdx.map Prod.fst).map LineShape.ofLine := by
        rw [List.map_map]
        rfl
    _ = Outline.ofLines (Text.lines source) := by rw [List.zipIdx_map_fst, Outline.ofLines]

include hns in
theorem getElem?_lines_upgradeAll (source : Text) (index : Nat) :
    (Text.lines (upgradeAll ns source).text)[index]? = (Text.lines source)[index]?.map fun line =>
      newLine ns (Outline.ofLines (Text.lines source)) line index := by
  rw [lines_upgradeAll hns, List.getElem?_map, List.getElem?_zipIdx, Option.map_map]
  simp only [Nat.zero_add]
  rfl

/-! ## Upgrading again -/

/-- What a line gets the second time: one that was replaced is kept. -/
def LineResult.settled : LineResult → LineResult
  | .replaced _ => .kept
  | r => r

theorem upgradeLine_newLine (ns : Text) (outline : Outline) (line : Line) (index : Nat) :
    upgradeLine ns outline index (newLine ns outline line index) =
      (upgradeLine ns outline index line).settled := by
  cases hr : upgradeLine ns outline index line with
  | kept =>
    rw [newLine, hr]
    exact hr
  | replaced new =>
    obtain ⟨h, kind, hparse, -, -, rfl⟩ := upgradeLine_eq_replaced_iff.1 hr
    obtain ⟨hw, -⟩ := exists_legacyLine hparse
    rw [newLine, hr]
    exact upgradeLine_eq_kept (parse?_classLine hw ns)
  | skipped skip =>
    rw [newLine, hr]
    exact hr

include hns in
theorem changes_upgradeAll (source : Text) :
    (upgradeAll ns (upgradeAll ns source).text).changes = 0 := by
  rw [changes_eq_zero_iff]
  rintro ⟨line, index⟩ he new
  have hline : (Text.lines (upgradeAll ns source).text)[index]? = some line :=
    List.mem_zipIdx_iff_getElem?.1 he
  rw [getElem?_lines_upgradeAll hns] at hline
  obtain ⟨old, -, rfl⟩ := Option.map_eq_some_iff.1 hline
  rw [ofLines_upgradeAll hns]
  show upgradeLine ns _ index _ ≠ _
  rw [upgradeLine_newLine]
  cases upgradeLine ns (Outline.ofLines (Text.lines source)) index old <;>
    exact LineResult.noConfusion

include hns in
theorem skipped_upgradeAll (source : Text) :
    (upgradeAll ns (upgradeAll ns source).text).skipped = (upgradeAll ns source).skipped := by
  rw [skipped_eq, skipped_eq, ofLines_upgradeAll hns, lines_upgradeAll hns]
  have hzip : ((Text.lines source).zipIdx.map fun e => newLine ns
      (Outline.ofLines (Text.lines source)) e.1 e.2).zipIdx =
        (Text.lines source).zipIdx.map fun e =>
          (newLine ns (Outline.ofLines (Text.lines source)) e.1 e.2, e.2) := by
    refine List.ext_getElem? fun i => ?_
    simp only [List.getElem?_zipIdx, List.getElem?_map, Option.map_map, Nat.zero_add]
    rfl
  rw [hzip, List.filterMap_map]
  apply List.filterMap_congr
  rintro ⟨line, index⟩ -
  simp only [Function.comp_apply, upgradeLine_newLine]
  cases upgradeLine ns (Outline.ofLines (Text.lines source)) index line <;> rfl

end

end DefinitionHeader

/-- Upgrading the headers of a text keeps its block structure. The result has as many lines, and
only headers of a known definition whose block is closed are other lines; every line keeps its shape,
so blocks, statements and children are found as before. Doing it again changes nothing and skips the
same lines. -/
theorem Rule.typeDefinition_keepsOutline {ns : Text} (hns : ns = [] ∨ Scan.ConstantPath ns)
    (source : Text) : ∃ out, Rule.typeDefinition.apply ns source = .ok out ∧
      (Text.lines out.text).length = (Text.lines source).length ∧
      (∀ index : Nat, (Text.lines out.text)[index]? ≠ (Text.lines source)[index]? →
        ∃ line h kind b, (Text.lines source)[index]? = some line ∧
          DefinitionHeader.parse? line = some h ∧
          DefinitionKind.ofLegacyName? h.kind = some kind ∧
          (Outline.ofLines (Text.lines source)).matchBlock index = some b) ∧
      (∀ index : Nat, (Text.lines out.text)[index]?.map LineShape.ofLine =
        (Text.lines source)[index]?.map LineShape.ofLine) ∧
      (let before := Outline.ofLines (Text.lines source)
       let after := Outline.ofLines (Text.lines out.text)
       (∀ index : Nat, after.opensBlock index = before.opensBlock index) ∧
        (∀ index : Nat, after.matchBlock index = before.matchBlock index) ∧
        (∀ index : Nat, after.statementEnd index = before.statementEnd index) ∧
        (∀ index : Nat, after.headerEnd index = before.headerEnd index) ∧
        ∀ b, after.children b = before.children b) ∧
      Rule.typeDefinition.apply ns out.text = .ok ⟨out.text, 0, out.skipped⟩ := by
  have houtline := DefinitionHeader.ofLines_upgradeAll hns source
  refine ⟨DefinitionHeader.upgradeAll ns source, rfl, ?_, ?_, ?_, ?_, ?_⟩
  · rw [← Outline.length_ofLines, houtline, Outline.length_ofLines]
  · intro index hne
    rw [DefinitionHeader.getElem?_lines_upgradeAll hns] at hne
    cases hline : (Text.lines source)[index]? with
    | none => exact absurd (by rw [hline]; rfl) hne
    | some line =>
      rw [hline, Option.map_some] at hne
      rcases DefinitionHeader.newLine_cases ns (Outline.ofLines (Text.lines source)) line index with
        hsame | ⟨h, kind, -, hparse, hkind, hblock, -⟩
      · exact absurd (by rw [hsame]) hne
      · obtain ⟨b, hb⟩ := Option.isSome_iff_exists.1 hblock
        exact ⟨line, h, kind, b, rfl, hparse, hkind, hb⟩
  · intro index
    rw [← List.getElem?_map, ← List.getElem?_map]
    exact congrArg (·[index]?) houtline
  · simp only [houtline, implies_true, and_self]
  · rw [Rule.apply, DefinitionHeader.upgradeAll_of_changes_eq_zero
      (DefinitionHeader.changes_upgradeAll hns source), DefinitionHeader.skipped_upgradeAll hns]

/-- The block of the first definition stays open, so only the second one becomes a class. -/
theorem Rule.typeDefinition_keepsOutline_unbalanced : ∃ out,
    Rule.typeDefinition.apply "Types".toList
      ("A = GraphQL::ObjectType.define do\nB = GraphQL::EnumType.define do # see \\\n" ++
        "end").toList = .ok out ∧
      out.text = ("A = GraphQL::ObjectType.define do\nclass B < Types::BaseEnum # see \\\n" ++
        "end").toList ∧
      (Text.lines out.text).length = 3 ∧ out.skipped.length = 1 ∧
      Rule.typeDefinition.apply "Types".toList out.text = .ok ⟨out.text, 0, out.skipped⟩ := by
  have hns : Scan.ConstantPath "Types".toList :=
    .word (by decide) (List.all_eq_true.1 (by decide))
  obtain ⟨out, hout, hlength, -, -, -, hagain⟩ := typeDefinition_keepsOutline (Or.inr hns)
    ("A = GraphQL::ObjectType.define do\nB = GraphQL::EnumType.define do # see \\\n" ++
      "end").toList
  refine ⟨out, hout, ?_, hlength, ?_, hagain⟩
  · obtain rfl := Except.ok.inj hout
    decide
  · obtain rfl := Except.ok.inj hout
    decide

end SchemaLift
