import SchemaLift.Definition.Header

/-!
# Headers, line by line

Upgrading the headers of a text works on each line for itself: the result has as many lines as the
text, and `newLine` says what stands in place of each.
-/

namespace SchemaLift.DefinitionHeader

/-- What stands in place of the line at `index`. -/
def newLine (ns : Text) (outline : Outline) (line : Line) (index : Nat) : Line :=
  match upgradeLine ns outline index line with
  | .replaced new => new
  | _ => line

theorem zipWith_zipIdx {β : Type} (f : Line → β → Line) (g : Line → Nat → β) (ls : List Line)
    (k : Nat) : List.zipWith f ls ((ls.zipIdx k).map fun e => g e.1 e.2) =
      (ls.zipIdx k).map fun e => f e.1 (g e.1 e.2) := by
  induction ls generalizing k with
  | nil => rfl
  | cons l rest ih => rw [List.zipIdx_cons, List.map_cons, List.zipWith_cons_cons, ih, List.map_cons]

theorem upgradeAll_text (ns source : Text) :
    (upgradeAll ns source).text = Text.unlines ((Text.lines source).zipIdx.map fun e =>
      newLine ns (Outline.ofLines (Text.lines source)) e.1 e.2) := by
  refine congrArg Text.unlines (zipWith_zipIdx (fun line result => match result with
    | .replaced new => new
    | _ => line) (fun line index => upgradeLine ns (Outline.ofLines (Text.lines source)) index line)
    (Text.lines source) 0)

/-- A line is replaced if it is the header of a known definition whose block is closed. -/
theorem upgradeLine_eq_replaced_iff {ns : Text} {outline : Outline} {index : Nat}
    {line new : Line} : upgradeLine ns outline index line = .replaced new ↔
      ∃ h kind, parse? line = some h ∧ DefinitionKind.ofLegacyName? h.kind = some kind ∧
        (outline.matchBlock index).isSome = true ∧ new = h.classLine ns kind := by
  unfold upgradeLine
  constructor
  · intro hr
    split at hr
    · cases hr
    rename_i h hparse
    split at hr
    · cases hr
    rename_i kind hkind
    split at hr
    · rename_i hblock
      exact ⟨h, kind, hparse, hkind, hblock, (LineResult.replaced.inj hr).symm⟩
    · cases hr
  · rintro ⟨h, kind, hparse, hkind, hblock, rfl⟩
    simp only [hparse, hkind, hblock, ↓reduceIte]

theorem upgradeLine_eq_kept {ns : Text} {outline : Outline} {line : Line} {index : Nat}
    (h : parse? line = none) : upgradeLine ns outline index line = .kept := by
  unfold upgradeLine
  rw [h]

theorem newLine_of_parse?_eq_none {ns : Text} {outline : Outline} {line : Line} {index : Nat}
    (h : parse? line = none) : newLine ns outline line index = line := by
  unfold newLine
  rw [upgradeLine_eq_kept h]

/-! ## Reports -/

/-- What is reported for a line. -/
def LineResult.skip? : LineResult → Option Skip
  | .skipped skip => some skip
  | _ => none

theorem skipped_eq (ns source : Text) : (upgradeAll ns source).skipped =
    (Text.lines source).zipIdx.filterMap fun e =>
      (upgradeLine ns (Outline.ofLines (Text.lines source)) e.2 e.1).skip? :=
  List.filterMap_map

/-- Only a header whose block is not closed is reported. -/
theorem eq_atLine_of_skip? {ns : Text} {outline : Outline} {line : Line} {index : Nat} {skip : Skip}
    (h : (upgradeLine ns outline index line).skip? = some skip) :
    skip = Skip.atLine .typeDefinition index line (.unbalancedBlock (Text.trim line)) := by
  unfold upgradeLine at h
  split at h
  · cases h
  split at h
  · cases h
  split at h
  · cases h
  · exact (Option.some.inj h).symm

/-! ## Counts -/

/-- Nothing counts as a change exactly if no line is replaced. -/
theorem changes_eq_zero_iff {ns source : Text} : (upgradeAll ns source).changes = 0 ↔
    ∀ e ∈ (Text.lines source).zipIdx, ∀ new,
      upgradeLine ns (Outline.ofLines (Text.lines source)) e.2 e.1 ≠ .replaced new := by
  unfold upgradeAll
  simp only [List.countP_eq_zero, List.mem_map, forall_exists_index, and_imp,
    forall_apply_eq_imp_iff₂]
  constructor
  · intro h e he new hnew
    have hnot := h e he
    rw [hnew] at hnot
    exact hnot rfl
  · intro h e he
    split
    · rename_i new hnew
      exact absurd hnew (h e he new)
    · exact Bool.false_ne_true

/-- Without a change the text stays. -/
theorem text_of_changes_eq_zero {ns source : Text} (h : (upgradeAll ns source).changes = 0) :
    (upgradeAll ns source).text = source := by
  have hkeep : ∀ e ∈ (Text.lines source).zipIdx,
      newLine ns (Outline.ofLines (Text.lines source)) e.1 e.2 = e.1 := by
    intro e he
    unfold newLine
    split
    · rename_i new hnew
      exact absurd hnew (changes_eq_zero_iff.1 h e he new)
    · rfl
  rw [upgradeAll_text, List.map_congr_left hkeep, List.zipIdx_map_fst, Text.unlines_lines]

theorem upgradeAll_of_changes_eq_zero {ns source : Text} (h : (upgradeAll ns source).changes = 0) :
    upgradeAll ns source = ⟨source, 0, (upgradeAll ns source).skipped⟩ :=
  calc upgradeAll ns source
      = ⟨(upgradeAll ns source).text, (upgradeAll ns source).changes,
          (upgradeAll ns source).skipped⟩ := rfl
    _ = ⟨source, 0, (upgradeAll ns source).skipped⟩ := by rw [text_of_changes_eq_zero h, h]

/-- Lines that are all kept give nothing to skip. -/
theorem skipped_eq_nil {ns source : Text} (h : ∀ e ∈ (Text.lines source).zipIdx,
    upgradeLine ns (Outline.ofLines (Text.lines source)) e.2 e.1 = .kept) :
    (upgradeAll ns source).skipped = [] := by
  unfold upgradeAll
  simp only [List.filterMap_eq_nil_iff, List.mem_map, forall_exists_index, and_imp,
    forall_apply_eq_imp_iff₂]
  intro e he
  rw [h e he]

/-- A text in which only the first line is a header. -/
theorem upgradeAll_first {ns source : Text} {first new : Line} {rest : List Line}
    (hlines : Text.lines source = first :: rest)
    (hfirst : upgradeLine ns (Outline.ofLines (first :: rest)) 0 first = .replaced new)
    (hrest : ∀ line ∈ rest, parse? line = none) :
    upgradeAll ns source = ⟨Text.unlines (new :: rest), 1, []⟩ := by
  have hkept : ∀ e ∈ rest.zipIdx 1,
      upgradeLine ns (Outline.ofLines (first :: rest)) e.2 e.1 = .kept := fun e he =>
    upgradeLine_eq_kept (hrest e.1 (List.fst_mem_of_mem_zipIdx he))
  have hresults : ((first :: rest).zipIdx.map fun e =>
      upgradeLine ns (Outline.ofLines (first :: rest)) e.2 e.1) =
        .replaced new :: (rest.zipIdx 1).map fun _ => .kept := by
    rw [List.zipIdx_cons, List.map_cons, hfirst, List.map_congr_left hkept]
  have hsame := zipWith_zipIdx (fun line result => match result with
    | .replaced new => new
    | _ => line) (fun _ _ => LineResult.kept) rest 1
  rw [List.zipIdx_map_fst] at hsame
  unfold upgradeAll
  simp only [hlines, hresults]
  congr 1
  · exact congrArg (fun ls => Text.unlines (new :: ls)) hsame
  · simp
  · simp

/-- A text without headers is left alone. -/
theorem upgradeAll_idle {source : Text} (h : ∀ line ∈ Text.lines source, parse? line = none)
    (ns : Text) : upgradeAll ns source = ⟨source, 0, []⟩ := by
  have hkept : ∀ e ∈ (Text.lines source).zipIdx,
      upgradeLine ns (Outline.ofLines (Text.lines source)) e.2 e.1 = .kept := fun e he =>
    upgradeLine_eq_kept (h e.1 (List.fst_mem_of_mem_zipIdx he))
  have hchanges : (upgradeAll ns source).changes = 0 := by
    rw [changes_eq_zero_iff]
    intro e he new hnew
    rw [hkept e he] at hnew
    cases hnew
  rw [upgradeAll_of_changes_eq_zero hchanges, skipped_eq_nil hkept]

end SchemaLift.DefinitionHeader
