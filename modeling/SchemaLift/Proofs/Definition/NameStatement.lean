import SchemaLift.Definition.GraphqlName
import SchemaLift.Proofs.Text.Lines
import SchemaLift.Proofs.Text.Match
import SchemaLift.Proofs.Token.Stream

/-!
# Lines that declare a name

A line is read as `name "X"` character by character, but the scanner agrees: its first code token is
the identifier `name` (`startsWithName_of_parse?`). The edits of a text are edits of such lines
(`parse?_of_mem_edits`), and each changes nothing above its line (`take_apply`).
-/

namespace SchemaLift

namespace NameStatement

/-- What may follow the keyword: white space, a parenthesis or a quote. -/
theorem delimits_of_quoted? {s : Text}
    (h : (quoted? (Text.afterBlank ((Text.afterWord? "(" (Text.afterBlank s)).getD
      (Text.afterBlank s)))).isSome = true) : Scan.Delimits s := by
  cases s with
  | nil => exact Scan.delimits_nil
  | cons c cs =>
    by_cases hc : Text.isBlankChar c = true
    · exact Scan.delimits_of_isBlankChar hc cs
    have hblank : Text.afterBlank (c :: cs) = c :: cs := by
      unfold Text.afterBlank Text.trimStart
      rw [List.dropWhile_cons, if_neg hc]
    rw [hblank] at h
    by_cases hparen : c = '('
    · subst hparen
      exact Scan.delimits_cons (by decide) cs
    have hnone : Text.afterWord? "(" (c :: cs) = none := by
      unfold Text.afterWord?
      rw [if_neg]
      rintro ⟨t, ht⟩
      exact hparen (List.cons.inj ht).1.symm
    rw [hnone, Option.getD_none, hblank] at h
    unfold quoted? at h
    split at h
    · rename_i heq
      cases heq
      exact Scan.delimits_cons (by decide) _
    · rename_i heq
      cases heq
      exact Scan.delimits_cons (by decide) _
    · cases h

/-- A line that declares a name starts with the identifier `name`. -/
theorem startsWithName_of_parse? {line : Line} (h : (parse? line).isSome = true) :
    (tokenizeCode line).head?.any (·.isWord "name") = true := by
  obtain ⟨name, hname⟩ := Option.isSome_iff_exists.1 h
  unfold parse? at hname
  simp only [Option.bind_eq_bind, Option.bind_eq_some_iff] at hname
  obtain ⟨s, hword, ⟨name', s'⟩, hquoted, -⟩ := hname
  have hs : Scan.Delimits s := by
    apply delimits_of_quoted?
    rw [hquoted]
    rfl
  have hline : line = line.takeWhile Text.isBlankChar ++ ("name".toList ++ s) := by
    rw [← Text.eq_append_of_afterWord? hword]
    exact (List.takeWhile_append_dropWhile).symm
  have hid : Scan.Identifier "name".toList :=
    .plain (by decide) (by decide) (List.all_eq_true.1 (by decide)) (by decide)
  rw [hline, tokenizeCode_blank_append (fun c hc => List.mem_takeWhile_imp hc),
    tokenizeCode_identifier_append hid hs]
  rfl

/-! ## Edits -/

/-- The edits that a text asks for, from top to bottom of their classes. -/
def edits (lines : List Line) : List NameEdit :=
  lines.zipIdx.filterMap fun (line, index) => editAt lines (Outline.ofLines lines) index line

/-- The edits in the order in which they are carried out. -/
def upwards (lines : List Line) : List NameEdit :=
  (edits lines).mergeSort fun a b => b.index ≤ a.index

theorem upgradeAll_eq (source : Text) :
    upgradeAll source = ((upwards (Text.lines source)).foldlM apply (Text.lines source)).map
      fun edited => ⟨Text.unlines edited, (edits (Text.lines source)).length, []⟩ := rfl

/-- Without an edit the text stays. -/
theorem upgradeAll_of_edits_eq_nil {source : Text} (h : edits (Text.lines source) = []) :
    upgradeAll source = .ok ⟨source, 0, []⟩ := by
  rw [upgradeAll_eq, upwards, h, List.mergeSort_nil]
  simp only [List.foldlM_nil, pure, Except.pure, Except.map, Text.unlines_lines, List.length_nil]

/-- What an edit rests on: a class over a base class with a name statement among its own statements,
on the line that is edited. -/
theorem editAt_eq_some {lines : List Line} {outline : Outline} {index : Nat} {line : Line}
    {edit : NameEdit} (h : editAt lines outline index line = some edit) :
    ∃ header block child name, ClassHeader.parse? line = some header ∧
      DefinitionKind.isBaseClass header.superclass = true ∧
      outline.matchBlock index = some block ∧ child ∈ outline.children block ∧
      lines[child.first]?.bind parse? = some name ∧ edit.index = child.first := by
  unfold editAt at h
  simp only [Option.bind_eq_bind, Option.bind_eq_some_iff] at h
  obtain ⟨header, hheader, h⟩ := h
  by_cases hbase : DefinitionKind.isBaseClass header.superclass = true
  · simp only [hbase, Bool.not_true, Bool.false_eq_true, ↓reduceIte, Option.bind_eq_some_iff] at h
    obtain ⟨block, hblock, ⟨target, declared⟩, htarget, h⟩ := h
    obtain ⟨child, hchild, hmap⟩ := List.exists_of_findSome?_eq_some htarget
    obtain ⟨name, hname, heq⟩ := Option.map_eq_some_iff.1 hmap
    obtain ⟨rfl, rfl⟩ := Prod.mk.inj heq
    refine ⟨header, block, child, name, hheader, hbase, hblock, hchild, hname, ?_⟩
    obtain rfl := Option.some.inj h
    split <;> rfl
  · simp [hbase] at h

theorem editAt_isSome {lines : List Line} {outline : Outline} {index : Nat} {line : Line}
    {header : ClassHeader} (hheader : ClassHeader.parse? line = some header)
    (hbase : DefinitionKind.isBaseClass header.superclass = true) {block : Block}
    (hblock : outline.matchBlock index = some block) {child : LineRange}
    (hchild : child ∈ outline.children block) {name : Text}
    (hname : lines[child.first]?.bind parse? = some name) :
    (editAt lines outline index line).isSome = true := by
  have hfound : ((outline.children block).findSome? fun child =>
      (lines[child.first]?.bind parse?).map fun declared => (child.first, declared)).isSome =
        true := by
    rw [List.findSome?_isSome_iff]
    exact ⟨child, hchild, by rw [hname]; rfl⟩
  obtain ⟨found, hfound⟩ := Option.isSome_iff_exists.1 hfound
  unfold editAt
  simp only [hheader, hbase, hblock, hfound, bind, Option.bind_some, Bool.not_true,
    Bool.false_eq_true, ↓reduceIte]
  rfl

theorem parse?_of_mem_edits {lines : List Line} {edit : NameEdit} (h : edit ∈ edits lines) :
    ∃ line, lines[edit.index]? = some line ∧ (parse? line).isSome = true := by
  obtain ⟨⟨line, index⟩, -, hedit⟩ := List.mem_filterMap.1 h
  obtain ⟨-, -, child, name, -, -, -, -, hname, hindex⟩ := editAt_eq_some hedit
  obtain ⟨target, htarget, hparse⟩ := Option.bind_eq_some_iff.1 hname
  refine ⟨target, ?_, ?_⟩
  · rw [hindex, htarget]
  · rw [hparse]
    rfl

/-- A text without name statements is left alone. -/
theorem upgradeAll_idle {source : Text} (h : ∀ line ∈ Text.lines source, parse? line = none) :
    upgradeAll source = .ok ⟨source, 0, []⟩ := by
  apply upgradeAll_of_edits_eq_nil
  rw [List.eq_nil_iff_forall_not_mem]
  intro edit hedit
  obtain ⟨line, hline, hname⟩ := parse?_of_mem_edits hedit
  rw [h line (List.mem_of_getElem? hline)] at hname
  cases hname

/-- An edit changes no line above its own. -/
theorem take_apply {lines out : List Line} {edit : NameEdit} (h : apply lines edit = .ok out)
    {k : Nat} (hk : k ≤ edit.index) : out.take k = lines.take k := by
  cases edit with
  | rename index =>
    obtain ⟨line, -, hsplice⟩ := bind_eq_ok_iff.1 h
    exact Lines.take_splice hsplice hk
  | delete index =>
    have hsplice : ∃ last, Lines.splice lines ⟨index, last⟩ [] = .ok out := by
      simp only [apply] at h
      by_cases hzero : index = 0
      · rw [if_pos hzero] at h
        obtain ⟨_, -, h⟩ := bind_eq_ok_iff.1 h
        exact ⟨_, h⟩
      · rw [if_neg hzero] at h
        obtain ⟨_, -, h⟩ := bind_eq_ok_iff.1 h
        exact ⟨_, h⟩
    obtain ⟨last, h⟩ := hsplice
    exact Lines.take_splice h hk

theorem take_foldlM_apply {lines out : List Line} {todo : List NameEdit}
    (h : todo.foldlM apply lines = .ok out) {k : Nat} (hk : ∀ edit ∈ todo, k ≤ edit.index) :
    out.take k = lines.take k := by
  induction todo generalizing lines with
  | nil =>
    obtain rfl := Except.ok.inj h
    rfl
  | cons edit rest ih =>
    rw [List.foldlM_cons] at h
    obtain ⟨next, hnext, h⟩ := bind_eq_ok_iff.1 h
    rw [ih h fun e he => hk e (List.mem_cons_of_mem edit he),
      take_apply hnext (hk edit List.mem_cons_self)]

end NameStatement

end SchemaLift
