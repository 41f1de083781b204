import SchemaLift.Proofs.Definition.NameEdits
import SchemaLift.Upgrade.Pipeline

/-!
# Nothing but name statements

If no two classes claim one line, every edit is carried out, each is that of one class, and only name
statements and blank lines go (`name_only`). A deleted line closes as many blocks as it opens. That
cannot be said of its brackets: of a statement that goes on, only the first line is deleted
(`name_not_only`).
-/

namespace SchemaLift

namespace NameStatement

/-! ## Classes and their edits -/

/-- A class over a base class, with a name statement among the statements of its block. -/
def Asks (ls : List Line) (index : Nat) (edit : NameEdit) : Prop :=
  ∃ line header block child, ls[index]? = some line ∧ ClassHeader.parse? line = some header ∧
    DefinitionKind.isBaseClass header.superclass = true ∧
    (Outline.ofLines ls).matchBlock index = some block ∧
    child ∈ (Outline.ofLines ls).children block ∧ edit.index = child.first

theorem forall₂_filterMap {α β : Type} (f : α → Option β) (l : List α) :
    List.Forall₂ (fun a b => f a = some b) (l.filter fun a => (f a).isSome) (l.filterMap f) := by
  induction l with
  | nil => exact .nil
  | cons a l ih =>
    cases h : f a with
    | none =>
      rw [List.filter_cons_of_neg (by rw [h]; exact Bool.false_ne_true), List.filterMap_cons_none h]
      exact ih
    | some b =>
      rw [List.filter_cons_of_pos (by rw [h]; rfl), List.filterMap_cons_some h]
      exact .cons h ih

/-- Every edit is that of one class, from top to bottom. -/
theorem exists_asking (ls : List Line) :
    ∃ classes : List Nat, classes.Pairwise (· < ·) ∧ List.Forall₂ (Asks ls) classes (edits ls) := by
  let asking := ls.zipIdx.filter fun entry =>
    (editAt ls (Outline.ofLines ls) entry.2 entry.1).isSome
  have hsublist : (asking.map Prod.snd).Sublist (List.range' 0 ls.length) := by
    rw [← List.zipIdx_map_snd 0 ls]
    exact List.filter_sublist.map Prod.snd
  have hedits : List.Forall₂ (fun entry edit => entry ∈ ls.zipIdx ∧
      editAt ls (Outline.ofLines ls) entry.2 entry.1 = some edit) asking (edits ls) := by
    exact (List.forall₂_and_left _ _).2
      ⟨fun entry hmem => List.mem_of_mem_filter hmem, forall₂_filterMap _ _⟩
  refine ⟨asking.map Prod.snd, List.Pairwise.sublist hsublist List.pairwise_lt_range',
    List.forall₂_map_left_iff.2 (hedits.imp ?_)⟩
  rintro ⟨line, index⟩ edit ⟨hmem, hedit⟩
  obtain ⟨header, block, child, -, hheader, hbase, hblock, hchild, -, hindex⟩ := editAt_eq_some hedit
  exact ⟨line, header, block, child, List.mk_mem_zipIdx_iff_getElem?.1 hmem, hheader, hbase, hblock,
    hchild, hindex⟩

/-! ## The lines that are edited -/

/-- The lines with an edit, and their places. -/
def touched (ls : List Line) : List (Line × Nat) :=
  ls.zipIdx.filter fun entry =>
    (edits ls).contains (.delete entry.2) || (edits ls).contains (.rename entry.2)

def deletedLines (ls : List Line) : List Line :=
  (ls.zipIdx.filter fun entry => (edits ls).contains (.delete entry.2)).map Prod.fst

theorem length_touched {ls : List Line} (h : ((edits ls).map NameEdit.index).Nodup) :
    (touched ls).length = (edits ls).length := by
  have hsublist : ((touched ls).map Prod.snd).Sublist (List.range' 0 ls.length) := by
    rw [← List.zipIdx_map_snd 0 ls]
    exact List.filter_sublist.map Prod.snd
  have hmem (index : Nat) :
      index ∈ (touched ls).map Prod.snd ↔ index ∈ (edits ls).map NameEdit.index := by
    simp only [List.mem_map, touched, List.mem_filter, Bool.or_eq_true, List.contains_iff_mem]
    constructor
    · rintro ⟨⟨line, index⟩, ⟨-, hedit | hedit⟩, rfl⟩
      · exact ⟨_, hedit, rfl⟩
      · exact ⟨_, hedit, rfl⟩
    · rintro ⟨edit, hedit, rfl⟩
      obtain ⟨line, hline, -⟩ := parse?_of_mem_edits hedit
      refine ⟨(line, edit.index), ⟨List.mk_mem_zipIdx_iff_getElem?.2 hline, ?_⟩, rfl⟩
      cases edit with
      | delete index => exact .inl hedit
      | rename index => exact .inr hedit
  have hperm : ((touched ls).map Prod.snd).Perm ((edits ls).map NameEdit.index) :=
    (List.perm_ext_iff_of_nodup (List.Nodup.sublist hsublist List.nodup_range') h).2 hmem
  rw [← List.length_map Prod.snd, hperm.length_eq, List.length_map]

/-- The deleted lines added what is missing afterwards. -/
theorem balance_edited {ls : List Line} (hfeed : ∀ line ∈ ls, '\n' ∉ line) :
    balance (edited ls (edits ls)) + balance (deletedLines ls) = balance ls := by
  have hstep : ∀ entry ∈ ls.zipIdx, balance (fate ls (edits ls) entry) +
      (if (edits ls).contains (.delete entry.2) then balance [entry.1] else 0) = balance [entry.1] := by
    rintro ⟨line, index⟩ hmem
    have hline : ls[index]? = some line := List.mk_mem_zipIdx_iff_getElem?.1 hmem
    have hfeed : '\n' ∉ line := hfeed line (List.mem_of_getElem? hline)
    cases hdelete : (edits ls).contains (.delete index) with
    | true => simp only [fate, hdelete, ↓reduceIte]; exact zero_add _
    | false =>
      simp only [fate, hdelete, Bool.false_eq_true, ↓reduceIte, add_zero]
      cases hrename : (edits ls).contains (.rename index) with
      | true =>
        obtain ⟨name, hname⟩ := atNames_edits.exists_name hrename hline
        simp only [↓reduceIte]
        rw [balance_singleton (notMem_renamed hname hfeed), lineBalance_renamed hname,
          balance_singleton hfeed]
      | false =>
        simp only [Bool.false_eq_true, ↓reduceIte]
        split
        · rename_i hblank
          rw [balance_singleton hfeed, lineBalance_of_isBlank (Bool.and_eq_true_iff.1 hblank).2]
          rfl
        · rfl
  have hsum : ∀ entries : List (Line × Nat), (∀ entry ∈ entries, entry ∈ ls.zipIdx) →
      balance (entries.flatMap (fate ls (edits ls))) +
        balance ((entries.filter fun entry => (edits ls).contains (.delete entry.2)).map Prod.fst) =
          balance (entries.map Prod.fst) := by
    intro entries hentries
    induction entries with
    | nil => rfl
    | cons entry entries ih =>
      have hhead := hstep entry (hentries entry List.mem_cons_self)
      have htail := ih fun e he => hentries e (List.mem_cons_of_mem entry he)
      rw [List.flatMap_cons, balance_append, List.map_cons, balance_cons, ← hhead, ← htail,
        List.filter_cons]
      split
      · rw [List.map_cons, balance_cons]
        exact add_add_add_comm _ _ _ _
      · rw [add_zero, add_assoc]
  have hall := hsum ls.zipIdx fun entry hmem => hmem
  rw [List.zipIdx_map_fst] at hall
  exact hall

/-! ## The whole text -/

/-- What the outcome has to do with the text: of each class that asks for an edit one name statement
is deleted or renamed, a blank line below a deleted one may go as well, and nothing else changes. The
blocks are balanced as before, the brackets only if the deleted lines have as many on either side. -/
structure OnlyNames (source : Text) (out : Outcome) : Prop where
  classes : ∃ classes : List Nat, classes.Pairwise (· < ·) ∧
    List.Forall₂ (Asks (Text.lines source)) classes (edits (Text.lines source))
  text : out.text = Text.unlines (edited (Text.lines source) (edits (Text.lines source)))
  names : ∀ entry ∈ touched (Text.lines source), (parse? entry.1).isSome = true ∧
    ∃ indent rest, (∀ c ∈ indent, Text.isBlankChar c = true) ∧ Scan.Delimits rest ∧
      entry.1 = indent ++ ("name".toList ++ rest) ∧
      renamed entry.1 = indent ++ ("graphql_name".toList ++ rest)
  changes : out.changes = (touched (Text.lines source)).length
  skipped : out.skipped = []
  blocks : (balance (Text.lines out.text)).1 = (balance (Text.lines source)).1
  brackets : (balance (Text.lines out.text)).2 = (balance (Text.lines source)).2 ↔
    (balance (deletedLines (Text.lines source))).2 = 0

/-- A deleted name statement opens and closes no block. -/
theorem balance_deletedLines {ls : List Line} (hfeed : ∀ line ∈ ls, '\n' ∉ line) :
    (balance (deletedLines ls)).1 = 0 := by
  have hnames : ∀ line ∈ deletedLines ls, '\n' ∉ line ∧ (lineBalance line).1 = 0 := by
    intro line hmem
    obtain ⟨⟨line, index⟩, hentry, rfl⟩ := List.mem_map.1 hmem
    obtain ⟨hentry, hdelete⟩ := List.mem_filter.1 hentry
    have hline : ls[index]? = some line := List.mk_mem_zipIdx_iff_getElem?.1 hentry
    obtain ⟨name, hname⟩ := atNames_edits.exists_name hdelete hline
    have hfeed := hfeed line (List.mem_of_getElem? hline)
    exact ⟨hfeed, depth_of_parse? hname hfeed⟩
  generalize deletedLines ls = deleted at hnames
  induction deleted with
  | nil => rfl
  | cons line rest ih =>
    obtain ⟨hfeed, hdepth⟩ := hnames line List.mem_cons_self
    have hrest := ih fun l hl => hnames l (List.mem_cons_of_mem line hl)
    rw [balance_cons, Prod.fst_add, balance_singleton hfeed, hdepth, hrest]
    rfl

theorem exists_of_mem_touched {ls : List Line} {entry : Line × Nat} (h : entry ∈ touched ls) :
    ∃ name, parse? entry.1 = some name := by
  obtain ⟨line, index⟩ := entry
  obtain ⟨hentry, hedit⟩ := List.mem_filter.1 h
  have hline : ls[index]? = some line := List.mk_mem_zipIdx_iff_getElem?.1 hentry
  rcases Bool.or_eq_true_iff.1 hedit with hedit | hedit
  · exact atNames_edits.exists_name hedit hline
  · exact atNames_edits.exists_name hedit hline

/-- The rule never asks for a line that the text does not have, and changes nothing but the name
statements of its classes, unless two classes claim one line. -/
theorem name_only (ns source : Text)
    (h : ((edits (Text.lines source)).map NameEdit.index).Nodup) :
    ∃ out, Rule.name.apply ns source = .ok out ∧ OnlyNames source out := by
  have hfeed : ∀ line ∈ Text.lines source, '\n' ∉ line := fun line hmem =>
    Text.notMem_of_mem_lines hmem
  have hbalance := balance_edited hfeed
  refine ⟨⟨Text.unlines (edited (Text.lines source) (edits (Text.lines source))),
    (edits (Text.lines source)).length, []⟩, ?_, ?_⟩
  · show upgradeAll source = _
    rw [upgradeAll_eq, foldlM_upwards h]
    rfl
  · refine ⟨exists_asking _, rfl, fun entry hmem => ?_, (length_touched h).symm, rfl, ?_, ?_⟩
    · obtain ⟨name, hname⟩ := exists_of_mem_touched hmem
      exact ⟨Option.isSome_iff_exists.2 ⟨name, hname⟩, exists_renamed hname⟩
    · rw [balance_lines_unlines, ← hbalance, Prod.fst_add, balance_deletedLines hfeed, add_zero]
    · rw [balance_lines_unlines, ← hbalance, Prod.snd_add]
      exact left_eq_add

/-- A class whose name gives the declared name, and a class in it for which it does not. -/
def namedClasses : Text :=
  ("class Team < Types::BaseObject\n  name \"Team\"\n\n  class Kind < Types::BaseEnum\n" ++
    "    name \"TeamKind\"\n  end\nend\n").toList

theorem name_only_namedClasses :
    ((edits (Text.lines namedClasses)).map NameEdit.index).Nodup ∧
      ∃ out, Rule.name.apply [] namedClasses = .ok out ∧ OnlyNames namedClasses out := by
  have hdistinct : ((edits (Text.lines namedClasses)).map NameEdit.index).Nodup := by
    decide +kernel
  exact ⟨hdistinct, name_only [] namedClasses hdistinct⟩

/-- A name statement that goes on past its first line. -/
def nameOverTwoLines : Text := "class A < Types::BaseObject\n  name(\"A\"\n  )\nend".toList

/-- Three classes that claim the name statement at the end, as the parentheses close none. -/
def nameClaimedThrice : Text :=
  ("class A < Types::BaseObject\nclass A < Types::BaseObject; x)\n" ++
    "class A < Types::BaseObject; x)\nname \"A\"\nend; end; end").toList

/-- The rest of the first statement is left behind with its bracket; the second text has fewer lines
than the edits ask for. -/
theorem name_not_only :
    (∃ out, Rule.name.apply [] nameOverTwoLines = .ok out ∧
      (balance (Text.lines out.text)).2 ≠ (balance (Text.lines nameOverTwoLines)).2) ∧
    ∃ misplaced, Rule.name.apply [] nameClaimedThrice = .error misplaced := by
  constructor
  · have hedits : edits (Text.lines nameOverTwoLines) = [.delete 1] := by decide +kernel
    refine ⟨⟨"class A < Types::BaseObject\n  )\nend".toList, 1, []⟩, ?_, by decide +kernel⟩
    show upgradeAll nameOverTwoLines = _
    rw [upgradeAll_eq, upwards, hedits, List.mergeSort_singleton]
    decide +kernel
  · have hedits : edits (Text.lines nameClaimedThrice) = [.delete 3, .delete 3, .delete 3] := by
      decide +kernel
    refine ⟨.range ⟨3, 3⟩ 3, ?_⟩
    show upgradeAll nameClaimedThrice = _
    rw [upgradeAll_eq, upwards, hedits, List.mergeSort_of_pairwise (by decide)]
    decide +kernel

end NameStatement

end SchemaLift
