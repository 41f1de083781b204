import Mathlib.Tactic.Abel
import SchemaLift.Proc.Literal
import SchemaLift.Proofs.Block.Balance
import SchemaLift.Proofs.Call.Signature
import SchemaLift.Proofs.Name

/-!
# What a method adds to the depth of blocks and brackets

The `def` and the `end` of a method cancel out, so a method adds what its body adds, and what its
name adds: nothing, unless the name is `do` or `end` (`balance_methodLines`).
-/

namespace SchemaLift

/-- What a method name adds: the scanner takes `do` and `end` for block words. -/
def nameBalance (name : Text) : Int × Int :=
  if name = ['d', 'o'] then (1, 0) else if name = ['e', 'n', 'd'] then (-1, 0) else 0

theorem nameBalance_eq_zero_iff {name : Text} :
    nameBalance name = 0 ↔ name ≠ ['d', 'o'] ∧ name ≠ ['e', 'n', 'd'] := by
  unfold nameBalance
  split
  · rename_i hdo
    exact iff_of_false (by decide) fun h => h.1 hdo
  split
  · rename_i hend
    exact iff_of_false (by decide) fun h => h.2 hend
  · rename_i hdo hend
    exact iff_of_true rfl ⟨hdo, hend⟩

/-! ## The first and the last line -/

theorem tokenizeCode_end : tokenizeCode "end".toList = [⟨[], .endWord, "end".toList⟩] := by
  decide

theorem lineBalance_end {indent : Text} (h : Text.IsIndent indent) :
    lineBalance (indent ++ "end".toList) = (-1, 0) := by
  rw [lineBalance_blank_append h.isBlankChar, lineBalance_eq, tokenizeCode_end]
  rfl

theorem tokenizeCode_args : tokenizeCode "(**args)".toList =
    [⟨[], .lparen, ['(']⟩, ⟨[], .operator, ['*']⟩, ⟨[], .operator, ['*']⟩,
      ⟨[], .identifier, "args".toList⟩, ⟨[], .rparen, [')']⟩] := by
  decide

/-- The tokens of a method's first line, without its indentation. -/
theorem tokenizeCode_def {raw name : Text} (h : Name.declared? raw = some name) {rest : Text}
    (hr : Scan.Delimits rest) :
    tokenizeCode ("def ".toList ++ (name ++ rest)) =
      ⟨[], .identifier, "def".toList⟩ :: ⟨[' '], Scan.plainKind name, name⟩ ::
        tokenizeCode rest := by
  have hdef : Scan.Identifier "def".toList :=
    .plain (by decide) (by decide) (List.all_eq_true.1 (by decide)) (by decide)
  have hspace : Scan.Delimits ([' '] ++ (name ++ rest)) := Scan.delimits_cons (by decide) _
  have hsplit : "def ".toList ++ (name ++ rest) = "def".toList ++ ([' '] ++ (name ++ rest)) := rfl
  rw [hsplit, tokenizeCode_identifier_append hdef hspace,
    tokenizeCode_blank_append (List.all_eq_true.1 (by decide)),
    tokenizeCode_of_pieces (Scan.plainKind_ne_comment name) (Name.pieces_declared?_append h hr),
    Token.addGap_cons, List.append_nil]

theorem lineBalance_def {raw name : Text} (h : Name.declared? raw = some name) {indent : Text}
    (hi : Text.IsIndent indent) {header : Text}
    (hheader : header = name ∨ header = name ++ "(**args)".toList) :
    lineBalance (indent ++ "def ".toList ++ header) = (1, 0) + nameBalance name := by
  obtain ⟨rest, hr, hrest, rfl⟩ : ∃ rest, Scan.Delimits rest ∧
      (tokenizeCode rest = [] ∨ tokenizeCode rest = tokenizeCode "(**args)".toList) ∧
      header = name ++ rest := by
    rcases hheader with rfl | rfl
    · exact ⟨[], Scan.delimits_nil, Or.inl rfl, (List.append_nil _).symm⟩
    · exact ⟨_, Scan.delimits_cons (by decide) _, Or.inr rfl, rfl⟩
  rw [List.append_assoc, lineBalance_blank_append hi.isBlankChar, lineBalance_eq,
    tokenizeCode_def h hr]
  rw [tokenizeCode_args] at hrest
  unfold nameBalance Scan.plainKind
  split
  · rcases hrest with hrest | hrest <;> rw [hrest] <;> rfl
  · split
    · rcases hrest with hrest | hrest <;> rw [hrest] <;> rfl
    · rcases hrest with hrest | hrest <;> rw [hrest] <;> rfl

/-! ## Lines without line feeds -/

theorem Text.mem_of_mem_trimEnd {s : Text} {c : Char} (h : c ∈ trimEnd s) : c ∈ s :=
  List.mem_reverse.1 ((List.dropWhile_sublist _).subset (List.mem_reverse.1 h))

theorem Text.mem_of_mem_trim {s : Text} {c : Char} (h : c ∈ trim s) : c ∈ s :=
  (List.dropWhile_sublist _).subset (mem_of_mem_trimEnd h)

theorem Name.notMem_of_declared? {raw name : Text} (h : declared? raw = some name) :
    '\n' ∉ name := by
  intro hn
  rcases mem_declared? h hn with hword | hmark | hmark
  · exact ne_of_holds hword (by decide) rfl
  · cases hmark
  · cases hmark

/-- The lines of a body hold no line feeds. -/
theorem ProcLiteral.notMem_of_mem_bodyLines {body : Text} {line : Line}
    (h : line ∈ bodyLines body) : '\n' ∉ line := by
  have hlines : ∀ l ∈ Text.lines body, '\n' ∉ l := fun l hl => Text.notMem_of_mem_lines hl
  unfold bodyLines at h
  split at h
  · cases h
  rename_i first rest hsplit
  rw [hsplit] at hlines
  have hrest : ∀ l ∈ (if rest.getLast?.any Text.isBlank = true then rest.dropLast else rest),
      '\n' ∉ l := by
    intro l hl
    apply hlines l
    apply List.mem_cons_of_mem
    split at hl
    · exact (List.dropLast_sublist _).subset hl
    · exact hl
  rcases List.mem_append.1 ((trimEnds_sublist (p := List.isEmpty) _).subset h) with hl | hl
  · split at hl
    · cases hl
    · rw [List.mem_singleton.1 hl]
      exact fun hn => hlines first List.mem_cons_self (Text.mem_of_mem_trim hn)
  · obtain ⟨l, hmem, rfl⟩ := List.mem_map.1 hl
    split
    · exact List.not_mem_nil
    · exact fun hn => hrest l hmem (List.mem_of_mem_drop (Text.mem_of_mem_trimEnd hn))

/-! ## Whole methods -/

theorem balance_indented {indent : Text} (hi : Text.IsIndent indent) {body : List Line}
    (hb : ∀ line ∈ body, '\n' ∉ line) :
    balance (body.map fun line => if line.isEmpty then [] else indent ++ ' ' :: ' ' :: line) =
      balance body := by
  induction body with
  | nil => rfl
  | cons line rest ih =>
    have hline := hb line List.mem_cons_self
    rw [List.map_cons, balance_cons, balance_cons line rest,
      ih fun l hl => hb l (List.mem_cons_of_mem line hl)]
    congr 1
    cases line with
    | nil => rfl
    | cons c cs =>
      have hdeep : Text.IsIndent (indent ++ [' ', ' ']) := by
        intro d hd
        rcases List.mem_append.1 hd with hd | hd
        · exact hi d hd
        · exact Or.inl (by simpa using hd)
      have happ : indent ++ ' ' :: ' ' :: c :: cs = (indent ++ [' ', ' ']) ++ c :: cs := by
        rw [List.append_assoc]
        rfl
      have hnew : '\n' ∉ (indent ++ [' ', ' ']) ++ c :: cs := by
        rw [List.mem_append, not_or]
        exact ⟨hdeep.notMem, hline⟩
      rw [if_neg (by simp), happ, balance_singleton hnew, balance_singleton hline,
        lineBalance_blank_append hdeep.isBlankChar]

/-- A method adds what its name and its body add. -/
theorem balance_methodLines {raw name : Text} (h : Name.declared? raw = some name)
    {indent : Text} (hi : Text.IsIndent indent) {header : Text}
    (hheader : header = name ∨ header = name ++ "(**args)".toList) (body : Text) :
    balance (ProcLiteral.methodLines indent header (ProcLiteral.bodyLines body)) =
      nameBalance name + balance (ProcLiteral.bodyLines body) := by
  have hname := Name.notMem_of_declared? h
  have hhead : '\n' ∉ header := by
    rcases hheader with rfl | rfl
    · exact hname
    · rw [List.mem_append, not_or]
      exact ⟨hname, by decide⟩
  have hdef : '\n' ∉ indent ++ "def ".toList ++ header := by
    rw [List.mem_append, List.mem_append, not_or, not_or]
    exact ⟨⟨hi.notMem, by decide⟩, hhead⟩
  have hend : '\n' ∉ indent ++ "end".toList := by
    rw [List.mem_append, not_or]
    exact ⟨hi.notMem, by decide⟩
  unfold ProcLiteral.methodLines
  rw [List.cons_append, balance_cons, balance_append, balance_singleton hdef,
    lineBalance_def h hi hheader, balance_indented hi fun _ => ProcLiteral.notMem_of_mem_bodyLines,
    balance_singleton hend, lineBalance_end hi]
  have hcancel : ((1, 0) : Int × Int) + (-1, 0) = 0 := rfl
  calc (1, 0) + nameBalance name + (balance (ProcLiteral.bodyLines body) + (-1, 0))
      = (1, 0) + (-1, 0) + (nameBalance name + balance (ProcLiteral.bodyLines body)) := by abel
    _ = nameBalance name + balance (ProcLiteral.bodyLines body) := by rw [hcancel, zero_add]

end SchemaLift
