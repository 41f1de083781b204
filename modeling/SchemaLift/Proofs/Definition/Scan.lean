import SchemaLift.Definition.Hook
import SchemaLift.Definition.TypeList
import SchemaLift.Proofs.Block.Statements

/-!
# Where lists and hooks are found

The scans for lists of types and for hooks go through the statements that begin on lines of their kind,
and find what these statements are (`TypeList.filterMap_scanFrom`, `Hook.filterMap_scanFrom`). So their
finds follow each other, the rules can put in all replacements at once
(`TypeList.upgradeAll_eq_replaceRanges`, `Hook.upgradeAll_eq_replaceRanges`), and a text without such a
line gives nothing at all.
-/

namespace SchemaLift

/-! ## Lists of types -/

namespace TypeList

variable {rule : Rule} {keyword : String} {lines : List Line} {outline : Outline}

/-- The list that a find is. -/
def Found.list? : Found → Option TypeList
  | .list l => some l
  | .unterminated _ => none

/-- A list that stands on its lines: they are a statement, which is read as this call. -/
structure Genuine (keyword : String) (lines : List Line) (outline : Outline) (l : TypeList) : Prop where
  starts : ∃ line, lines[l.range.first]? = some line ∧ startsOn keyword line = true ∧
    l.indent = Text.indentation line
  stop : outline.statementEnd l.range.first = some l.range.last
  call : ListCall.parse? keyword (Lines.extent lines l.range.first l.range.last) = some l.call

/-- The list that a statement is. -/
def at? (keyword : String) (lines : List Line) (r : LineRange) : Option TypeList :=
  lines[r.first]?.bind fun line =>
    (ListCall.parse? keyword (Lines.extent lines r.first r.last)).map fun call =>
      ⟨r, Text.indentation line, call⟩

theorem at?_eq_some_iff {r : LineRange} {l : TypeList} : at? keyword lines r = some l ↔
    ∃ line call, lines[r.first]? = some line ∧
      ListCall.parse? keyword (Lines.extent lines r.first r.last) = some call ∧
        ⟨r, Text.indentation line, call⟩ = l := by
  simp only [at?, Option.bind_eq_some_iff, Option.map_eq_some_iff, exists_and_left]

/-- The lists that a scan finds are the statements that are lists. -/
theorem filterMap_scanFrom {taken index : Nat} {rest : List Line}
    (hrest : lines.drop index = rest) :
    (scanFrom rule keyword lines outline taken index rest).filterMap Found.list? =
      (statementsFrom (startsOn keyword) outline taken index rest).filterMap (at? keyword lines) := by
  induction rest generalizing taken index with
  | nil => rfl
  | cons line rest ih =>
    have hline := getElem?_of_drop_eq_cons hrest
    have hnext := drop_succ_of_drop_eq_cons hrest
    cases taken with
    | succ taken => exact ih hnext
    | zero =>
      rw [scanFrom, statementsFrom]
      split
      · cases hlast : outline.statementEnd index with
        | none => exact ih hnext
        | some last =>
          simp only
          cases hcall : ListCall.parse? keyword (Lines.extent lines index last) with
          | none =>
            have hat : at? keyword lines ⟨index, last⟩ = none := by simp [at?, hcall]
            rw [List.filterMap_cons_none hat]
            exact ih hnext
          | some call =>
            have hat : at? keyword lines ⟨index, last⟩ =
                some ⟨⟨index, last⟩, Text.indentation line, call⟩ := by simp [at?, hline, hcall]
            rw [List.filterMap_cons_some hat]
            exact congrArg _ (ih hnext)
      · exact ih hnext

theorem filterMap_scan : (scan rule keyword lines).filterMap Found.list? =
    (statementsOn (startsOn keyword) lines).filterMap (at? keyword lines) :=
  filterMap_scanFrom rfl

theorem genuine_of_mem_scan {l : TypeList} (h : .list l ∈ scan rule keyword lines) :
    l.Genuine keyword lines (Outline.ofLines lines) := by
  have hfound : l ∈ (scan rule keyword lines).filterMap Found.list? :=
    List.mem_filterMap.2 ⟨_, h, rfl⟩
  rw [filterMap_scan] at hfound
  obtain ⟨r, hr, hat⟩ := List.mem_filterMap.1 hfound
  obtain ⟨line, call, hline, hcall, rfl⟩ := at?_eq_some_iff.1 hat
  have hstatements := statements_statementsOn (startsOn keyword) lines
  obtain ⟨line', hline', hstarts⟩ := hstatements.begins r hr
  rw [hline] at hline'
  obtain rfl := Option.some.inj hline'
  exact ⟨⟨line, hline, hstarts, rfl⟩, hstatements.ends r hr, hcall⟩

/-- A list is found on a line that starts with its keyword. -/
theorem mem_scan {l : TypeList} (h : .list l ∈ scan rule keyword lines) :
    ∃ line, lines[l.range.first]? = some line ∧ startsOn keyword line = true := by
  obtain ⟨line, hline, hstarts, -⟩ := (genuine_of_mem_scan h).starts
  exact ⟨line, hline, hstarts⟩

theorem scanFrom_eq_nil {index : Nat} {rest : List Line}
    (h : ∀ line ∈ rest, startsOn keyword line = false) :
    scanFrom rule keyword lines outline 0 index rest = [] := by
  induction rest generalizing index with
  | nil => rfl
  | cons line rest ih =>
    rw [scanFrom, h line List.mem_cons_self, if_neg Bool.false_ne_true]
    exact ih fun l hl => h l (List.mem_cons_of_mem line hl)

theorem scan_eq_nil (h : ∀ line ∈ lines, startsOn keyword line = false) :
    scan rule keyword lines = [] :=
  scanFrom_eq_nil h

/-- The lists that are replaced. -/
def lists (rule : Rule) (keyword : String) (wanted : TypeList → Bool) (lines : List Line) :
    List TypeList :=
  ((scan rule keyword lines).filterMap fun f => match f with
    | .list l => some l
    | .unterminated _ => none).filter wanted

def skips (rule : Rule) (keyword : String) (lines : List Line) : List Skip :=
  (scan rule keyword lines).filterMap fun f => match f with
    | .list _ => none
    | .unterminated skip => some skip

theorem upgradeAll_eq (rule : Rule) (keyword : String) (wanted : TypeList → Bool)
    (newLines : TypeList → List Line) (source : Text) :
    upgradeAll rule keyword wanted newLines source =
      (Lines.spliceUpwards (Text.lines source)
        ((lists rule keyword wanted (Text.lines source)).map fun l => (l.range, newLines l))).map
        fun edited => ⟨Text.unlines edited, (lists rule keyword wanted (Text.lines source)).length,
          skips rule keyword (Text.lines source)⟩ := rfl

/-- What comes for the lists is what comes for the statements that they are. -/
theorem map_lists (rule : Rule) (keyword : String) (lines : List Line) (wanted : TypeList → Bool)
    (newLines : TypeList → List Line) :
    (lists rule keyword wanted lines).map (fun l => (l.range, newLines l)) =
      (statementsOn (startsOn keyword) lines).filterMap fun r =>
        (((at? keyword lines r).filter wanted).map newLines).map (r, ·) := by
  have hlists : lists rule keyword wanted lines =
      ((statementsOn (startsOn keyword) lines).filterMap (at? keyword lines)).filter wanted :=
    congrArg (List.filter wanted) filterMap_scan
  rw [hlists, List.filter_filterMap, List.map_filterMap]
  refine List.filterMap_congr fun r _ => ?_
  cases hat : at? keyword lines r with
  | none => rfl
  | some l =>
    obtain ⟨line, call, -, -, rfl⟩ := at?_eq_some_iff.1 hat
    cases wanted ⟨r, Text.indentation line, call⟩ <;> simp [Option.filter]

theorem sorted_lists (wanted : TypeList → Bool) (newLines : TypeList → List Line) :
    Lines.Sorted lines ((lists rule keyword wanted lines).map fun l => (l.range, newLines l)) := by
  rw [map_lists]
  exact (statements_statementsOn (startsOn keyword) lines).sorted _

/-- The lists are replaced all at once. -/
theorem upgradeAll_eq_replaceRanges (wanted : TypeList → Bool) (newLines : TypeList → List Line)
    (source : Text) : upgradeAll rule keyword wanted newLines source = .ok
      ⟨Text.unlines (Lines.replaceRanges (Text.lines source)
          ((lists rule keyword wanted (Text.lines source)).map fun l => (l.range, newLines l))),
        (lists rule keyword wanted (Text.lines source)).length,
        skips rule keyword (Text.lines source)⟩ := by
  rw [upgradeAll_eq, Lines.spliceUpwards_eq (sorted_lists wanted newLines)]
  rfl

/-- Without a list to replace the text stays. -/
theorem upgradeAll_of_lists_eq_nil {wanted : TypeList → Bool} {newLines : TypeList → List Line}
    {source : Text} (h : lists rule keyword wanted (Text.lines source) = []) :
    upgradeAll rule keyword wanted newLines source =
      .ok ⟨source, 0, skips rule keyword (Text.lines source)⟩ := by
  rw [upgradeAll_eq, h, List.map_nil, Lines.spliceUpwards, Except.map, Text.unlines_lines]
  rfl

/-- A text without the keyword is left alone. -/
theorem upgradeAll_idle {source : Text} (h : ∀ line ∈ Text.lines source, startsOn keyword line = false)
    (wanted : TypeList → Bool) (newLines : TypeList → List Line) :
    upgradeAll rule keyword wanted newLines source = .ok ⟨source, 0, []⟩ := by
  have hlists : lists rule keyword wanted (Text.lines source) = [] := by
    simp [lists, scan_eq_nil h]
  have hskips : skips rule keyword (Text.lines source) = [] := by
    simp [skips, scan_eq_nil h]
  rw [upgradeAll_of_lists_eq_nil hlists, hskips]

theorem mem_lists {wanted : TypeList → Bool} {l : TypeList} :
    l ∈ lists rule keyword wanted lines ↔ .list l ∈ scan rule keyword lines ∧ wanted l = true := by
  unfold lists
  rw [List.mem_filter, List.mem_filterMap]
  constructor
  · rintro ⟨⟨f, hf, hfl⟩, hwanted⟩
    cases f with
    | unterminated skip => cases hfl
    | list l' =>
      obtain rfl := Option.some.inj hfl
      exact ⟨hf, hwanted⟩
  · rintro ⟨hl, hwanted⟩
    exact ⟨⟨_, hl, rfl⟩, hwanted⟩

end TypeList

/-! ## Hooks -/

namespace Hook

variable {lines : List Line} {outline : Outline}

/-- The method that a find is, with the lines that it replaces. -/
def Found.method? : Found → Option (LineRange × List Line)
  | .method range new => some (range, new)
  | .skipped _ => none

/-- A method that stands for its lines: they are a statement that sets a hook. -/
structure Genuine (lines : List Line) (outline : Outline) (range : LineRange) (new : List Line) :
    Prop where
  starts : ∃ line hook, lines[range.first]? = some line ∧ on? line = some hook ∧
    method lines hook range.first range.last line = .ok new
  stop : outline.statementEnd range.first = some range.last

/-- The method for a statement that sets a hook to a proc. -/
def methodAt? (lines : List Line) (r : LineRange) : Option (List Line) :=
  lines[r.first]?.bind fun line => (on? line).bind fun hook =>
    (method lines hook r.first r.last line).toOption

/-- The methods that a scan finds come for the statements that set hooks to procs. -/
theorem filterMap_scanFrom {taken index : Nat} {rest : List Line}
    (hrest : lines.drop index = rest) :
    (scanFrom lines outline taken index rest).filterMap Found.method? =
      (statementsFrom (fun line => (on? line).isSome) outline taken index rest).filterMap fun r =>
        (methodAt? lines r).map (r, ·) := by
  induction rest generalizing taken index with
  | nil => rfl
  | cons line rest ih =>
    have hline := getElem?_of_drop_eq_cons hrest
    have hnext := drop_succ_of_drop_eq_cons hrest
    cases taken with
    | succ taken => exact ih hnext
    | zero =>
      rw [scanFrom, statementsFrom]
      cases hhook : on? line with
      | none => exact ih hnext
      | some hook =>
        rw [if_pos (Option.isSome_some)]
        cases hlast : outline.statementEnd index with
        | none => exact ih hnext
        | some last =>
          simp only
          have hat : methodAt? lines ⟨index, last⟩ =
              (method lines hook index last line).toOption := by simp [methodAt?, hline, hhook]
          cases hmethod : method lines hook index last line with
          | error reason =>
            rw [hmethod] at hat
            rw [List.filterMap_cons_none (by rfl), List.filterMap_cons_none (by rw [hat]; rfl)]
            exact ih hnext
          | ok new =>
            rw [hmethod] at hat
            rw [List.filterMap_cons_some (by rfl), List.filterMap_cons_some (by rw [hat]; rfl)]
            exact congrArg _ (ih hnext)

theorem filterMap_scan : (scan lines).filterMap Found.method? =
    (statementsOn (fun line => (on? line).isSome) lines).filterMap fun r =>
      (methodAt? lines r).map (r, ·) :=
  filterMap_scanFrom rfl

theorem genuine_of_mem_scan {range : LineRange} {new : List Line}
    (h : .method range new ∈ scan lines) : Genuine lines (Outline.ofLines lines) range new := by
  have hfound : (range, new) ∈ (scan lines).filterMap Found.method? :=
    List.mem_filterMap.2 ⟨_, h, rfl⟩
  rw [filterMap_scan] at hfound
  obtain ⟨r, hr, hpair⟩ := List.mem_filterMap.1 hfound
  obtain ⟨new', hat, hpair⟩ := Option.map_eq_some_iff.1 hpair
  obtain ⟨rfl, rfl⟩ := Prod.mk.inj hpair
  obtain ⟨line, hline, hat⟩ := Option.bind_eq_some_iff.1 hat
  obtain ⟨hook, hhook, hmethod⟩ := Option.bind_eq_some_iff.1 hat
  have hstop := (statements_statementsOn (fun line => (on? line).isSome) lines).ends r hr
  exact ⟨⟨line, hook, hline, hhook, toOption_eq_some_iff.1 hmethod⟩, hstop⟩

/-- A method stands in for a statement whose first line sets a hook. -/
theorem mem_scan {range : LineRange} {new : List Line} (h : .method range new ∈ scan lines) :
    ∃ line, lines[range.first]? = some line ∧ (on? line).isSome = true := by
  obtain ⟨line, hook, hline, hhook, -⟩ := (genuine_of_mem_scan h).starts
  exact ⟨line, hline, by rw [hhook]; rfl⟩

theorem scanFrom_eq_nil {index : Nat} {rest : List Line} (h : ∀ line ∈ rest, on? line = none) :
    scanFrom lines outline 0 index rest = [] := by
  induction rest generalizing index with
  | nil => rfl
  | cons line rest ih =>
    rw [scanFrom, h line List.mem_cons_self]
    exact ih fun l hl => h l (List.mem_cons_of_mem line hl)

theorem scan_eq_nil (h : ∀ line ∈ lines, on? line = none) : scan lines = [] := scanFrom_eq_nil h

theorem on?_eq_none {line : Line}
    (h : ∀ word ∈ names, (tokenizeCode line).head?.any (·.isWord word) = false) :
    on? line = none := by
  unfold on?
  split
  · rename_i first next rest htokens
    have hfind : names.find? first.isWord = none := by
      rw [List.find?_eq_none]
      intro word hword
      have hnot := h word hword
      rw [htokens] at hnot
      exact Bool.eq_false_iff.1 hnot
    rw [hfind, Option.bind_none]
  · rfl

/-- The methods that replace hooks, with the lines that they replace. -/
def methods (lines : List Line) : List (LineRange × List Line) :=
  (scan lines).filterMap fun f => match f with
    | .method range new => some (range, new)
    | .skipped _ => none

def skips (lines : List Line) : List Skip :=
  (scan lines).filterMap fun f => match f with
    | .method _ _ => none
    | .skipped skip => some skip

theorem upgradeAll_eq (source : Text) :
    upgradeAll source = (Lines.spliceUpwards (Text.lines source) (methods (Text.lines source))).map
      fun edited => ⟨Text.unlines edited, (methods (Text.lines source)).length,
        skips (Text.lines source)⟩ := rfl

theorem methods_eq : methods lines =
    (statementsOn (fun line => (on? line).isSome) lines).filterMap fun r =>
      (methodAt? lines r).map (r, ·) :=
  filterMap_scan

theorem sorted_methods : Lines.Sorted lines (methods lines) := by
  rw [methods_eq]
  exact (statements_statementsOn _ lines).sorted _

/-- The methods are put in all at once. -/
theorem upgradeAll_eq_replaceRanges (source : Text) : upgradeAll source = .ok
    ⟨Text.unlines (Lines.replaceRanges (Text.lines source) (methods (Text.lines source))),
      (methods (Text.lines source)).length, skips (Text.lines source)⟩ := by
  rw [upgradeAll_eq, Lines.spliceUpwards_eq sorted_methods]
  rfl

/-- Without a method to put in the text stays. -/
theorem upgradeAll_of_methods_eq_nil {source : Text} (h : methods (Text.lines source) = []) :
    upgradeAll source = .ok ⟨source, 0, skips (Text.lines source)⟩ := by
  rw [upgradeAll_eq, h, Lines.spliceUpwards, Except.map, Text.unlines_lines]
  rfl

/-- A text without hooks is left alone. -/
theorem upgradeAll_idle {source : Text} (h : ∀ line ∈ Text.lines source, on? line = none) :
    upgradeAll source = .ok ⟨source, 0, []⟩ := by
  have hmethods : methods (Text.lines source) = [] := by
    simp [methods, scan_eq_nil h]
  have hskips : skips (Text.lines source) = [] := by
    simp [skips, scan_eq_nil h]
  rw [upgradeAll_of_methods_eq_nil hmethods, hskips]

theorem mem_methods {range : LineRange} {new : List Line} :
    (range, new) ∈ methods lines ↔ .method range new ∈ scan lines := by
  unfold methods
  rw [List.mem_filterMap]
  constructor
  · rintro ⟨f, hf, hfm⟩
    cases f with
    | skipped skip => cases hfm
    | method range' new' =>
      obtain ⟨rfl, rfl⟩ := Prod.mk.inj (Option.some.inj hfm)
      exact hf
  · intro h
    exact ⟨_, h, rfl⟩

end Hook

end SchemaLift
