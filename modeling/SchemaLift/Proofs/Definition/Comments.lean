import SchemaLift.Proofs.Block.Outline
import SchemaLift.Proofs.Call.Comments
import SchemaLift.Proofs.Definition.Scan
import SchemaLift.Proofs.Proc.Delimiters
import SchemaLift.Proofs.Proc.Method
import SchemaLift.Proofs.Text.Replace

/-!
# The comments of lists and hooks

A list keeps its comments behind the last of the new lines, and besides has those inside its items again;
without items there is no line to keep them (`TypeList.notes_implements`). A hook keeps the comments
behind its last code, and of those in front of it the ones in the body of its proc (`Hook.notes_method`).
-/

namespace SchemaLift

theorem notes_of_carries {line : Line} {m : Multiset Text} (h : Carries line m) : notes line = m := by
  rw [h.closed.tidy.notes_eq, h.noted_eq]

theorem plain_of_isIndent {indent : Text} (h : Text.IsIndent indent) : Plain indent := by
  intro c hc
  rcases h c hc with rfl | rfl <;> decide

theorem Signature.commaSeparated_eq_intercalate (texts : List Text) :
    commaSeparated texts = ", ".toList.intercalate texts := by
  induction texts with
  | nil => rfl
  | cons first rest ih =>
    cases rest with
    | nil => simp [commaSeparated]
    | cons second rest =>
      rw [commaSeparated, ih, List.intercalate_cons_cons]
      exact List.cons_ne_nil second rest

theorem carries_intercalate {texts : List Text} (h : ∀ t ∈ texts, Closed t) :
    Carries (", ".toList.intercalate texts) (texts.map noted).sum := by
  rw [← Signature.commaSeparated_eq_intercalate]
  exact Signature.carries_commaSeparated h

/-! ## Lists of types -/

namespace TypeList

/-- The remarks inside the items of a list. -/
def copied (l : TypeList) : Multiset Text := (l.call.items.map noted).sum

/-- The remarks of a list without items. -/
def dropped (l : TypeList) : Multiset Text :=
  if l.call.items.isEmpty then remarksOf l.call.comments else 0

theorem sum_notes_withComments {lines : List Line} (hlines : ∀ line ∈ lines, Closed line)
    (hne : lines ≠ []) {cs : List Text} (hcs : ∀ c ∈ cs, IsComment c) :
    ((withComments lines cs).map notes).sum = (lines.map noted).sum + remarksOf cs := by
  obtain ⟨init, last, rfl⟩ : ∃ init last, lines = init ++ [last] :=
    ⟨_, _, (List.dropLast_append_getLast hne).symm⟩
  have hlast := (hlines last (by simp)).carries
  obtain ⟨htidy, hnoted⟩ := hlast.commented hcs
  have hinit : init.map notes = init.map noted :=
    List.map_congr_left fun line hline => (hlines line (by simp [hline])).tidy.notes_eq
  rw [withComments, List.getLast?_append, List.getLast?_singleton, Option.some_or]
  simp only [List.dropLast_concat, List.map_append, List.sum_append, List.map_singleton,
    List.sum_singleton, hinit, htidy.notes_eq, hnoted, add_assoc]

variable {keyword : String} {lines : List Line} {l : TypeList}

theorem Genuine.plain_indent {outline : Outline} (h : l.Genuine keyword lines outline) :
    Plain l.indent := by
  obtain ⟨line, -, -, hindent⟩ := h.starts
  exact hindent ▸ plain_of_isIndent (Text.isIndent_indentation line)

section

variable (hlines : ∀ line ∈ lines, Tidy line) {outline : Outline}
  (h : l.Genuine keyword lines outline)
include hlines h

theorem Genuine.closed_items : ∀ item ∈ l.call.items, Closed item := by
  intro item hitem
  obtain ⟨ts, hts, rfl⟩ := (ListCall.of_parse? h.call).2 item hitem
  exact closed_spelling (.unlines fun line hline =>
    hlines line (List.mem_of_mem_drop (List.mem_of_mem_take hline))) hts

omit hlines in
theorem Genuine.isComment : ∀ c ∈ l.call.comments, IsComment c := fun _ hc =>
  isComment_of_mem_comments ((ListCall.of_parse? h.call).1 ▸ hc)

omit hlines in
theorem Genuine.noted_eq :
    noted (Lines.extent lines l.range.first l.range.last) = remarksOf l.call.comments := by
  rw [(ListCall.of_parse? h.call).1]
  rfl

/-- The new lines and what is dropped have the remarks of the list and of what is copied. -/
theorem Genuine.notes_implements : ((implementsLines l).map notes).sum + l.dropped =
    noted (Lines.extent lines l.range.first l.range.last) + l.copied := by
  have hword : Plain "implements".toList := by decide
  have hcarries : ∀ item ∈ l.call.items,
      Carries (l.indent ++ "implements ".toList ++ item) (noted item) := by
    intro item hitem
    have hall := (h.plain_indent.append hword).carries.append_space
      (h.closed_items hlines item hitem).carries
    simpa using hall
  unfold dropped copied implementsLines
  rw [h.noted_eq]
  -- without items there is no line that could have the comments behind it
  by_cases hnil : l.call.items = []
  · rw [hnil]
    simp [withComments]
  · have hnew := sum_notes_withComments
      (List.forall_mem_map.2 fun item hitem => (hcarries item hitem).closed)
      (by simpa using hnil) h.isComment
    have hnoted : (l.call.items.map fun item =>
        noted (l.indent ++ "implements ".toList ++ item)) = l.call.items.map noted :=
      List.map_congr_left fun item hitem => (hcarries item hitem).noted_eq
    rw [hnew, List.map_map, Function.comp_def, hnoted, if_neg (by simpa using hnil), add_zero,
      add_comm]

theorem Genuine.notes_possibleTypes (hwanted : l.call.items.isEmpty = false) :
    ((possibleTypesLines l).map notes).sum + l.dropped =
      noted (Lines.extent lines l.range.first l.range.last) + l.copied := by
  have hword : Plain "possible_types".toList := by decide
  have hline : Carries (l.indent ++ "possible_types ".toList ++ ", ".toList.intercalate l.call.items)
      (l.call.items.map noted).sum := by
    have hall := (h.plain_indent.append hword).carries.append_space
      (carries_intercalate (h.closed_items hlines))
    simpa using hall
  have hnew := sum_notes_withComments (List.forall_mem_singleton.2 hline.closed)
    (List.cons_ne_nil _ _) h.isComment
  unfold dropped copied possibleTypesLines
  rw [h.noted_eq, hnew, hwanted, if_neg Bool.false_ne_true, add_zero, List.map_singleton,
    List.sum_singleton, hline.noted_eq, add_comm]

end

end TypeList

/-! ## Hooks -/

namespace ProcLiteral

section

variable {s : Text} {ts : List Token} (hts : ts ⊆ tokenizeCode s) {parameters : List Text}
include hts

/-- Parameters are identifiers of the text. -/
theorem plain_parameters? (h : parameters? ts = some parameters) : ∀ p ∈ parameters, Plain p := by
  rw [(parameters?_spec h).2]
  intro p hp
  obtain ⟨t, ht, rfl⟩ := List.mem_map.1 hp
  obtain ⟨ht, hk⟩ := List.mem_filter.1 ht
  exact plain_of_identifier (identifier_of_mem_tokenizeCode (hts ht) (beq_iff_eq.1 hk))

theorem Introduces.plain {named : List Text} (h : Introduces ts named) : ∀ p ∈ named, Plain p := by
  cases h with
  | arrow | word | new => rintro p ⟨⟩
  | @arrowWith _ _ _ names _ _ _ _ hnames =>
    exact plain_parameters? (s := s) (fun t ht => hts (by simp [ht])) hnames

theorem Named.plain {front : List Text} {inner : List Token} (h : Named front ts inner parameters)
    (hfront : ∀ p ∈ front, Plain p) : ∀ p ∈ parameters, Plain p := by
  cases h with
  | inFront => exact hfront
  | @piped _ _ names _ _ _ _ _ hnames =>
    exact plain_parameters? (s := s) (fun t ht => hts (by simp [ht])) hnames

end

/-- The parameters of a proc literal are named in front of its block or at its head. -/
theorem plain_parameters {s : Text} {proc : ProcLiteral} (h : parse s = .ok proc) :
    ∀ p ∈ proc.parameters, Plain p := by
  obtain ⟨l, -⟩ := parse_eq_ok_iff.1 h
  have hmem : ∀ t, t ∈ l.front ++ l.opener :: (l.piped ++ l.inner ++ [l.closer]) → t ∈ tokenizeCode s :=
    fun t ht => l.tokens.symm ▸ ht
  have hfront : l.front ⊆ tokenizeCode s := fun t ht => hmem t (List.mem_append_left _ ht)
  have hpiped : l.piped ⊆ tokenizeCode s := fun t ht => hmem t (by simp [ht])
  exact l.parameters.plain hpiped (l.introduces.plain hfront)

end ProcLiteral

namespace Hook

theorem notes_indented {indent : Text} (hindent : Text.IsIndent indent) {line : Line}
    (hline : '\n' ∉ line) :
    notes (if line.isEmpty then [] else indent ++ ' ' :: ' ' :: line) = notes line := by
  split
  · rename_i hempty
    rw [List.isEmpty_iff.1 hempty]
  · have hdeep : ∀ c ∈ indent ++ [' ', ' '], Text.isBlankChar c = true := by
      intro c hc
      rcases List.mem_append.1 hc with hc | hc
      · exact hindent.isBlankChar c hc
      · exact List.all_eq_true.1 (by decide) c hc
    have hnew : '\n' ∉ indent ++ [' ', ' '] ++ line := by
      simpa using ⟨hindent.notMem, hline⟩
    have hnoted := noted_blank_append hdeep line
    rw [← notes_of_line hnew, ← notes_of_line hline, List.append_assoc] at hnoted
    exact hnoted

/-- The remarks on a method are those on its first line and those in its body. -/
theorem notes_methodLines {indent : Text} (hindent : Text.IsIndent indent) (header body : Text) :
    ((ProcLiteral.methodLines indent header (ProcLiteral.bodyLines body)).map notes).sum =
      notes (indent ++ "def ".toList ++ header) + ((ProcLiteral.bodyLines body).map notes).sum := by
  have hend : notes (indent ++ "end".toList) = 0 := by
    have hplain : Plain (indent ++ "end".toList) := (plain_of_isIndent hindent).append (by decide)
    exact notes_of_carries hplain.carries
  have hbody : ((ProcLiteral.bodyLines body).map fun line =>
      notes (if line.isEmpty then [] else indent ++ ' ' :: ' ' :: line)) =
      (ProcLiteral.bodyLines body).map notes :=
    List.map_congr_left fun line hline =>
      notes_indented hindent (ProcLiteral.notMem_of_mem_bodyLines hline)
  unfold ProcLiteral.methodLines
  rw [List.cons_append, List.map_cons, List.sum_cons, List.map_append, List.sum_append, List.map_map,
    Function.comp_def, hbody, List.map_singleton, List.sum_singleton, hend, add_zero]

/-- The proc of the hook on some lines. -/
def procAt? (lines : List Line) (range : LineRange) : Option ProcLiteral :=
  (Statement.parse (Lines.extent lines range.first range.last)).bind fun statement =>
    (ProcLiteral.parse statement.value).toOption

/-- The remarks in the body of a hook's proc. -/
def copied (lines : List Line) (range : LineRange) : Multiset Text :=
  ((procAt? lines range).toList.map fun proc =>
    ((ProcLiteral.bodyLines proc.body).map notes).sum).sum

/-- The remarks of a hook in front of its last code. -/
def dropped (lines : List Line) (range : LineRange) : Multiset Text :=
  remarksOf (innerComments (Lines.extent lines range.first range.last))

theorem mem_names_of_on? {line : Line} {hook : String} (h : on? line = some hook) : hook ∈ names := by
  unfold on? at h
  split at h
  · obtain ⟨word, hword, h⟩ := Option.bind_eq_some_iff.1 h
    split at h
    · obtain rfl := Option.some.inj h
      exact List.mem_of_find?_eq_some hword
    · cases h
  · cases h

/-- The method that a hook becomes is made of the hook's statement and its proc. -/
theorem method_eq_ok {lines : List Line} {hook : String} {index last : Nat} {line : Line}
    {new : List Line} (h : method lines hook index last line = .ok new) : ∃ statement proc,
    Statement.parse (Lines.extent lines index last) = some statement ∧
      ProcLiteral.parse statement.value = .ok proc ∧
      new = ProcLiteral.methodLines (Text.indentation line)
        ("self.".toList ++ hook.toList ++ '(' :: ", ".toList.intercalate proc.parameters ++
          ')' :: statement.comments.flatMap (' ' :: ·)) (ProcLiteral.bodyLines proc.body) := by
  unfold method at h
  cases hstatement : Statement.parse (Lines.extent lines index last) with
  | none =>
    rw [hstatement] at h
    cases h
  | some statement =>
    rw [hstatement] at h
    cases hproc : ProcLiteral.parse statement.value with
    | error reason =>
      replace h : (ProcLiteral.parse statement.value >>= _) = Except.ok new := h
      rw [hproc] at h
      cases h
    | ok proc =>
      replace h : (ProcLiteral.parse statement.value >>= _) = Except.ok new := h
      rw [hproc] at h
      exact ⟨statement, proc, rfl, hproc, (Except.ok.inj h).symm⟩

/-- **What a method does to the comments of its hook.** -/
theorem Genuine.notes_method {lines : List Line} {outline : Outline} {range : LineRange}
    {new : List Line} (h : Genuine lines outline range new) :
    (new.map notes).sum + dropped lines range =
      noted (Lines.extent lines range.first range.last) + copied lines range := by
  obtain ⟨line, hook, -, hhook, hmethod⟩ := h.starts
  obtain ⟨statement, proc, hstatement, hproc, rfl⟩ := method_eq_ok hmethod
  have hindent := Text.isIndent_indentation line
  have hname : ∀ word ∈ names, Plain word.toList := by decide
  have hparameters : Carries (", ".toList.intercalate proc.parameters) 0 := by
    have hplain := ProcLiteral.plain_parameters hproc
    have hall := carries_intercalate fun p hp => (hplain p hp).carries.closed
    rwa [List.map_congr_left fun p hp => (hplain p hp).carries.noted_eq, List.map_const',
      List.sum_replicate, nsmul_zero] at hall
  have hfront : Plain (Text.indentation line ++ "def self.".toList ++ hook.toList) := by
    have hself : Plain "def self.".toList := by decide
    exact ((plain_of_isIndent hindent).append hself).append (hname hook (mem_names_of_on? hhook))
  have hopen : ∀ rest, Scan.head '(' rest = (some .lparen, 0) := fun _ => rfl
  have hclose : Carries [')'] 0 := Plain.carries (by decide)
  have hbrackets := (hparameters.append hclose (Scan.stops_cons (by decide) _)).cons hopen
    (by decide)
  have hcall := hfront.carries.append hbrackets (Scan.stops_cons (by decide) _)
  obtain ⟨htidy, hnoted⟩ := hcall.commented (Statement.isComment_of_parse hstatement)
  have hcopied : copied lines range = ((ProcLiteral.bodyLines proc.body).map notes).sum := by
    simp [copied, procAt?, hstatement, hproc, Except.toOption]
  have hfirst : notes (Text.indentation line ++ "def ".toList ++ ("self.".toList ++ hook.toList ++
      '(' :: ", ".toList.intercalate proc.parameters ++
        ')' :: statement.comments.flatMap (' ' :: ·))) = remarksOf statement.comments := by
    rw [← htidy.notes_eq] at hnoted
    simpa using hnoted
  rw [notes_methodLines hindent, hfirst, hcopied, dropped, Statement.noted_of_parse hstatement]
  abel

end Hook

end SchemaLift
