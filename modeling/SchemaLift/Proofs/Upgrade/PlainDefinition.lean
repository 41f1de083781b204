import SchemaLift.Proofs.Declaration.FlatLine
import SchemaLift.Proofs.Definition.HeaderShape
import SchemaLift.Proofs.Definition.NameStatement
import SchemaLift.Proofs.Definition.Scan

/-!
# Upgrading a plain definition

A definition whose body holds nothing but declarations of a name and a type is upgraded line by line
(`upgrade_plainDefinition`). One rule after the other finds its own lines in the legacy form and those
of the rules before it in the new form, and leaves all but its own alone.
-/

namespace SchemaLift

structure PlainDefinition where
  name : Text
  kind : DefinitionKind
  declarations : List PlainDeclaration
  /-- The number of line feeds at the end of the text. -/
  feeds : Nat

namespace PlainDefinition

structure WellFormed (d : PlainDefinition) : Prop where
  name : Scan.ConstantPath d.name
  declarations : ∀ e ∈ d.declarations, e.WellFormed

def legacyHeader (d : PlainDefinition) : Line :=
  d.name ++ " = GraphQL::".toList ++ d.kind.legacyName.toList ++ ".define do".toList

def classHeader (d : PlainDefinition) : Line :=
  "class ".toList ++ d.name ++ " < Types::".toList ++ d.kind.baseClass.toList

/-- The lines of the definition with a header, each declaration on a line of its own. -/
def linesWith (d : PlainDefinition) (header : Line) (written : PlainDeclaration → Line) :
    List Line :=
  header :: (d.declarations.map written ++ "end".toList :: List.replicate d.feeds [])

def legacyText (d : PlainDefinition) : Text :=
  Text.unlines (d.linesWith d.legacyHeader PlainDeclaration.legacyLine)

def flatText (d : PlainDefinition) : Text :=
  Text.unlines (d.linesWith d.classHeader PlainDeclaration.flatLine)

/-- The number of declarations of a kind. -/
def count (d : PlainDefinition) (kind : DeclarationKind) : Nat :=
  d.declarations.countP fun e => e.kind = kind

/-- The rules of the declarations that there are, with their number. -/
def counts (d : PlainDefinition) : List (Rule × Nat) :=
  [DeclarationKind.field, .argument, .inputField, .connection].flatMap fun kind =>
    if d.count kind = 0 then [] else [(kind.rule, d.count kind)]

variable {d : PlainDefinition}

/-! ## The headers -/

/-- The parts of the header. -/
def header (d : PlainDefinition) : DefinitionHeader :=
  ⟨[], d.name, d.kind.legacyName.toList, []⟩

theorem wellFormed_header (h : d.WellFormed) : d.header.WellFormed :=
  ⟨by rintro c ⟨⟩, h.name, .inl rfl⟩

theorem legacyHeader_eq (d : PlainDefinition) :
    d.legacyHeader = d.header.legacyLine ⟨[' '], [' '], [' '], []⟩ := by
  simp [legacyHeader, DefinitionHeader.legacyLine, header]

theorem classHeader_eq (d : PlainDefinition) :
    d.classHeader = d.header.classLine "Types".toList d.kind := by
  have happ : " < Types::".toList = " < ".toList ++ ("Types".toList ++ "::".toList) := by decide
  have hns : ¬("Types".toList : Text).isEmpty = true := by decide
  have hsuper : d.kind.superclass "Types".toList =
      "Types".toList ++ "::".toList ++ d.kind.baseClass.toList := if_neg hns
  calc d.classHeader
      = "class ".toList ++ d.name ++ (" < ".toList ++ ("Types".toList ++ "::".toList)) ++
          d.kind.baseClass.toList :=
        congrArg (fun s => "class ".toList ++ d.name ++ s ++ d.kind.baseClass.toList) happ
    _ = [] ++ "class ".toList ++ d.name ++ " < ".toList ++
          ("Types".toList ++ "::".toList ++ d.kind.baseClass.toList) ++ [] := by
        simp only [List.nil_append, List.append_assoc, List.append_nil]
    _ = d.header.classLine "Types".toList d.kind :=
        congrArg (fun s => [] ++ "class ".toList ++ d.name ++ " < ".toList ++ s ++ []) hsuper.symm

theorem blank_spacing : DefinitionHeader.Spacing.Blank ⟨[' '], [' '], [' '], []⟩ where
  beforeEquals := List.all_eq_true.1 (by decide)
  afterEquals := List.all_eq_true.1 (by decide)
  beforeDo := List.all_eq_true.1 (by decide)
  afterDo := by rintro c ⟨⟩
  separate := List.cons_ne_nil _ _

theorem ofLegacyName?_legacyName (kind : DefinitionKind) :
    DefinitionKind.ofLegacyName? kind.legacyName.toList = some kind := by
  cases kind <;> decide

/-- The header is read with all its parts. -/
theorem parse?_legacyHeader (h : d.WellFormed) :
    DefinitionHeader.parse? d.legacyHeader = some d.header := by
  obtain ⟨c, tail, hname, hc, htail, -⟩ := h.name.exists_cons
  have hblank : ¬(c == ' ' || c == '\t') = true := by
    intro hb
    have hu := isUpper_iff_toNat.1 hc
    rcases Bool.or_eq_true_iff.1 hb with hb | hb <;> rw [beq_iff_eq.1 hb] at hu <;>
      exact absurd hu (by decide)
  obtain ⟨rest, hrest, hline⟩ : ∃ rest, rest = " = GraphQL::".toList ++ d.kind.legacyName.toList ++
      ".define do".toList ∧ d.legacyHeader = c :: (tail ++ rest) :=
    ⟨_, rfl, by simp [legacyHeader, hname]⟩
  have hdelimits : Scan.Delimits rest := by
    rw [hrest]
    exact Scan.delimits_cons (d := ' ') (by decide) _
  have hpath : DefinitionHeader.constantPath? (c :: (tail ++ rest)) = some (d.name, rest) := by
    rw [DefinitionHeader.constantPath?, if_pos hc]
    simp only [htail rest hdelimits, List.take_left, List.drop_left, hname]
  have hspan : Text.spanOf (fun c => c == ' ' || c == '\t') (c :: (tail ++ rest)) =
      ([], c :: (tail ++ rest)) := by
    unfold Text.spanOf
    rw [List.takeWhile_cons_of_neg (p := fun d => d == ' ' || d == '\t') hblank,
      List.dropWhile_cons_of_neg (p := fun d => d == ' ' || d == '\t') hblank]
  unfold DefinitionHeader.parse?
  rw [hline, hspan]
  simp only [hpath, header, bind, Option.bind_some]
  rw [hrest]
  cases d.kind <;> rfl

/-! ## Lines around the declarations -/

/-- A line of the frame: no rule finds the start of a statement on it. -/
structure Inert (line : Line) : Prop where
  header : DefinitionHeader.parse? line = none
  words : ∀ word : String, word ≠ "class" →
    (tokenizeCode line).head?.any (·.isWord word) = false

theorem inert_end : Inert "end".toList where
  header := by decide
  words := fun _ _ => rfl

theorem inert_nil : Inert [] := ⟨rfl, fun _ _ => rfl⟩

theorem inert_classHeader (h : d.WellFormed) : Inert d.classHeader where
  header := by
    rw [classHeader_eq]
    exact DefinitionHeader.parse?_classLine (wellFormed_header h) _
  words := by
    intro word hword
    have hns : Scan.ConstantPath "Types".toList :=
      .word (by decide) (List.all_eq_true.1 (by decide))
    rw [classHeader_eq, DefinitionHeader.tokenizeCode_classLine (wellFormed_header h) (.inr hns)
      List.not_mem_nil]
    have hne : "class".toList ≠ word.toList := fun heq => hword (String.toList_inj.1 heq).symm
    simp only [List.head?_cons, Option.any_some, Token.isWord, beq_eq_false_iff_ne.2 hne,
      Bool.and_false]

/-! ## Lines of a text on its way -/

/-- The text when the header and the kinds `done` have been upgraded. -/
def stage (d : PlainDefinition) (done : List DeclarationKind) : Text :=
  Text.unlines (d.linesWith d.classHeader (·.stageLine done))

/-- A property of all lines. -/
theorem forall_mem_linesWith {P : Line → Prop} {header : Line} {written : PlainDeclaration → Line}
    (hheader : P header) (hwritten : ∀ e ∈ d.declarations, P (written e)) (hend : P "end".toList)
    (hnil : P []) : ∀ line ∈ d.linesWith header written, P line := by
  intro line hline
  simp only [linesWith, List.mem_cons, List.mem_append, List.mem_map] at hline
  rcases hline with rfl | ⟨e, he, rfl⟩ | rfl | hline
  · exact hheader
  · exact hwritten e he
  · exact hend
  · rwa [List.eq_of_mem_replicate hline]

section

variable (h : d.WellFormed)
include h

theorem notMem_header {x : Char} (hx : x = '\n' ∨ x = '\r') :
    x ∉ d.legacyHeader ∧ x ∉ d.classHeader := by
  have hname : x ∉ d.name := by
    intro hmem
    have htoken := TypeExpression.isTokenChar_constantPath h.name x hmem
    rcases hx with rfl | rfl <;> exact absurd htoken (by decide)
  have hkind : x ∉ d.kind.legacyName.toList ∧ x ∉ d.kind.baseClass.toList := by
    rcases hx with rfl | rfl <;> cases d.kind <;> decide
  have hwords : (x ∉ " = GraphQL::".toList ∧ x ∉ ".define do".toList) ∧
      x ∉ "class ".toList ∧ x ∉ " < Types::".toList := by
    rcases hx with rfl | rfl <;> decide
  have happend : ∀ {s t : Text}, x ∉ s → x ∉ t → x ∉ s ++ t := fun hs ht hmem =>
    (List.mem_append.1 hmem).elim hs ht
  exact ⟨happend (happend (happend hname hwords.1.1) hkind.1) hwords.1.2,
    happend (happend (happend hwords.2.1 hname) hwords.2.2) hkind.2⟩

/-- Line feeds and carriage returns are no part of any line. -/
theorem notMem_line {x : Char} (hx : x = '\n' ∨ x = '\r') {header : Line}
    (hheader : header = d.legacyHeader ∨ header = d.classHeader) (done : List DeclarationKind) :
    ∀ line ∈ d.linesWith header (·.stageLine done), x ∉ line := by
  have htoken : TypeExpression.isTokenChar x = false ∧ x ∉ [' ', '\t', ','] ∧ x ∉ "end".toList := by
    rcases hx with rfl | rfl <;> decide
  obtain ⟨htoken, hgap, hend⟩ := htoken
  obtain ⟨hlegacy, hclass⟩ := notMem_header h hx
  refine forall_mem_linesWith ?_ ?_ hend List.not_mem_nil
  · rcases hheader with rfl | rfl
    · exact hlegacy
    · exact hclass
  · intro e he
    rcases e.stageLine_cases done with hline | hline
    · rw [hline]
      exact PlainDeclaration.notMem_legacyLine (h.declarations e he) htoken hgap
    · rw [hline]
      exact PlainDeclaration.notMem_flatLine (h.declarations e he) htoken hgap

theorem lines_stage (done : List DeclarationKind) :
    Text.lines (d.stage done) = d.linesWith d.classHeader (·.stageLine done) :=
  Text.lines_unlines (List.cons_ne_nil _ _) (notMem_line h (.inl rfl) (.inr rfl) done)

/-! ## One rule -/

/-- The rules that do not edit declarations find nothing. -/
theorem apply_idle {rule : Rule}
    (hrule : rule ∈ [Rule.typeDefinition, .name, .implements, .possibleTypes, .classProc])
    (ns : Text) (done : List DeclarationKind) :
    rule.apply ns (d.stage done) = .ok ⟨d.stage done, 0, []⟩ := by
  have hwords : ∀ word ∈ ["name", "interfaces", "possible_types", "resolve_type", "coerce_input",
      "coerce_result"], ∀ line ∈ Text.lines (d.stage done),
        (tokenizeCode line).head?.any (·.isWord word) = false := by
    intro word hword
    have hne : word ≠ "class" ∧ word ∉ ["field", "argument", "input_field", "connection"] := by
      revert word
      decide
    rw [lines_stage h]
    refine forall_mem_linesWith ((inert_classHeader h).words word hne.1) ?_
      (inert_end.words word hne.1) (inert_nil.words word hne.1)
    exact fun e he => PlainDeclaration.head?_isWord (h.declarations e he) (e.stageLine_cases done)
      hne.2
  have hheaders : ∀ line ∈ Text.lines (d.stage done), DefinitionHeader.parse? line = none := by
    rw [lines_stage h]
    exact forall_mem_linesWith (inert_classHeader h).header
      (fun e _ => PlainDeclaration.parse?_line (e.stageLine_cases done)) inert_end.header
      inert_nil.header
  simp only [List.mem_cons, List.not_mem_nil, or_false] at hrule
  rcases hrule with rfl | rfl | rfl | rfl | rfl
  · exact congrArg Except.ok (DefinitionHeader.upgradeAll_idle hheaders ns)
  · refine NameStatement.upgradeAll_idle fun line hline => ?_
    have hword := hwords "name" (by decide) line hline
    rw [← Option.not_isSome_iff_eq_none]
    intro hname
    rw [NameStatement.startsWithName_of_parse? hname] at hword
    cases hword
  · exact TypeList.upgradeAll_idle (hwords "interfaces" (by decide)) _ _
  · exact TypeList.upgradeAll_idle (hwords "possible_types" (by decide)) _ _
  · refine Hook.upgradeAll_idle fun line hline => ?_
    apply Hook.on?_eq_none
    intro word hword
    exact hwords word (List.mem_of_mem_drop (i := 3) hword) line hline

/-- A rule that edits each declaration for itself. -/
theorem apply_editor {editor : Declaration.Editor} (he : editor ∈ Declaration.editors)
    {done next : List DeclarationKind}
    (hedit : ∀ e ∈ d.declarations, Declaration.LineEdit editor.keyword editor.revise
      (e.stageLine done) (e.stageLine next)) (ns : Text) :
    editor.rule.apply ns (d.stage done) = .ok ⟨d.stage next,
      d.declarations.countP fun e => e.stageLine done ≠ e.stageLine next, []⟩ := by
  have hother : ∀ line, Inert line → Declaration.LineEdit editor.keyword editor.revise line line := by
    intro line hline
    have hne : editor.keyword ≠ "class" := by
      rcases Declaration.editors_cases he with ⟨_ | _ | _ | _, rfl⟩ | rfl | rfl <;> decide
    exact .other (Declaration.startsOn_eq_false (hline.words _ hne))
  have hcells : ∀ c ∈ (d.classHeader, d.classHeader) ::
      (d.declarations.map (fun e => (e.stageLine done, e.stageLine next)) ++
        ("end".toList, "end".toList) :: List.replicate d.feeds ([], [])),
          Declaration.LineEdit editor.keyword editor.revise c.1 c.2 := by
    intro c hc
    simp only [List.mem_cons, List.mem_append, List.mem_map] at hc
    rcases hc with rfl | ⟨e, hmem, rfl⟩ | rfl | hc
    · exact hother _ (inert_classHeader h)
    · exact hedit e hmem
    · exact hother _ inert_end
    · rw [List.eq_of_mem_replicate hc]
      exact hother _ inert_nil
  have hsource := lines_stage h done
  generalize hcellsEq : (d.classHeader, d.classHeader) :: (d.declarations.map
    (fun e => (e.stageLine done, e.stageLine next)) ++ ("end".toList, "end".toList) ::
      List.replicate d.feeds ([], [])) = cells at hcells
  have hfst : cells.map Prod.fst = d.linesWith d.classHeader (·.stageLine done) := by
    rw [← hcellsEq]
    simp only [linesWith, List.map_cons, List.map_append, List.map_map, List.map_replicate,
      Function.comp_def]
  have hsnd : cells.map Prod.snd = d.linesWith d.classHeader (·.stageLine next) := by
    rw [← hcellsEq]
    simp only [linesWith, List.map_cons, List.map_append, List.map_map, List.map_replicate,
      Function.comp_def]
  have hcount : (cells.countP fun c => c.1 ≠ c.2) =
      d.declarations.countP fun e => e.stageLine done ≠ e.stageLine next := by
    rw [← hcellsEq]
    simp only [List.countP_cons, List.countP_append, List.countP_map, List.countP_replicate,
      ne_eq, not_true_eq_false, decide_false, Bool.false_eq_true, ↓reduceIte, Nat.add_zero,
      Function.comp_def]
  rw [Declaration.apply_of_mem_editors he, Declaration.upgradeAll_lines hcells
    (hsource.trans hfst.symm), hsnd, hcount]
  rfl

/-- The rule of a kind writes the new lines of its declarations. -/
theorem apply_kind {done : List DeclarationKind} {kind : DeclarationKind} (hkind : kind ∉ done)
    (ns : Text) :
    kind.rule.apply ns (d.stage done) = .ok ⟨d.stage (kind :: done), d.count kind, []⟩ := by
  have heditor : ⟨kind.rule, kind.keyword, Declaration.flatten kind⟩ ∈ Declaration.editors := by
    cases kind <;> simp [Declaration.editors, DeclarationKind.rule, DeclarationKind.keyword]
  have happly := apply_editor h heditor (fun e he =>
    PlainDeclaration.lineEdit_stageLine (h.declarations e he) done kind) ns
  have hcount : (d.declarations.countP fun e => e.stageLine done ≠ e.stageLine (kind :: done)) =
      d.count kind := by
    refine List.countP_congr fun e he => ?_
    simpa using PlainDeclaration.stageLine_ne_iff (h.declarations e he) hkind
  rw [hcount] at happly
  exact happly

/-- When all declarations are in the new form, no rule finds anything. -/
theorem apply_flat (rule : Rule) (ns : Text) {done : List DeclarationKind}
    (hdone : ∀ kind, kind ∈ done) : rule.apply ns (d.stage done) = .ok ⟨d.stage done, 0, []⟩ := by
  rcases rule.cases with ⟨editor, he, rfl⟩ | rfl | rfl | rfl | rfl | rfl
  · have hedit : ∀ e ∈ d.declarations, Declaration.LineEdit editor.keyword editor.revise
        (e.stageLine done) (e.stageLine done) := by
      intro e hmem
      rw [PlainDeclaration.stageLine, if_pos (hdone e.kind)]
      exact PlainDeclaration.lineEdit_flatLine (h.declarations e hmem) he
    have happly := apply_editor h he hedit ns
    simpa using happly
  all_goals exact apply_idle h (by decide) ns done

/-! ## The header -/

omit h in
theorem closingLine_isSome {quiet : List (List BlockEvent)} (hq : ∀ es ∈ quiet, es = [])
    (rest : List (List BlockEvent)) (index : Nat) :
    (Outline.closingLine 1 index (quiet ++ [.closes] :: rest)).isSome = true := by
  induction quiet generalizing index with
  | nil => rfl
  | cons es quiet ih =>
    obtain rfl := hq es List.mem_cons_self
    exact ih (fun es hes => hq es (List.mem_cons_of_mem _ hes)) (index + 1)

/-- The block of the definition is closed by its last line. -/
theorem matchBlock_isSome :
    ((Outline.ofLines (d.linesWith d.legacyHeader (·.stageLine []))).matchBlock 0).isSome = true := by
  have hheader : (LineShape.ofLine d.legacyHeader).events = [.opens] := by
    rw [legacyHeader_eq, DefinitionHeader.ofLine_legacyLine (wellFormed_header h) blank_spacing
      (ofLegacyName?_legacyName d.kind) List.not_mem_nil]
  have hquiet : ∀ es ∈ (d.declarations.map (·.stageLine [])).map fun line =>
      (LineShape.ofLine line).events, es = [] := by
    intro es hes
    rw [List.map_map] at hes
    obtain ⟨e, he, rfl⟩ := List.mem_map.1 hes
    show (LineShape.ofLine e.legacyLine).events = []
    rw [(PlainDeclaration.oneLine_legacyLine (h.declarations e he)).shape]
  have hend : (LineShape.ofLine "end".toList).events = [.closes] := by decide
  have hevents : ((Outline.ofLines (d.linesWith d.legacyHeader (·.stageLine []))).drop 0).map
      LineShape.events = [.opens] :: (((d.declarations.map (·.stageLine [])).map fun line =>
        (LineShape.ofLine line).events) ++ [.closes] ::
          (List.replicate d.feeds []).map fun line => (LineShape.ofLine line).events) := by
    simp only [Outline.ofLines, linesWith, List.drop_zero, List.map_cons, List.map_append, hheader,
      hend, List.map_map, Function.comp_def]
  unfold Outline.matchBlock
  rw [hevents, Option.isSome_map]
  exact @closingLine_isSome ([] :: _) (List.forall_mem_cons.2 ⟨rfl, hquiet⟩) _ 0

theorem lines_legacyText : Text.lines d.legacyText =
    d.legacyHeader :: (d.declarations.map (·.stageLine []) ++ "end".toList ::
      List.replicate d.feeds []) :=
  Text.lines_unlines (List.cons_ne_nil _ _) (notMem_line h (.inl rfl) (.inl rfl) [])

/-- The header becomes that of a class. -/
theorem apply_typeDefinition :
    Rule.typeDefinition.apply "Types".toList d.legacyText = .ok ⟨d.stage [], 1, []⟩ := by
  have hreplaced : DefinitionHeader.upgradeLine "Types".toList
      (Outline.ofLines (d.linesWith d.legacyHeader (·.stageLine []))) 0 d.legacyHeader =
        .replaced d.classHeader :=
    DefinitionHeader.upgradeLine_eq_replaced_iff.2 ⟨d.header, d.kind, parse?_legacyHeader h,
      ofLegacyName?_legacyName d.kind, matchBlock_isSome h, classHeader_eq d⟩
  refine congrArg Except.ok (DefinitionHeader.upgradeAll_first (lines_legacyText h) hreplaced ?_)
  intro line hline
  simp only [List.mem_append, List.mem_cons, List.mem_map] at hline
  rcases hline with ⟨e, -, rfl⟩ | rfl | hline
  · exact PlainDeclaration.parse?_line (.inl rfl)
  · exact inert_end.header
  · rw [List.eq_of_mem_replicate hline]
    exact inert_nil.header

/-! ## Line ends -/

omit h in
/-- A text without carriage returns has plain line feeds. -/
theorem detect_eq_lf {s : Text} (hs : '\r' ∉ s) : Newline.detect s = .lf := by
  have hreturned : ∀ (s : Text) (cr : Bool), cr = false → '\r' ∉ s → '\n' ∈ s →
      Newline.allReturned cr s = false := by
    intro s
    induction s with
    | nil => rintro cr - - ⟨⟩
    | cons c cs ih =>
      rintro cr rfl hr hn
      rw [List.mem_cons, not_or] at hr
      rw [Newline.allReturned]
      rcases List.mem_cons.1 hn with rfl | hn
      · rfl
      · rw [ih (c == '\r') (beq_eq_false_iff_ne.2 (Ne.symm hr.1)) hr.2 hn, Bool.and_false]
  unfold Newline.detect
  rw [if_neg]
  rintro ⟨hn, hall⟩
  rw [hreturned s false rfl hs hn] at hall
  cases hall

omit h in
theorem notMem_unlines {x : Char} (hx : x ≠ '\n') {ls : List Line} (hls : ∀ line ∈ ls, x ∉ line) :
    x ∉ Text.unlines ls := by
  induction ls with
  | nil => exact List.not_mem_nil
  | cons line rest ih =>
    have hline := hls line List.mem_cons_self
    cases rest with
    | nil => exact hline
    | cons next rest =>
      have hrest := ih fun l hl => hls l (List.mem_cons_of_mem line hl)
      intro hmem
      rcases List.mem_append.1 hmem with hmem | hmem
      · exact hline hmem
      · rcases List.mem_cons.1 hmem with heq | hmem
        · exact hx heq
        · exact hrest hmem

/-! ## The whole upgrade -/

/-- The run on the legacy text. -/
theorem applyRules_legacyText : applyRules .standard d.legacyText =
    .ok ⟨d.stage [.connection, .inputField, .argument, .field], (.typeDefinition, 1) :: d.counts,
      []⟩ := by
  have hrules : UpgradeOptions.standard.rules = Rule.all := by decide
  have hall : ∀ kind, kind ∈ [DeclarationKind.connection, .inputField, .argument, .field] := by
    intro kind
    cases kind <;> decide
  rw [applyRules, hrules, Rule.all, Report.foldlM_step_cons (apply_typeDefinition h),
    Report.foldlM_step_cons (apply_idle h (show Rule.name ∈ _ by decide) _ []),
    Report.foldlM_step_cons (apply_kind h (show DeclarationKind.field ∉ _ by decide) _),
    Report.foldlM_step_cons (apply_kind h (show DeclarationKind.argument ∉ _ by decide) _),
    Report.foldlM_step_cons (apply_kind h (show DeclarationKind.inputField ∉ _ by decide) _),
    Report.foldlM_step_cons (apply_kind h (show DeclarationKind.connection ∉ _ by decide) _),
    Report.foldlM_idle fun rule _ => apply_flat h rule _ hall]
  simp [counts, DeclarationKind.rule]

end

end PlainDefinition

open PlainDefinition in
/-- **Plain definitions are upgraded exactly.** The header becomes that of a class and each declaration
its flat line; the report counts the declarations of each kind and one definition, and nothing is
skipped. Upgrading the result again changes nothing. -/
theorem upgrade_plainDefinition (d : PlainDefinition) (h : d.WellFormed) :
    upgrade .standard d.legacyText = .ok ⟨d.flatText, (.typeDefinition, 1) :: d.counts, []⟩ ∧
      upgrade .standard d.flatText = .ok ⟨d.flatText, [], []⟩ := by
  have hall : ∀ kind, kind ∈ [DeclarationKind.connection, .inputField, .argument, .field] := by
    intro kind
    cases kind <;> decide
  have hstage : d.stage [.connection, .inputField, .argument, .field] = d.flatText := by
    have hlines : ∀ e : PlainDeclaration, e.stageLine [.connection, .inputField, .argument, .field] =
        e.flatLine := fun e => if_pos (hall e.kind)
    simp only [stage, flatText, hlines]
  constructor
  · have hdetect := detect_eq_lf (s := d.legacyText)
      (notMem_unlines (by decide) (notMem_line h (.inr rfl) (.inl rfl) []))
    rw [upgrade_eq, plainText, hdetect, Newline.normalize, applyRules_legacyText h, hstage]
    rfl
  · have hdetect : Newline.detect d.flatText = .lf := by
      rw [← hstage]
      exact detect_eq_lf (notMem_unlines (by decide) (notMem_line h (.inr rfl) (.inr rfl) _))
    have hidle : applyRules .standard d.flatText = .ok ⟨d.flatText, [], []⟩ := by
      refine Report.foldlM_idle fun rule _ => ?_
      rw [← hstage]
      exact apply_flat h rule _ hall
    rw [upgrade_eq, plainText, hdetect, Newline.normalize, hidle]
    rfl

theorem upgrade_plainDefinition_team :
    upgrade .standard ("Crm::Team = GraphQL::ObjectType.define do\n" ++
        "  field :fullName, !types.String\n" ++
        "  connection :staff, -> \x7b types[!UserType] \x7d\n" ++
        "  argument :limit, types.Int\n" ++
        "end\n").toList =
      .ok ⟨("class Crm::Team < Types::BaseObject\n" ++
        "  field :full_name, String, null: false\n" ++
        "  field :staff, -> \x7b [UserType] \x7d, null: true, connection: true\n" ++
        "  argument :limit, Integer, required: false\n" ++
        "end\n").toList,
        [(.typeDefinition, 1), (.field, 1), (.argument, 1), (.connection, 1)], []⟩ := by
  let d : PlainDefinition := ⟨"Crm::Team".toList, .object,
    [⟨.field, "fullName".toList, "!types.String".toList, ⟨"String".toList, false, 0, false⟩⟩,
      ⟨.connection, "staff".toList, "-> \x7b types[!UserType] \x7d".toList,
        ⟨"UserType".toList, true, 1, true⟩⟩,
      ⟨.argument, "limit".toList, "types.Int".toList, ⟨"Integer".toList, true, 0, false⟩⟩], 1⟩
  have hcrm : ∀ c ∈ "rm".toList, Scan.isWordChar c = true := List.all_eq_true.1 (by decide)
  have hteam : ∀ c ∈ "eam".toList, Scan.isWordChar c = true := List.all_eq_true.1 (by decide)
  have hname : Scan.ConstantPath d.name := .nested (by decide) hcrm (.word (by decide) hteam)
  have halnum : ∀ {s : Text}, s.all Char.isAlphanum = true → ∀ c ∈ s, c.isAlphanum = true :=
    List.all_eq_true.1
  have hinline : ∀ {type : Text} {t : TypeExpression}, TypeExpression.parse type = some t →
      (tokenize type).all (fun u => u.kind != .comment && u.gap.all (· == ' ')) = true →
      (TokenStream.ofText type).tail.all (· == ' ') = true → TypeExpression.Inline type t := by
    intro type t hparse htokens htail
    simp only [List.all_eq_true, Bool.and_eq_true, bne_iff_ne, beq_iff_eq] at htokens htail
    exact ⟨hparse, fun u hu => (htokens u hu).1, fun u hu => (htokens u hu).2, htail⟩
  have hdeclarations : ∀ e ∈ d.declarations, e.WellFormed := by
    intro e he
    have hcases : e = d.declarations[0] ∨ e = d.declarations[1] ∨ e = d.declarations[2] := by
      simpa [d] using he
    rcases hcases with rfl | rfl | rfl
    · exact ⟨⟨'f', "ullName".toList, rfl, by decide, halnum (by decide)⟩,
        hinline (by decide +kernel) (by decide +kernel) (by decide +kernel)⟩
    · exact ⟨⟨'s', "taff".toList, rfl, by decide, halnum (by decide)⟩,
        hinline (by decide +kernel) (by decide +kernel) (by decide +kernel)⟩
    · exact ⟨⟨'l', "imit".toList, rfl, by decide, halnum (by decide)⟩,
        hinline (by decide +kernel) (by decide +kernel) (by decide +kernel)⟩
  have hrun := (upgrade_plainDefinition d ⟨hname, hdeclarations⟩).1
  calc upgrade .standard _
      = upgrade .standard d.legacyText := congrArg (upgrade .standard) (by decide +kernel)
    _ = .ok ⟨d.flatText, (.typeDefinition, 1) :: d.counts, []⟩ := hrun
    _ = _ := congrArg Except.ok (by decide +kernel)

end SchemaLift
