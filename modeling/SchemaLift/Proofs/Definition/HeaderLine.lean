import SchemaLift.Block.Shape
import SchemaLift.Definition.Header
import SchemaLift.Proofs.Call.Signature
import SchemaLift.Proofs.Text.Match
import SchemaLift.Proofs.Token.Constant

/-!
# The line of a header

A line that is read as a header is written from the parts of the header and white space
(`exists_legacyLine`), so the scanner's tokens on it are known. The class header that replaces it has
other tokens and the same shape: each of the two opens one block, leaves all brackets closed, and goes
on in the next line if its comment ends in a backslash (`ofLine_legacyLine`, `ofLine_classLine`).
-/

namespace SchemaLift

namespace DefinitionHeader

/-! ## Lines that are read as headers -/

/-- The white space in a header. -/
structure Spacing where
  beforeEquals : Text
  afterEquals : Text
  beforeDo : Text
  afterDo : Text

structure Spacing.Blank (s : Spacing) : Prop where
  beforeEquals : ∀ c ∈ s.beforeEquals, Text.isBlankChar c = true
  afterEquals : ∀ c ∈ s.afterEquals, Text.isBlankChar c = true
  beforeDo : ∀ c ∈ s.beforeDo, Text.isBlankChar c = true
  afterDo : ∀ c ∈ s.afterDo, Text.isBlankChar c = true
  separate : s.beforeDo ≠ []

/-- The line of a header with given white space. -/
def legacyLine (h : DefinitionHeader) (s : Spacing) : Line :=
  h.indent ++ (h.name ++ (s.beforeEquals ++ ("=".toList ++ (s.afterEquals ++ ("GraphQL::".toList ++
    (h.kind ++ (".define".toList ++ (s.beforeDo ++ ("do".toList ++ (s.afterDo ++ h.comment))))))))))

/-- What the parts of a header are. -/
structure WellFormed (h : DefinitionHeader) : Prop where
  indent : Text.IsIndent h.indent
  name : Scan.ConstantPath h.name
  comment : h.comment = [] ∨ ∃ cs, h.comment = '#' :: cs

theorem constantPath?_eq_some {s name rest : Text} (h : constantPath? s = some (name, rest)) :
    Scan.ConstantPath name ∧ s = name ++ rest := by
  unfold constantPath? at h
  cases s with
  | nil => cases h
  | cons c cs =>
    simp only at h
    split at h
    · rename_i hc
      obtain ⟨rfl, rfl⟩ := Prod.mk.inj (Option.some.inj h)
      have hnil : ∀ d ∈ ([] : Text), Scan.isWordChar d = true := by simp
      refine ⟨Scan.constantPath_take hc hnil cs, ?_⟩
      rw [List.cons_append, List.take_append_drop]
    · cases h

theorem finalComment?_eq_some {s comment : Text} (h : Text.finalComment? s = some comment) :
    s = comment ∧ (comment = [] ∨ ∃ cs, comment = '#' :: cs) := by
  unfold Text.finalComment? at h
  split at h
  · rename_i hs
    obtain rfl := Option.some.inj h
    refine ⟨rfl, ?_⟩
    cases s with
    | nil => exact Or.inl rfl
    | cons c cs =>
      have hc : c = '#' := by simpa using hs
      exact Or.inr ⟨cs, by rw [hc]⟩
  · cases h

/-- A line that is read as a header is one. -/
theorem exists_legacyLine {line : Line} {h : DefinitionHeader} (hp : parse? line = some h) :
    h.WellFormed ∧ ∃ s : Spacing, s.Blank ∧ line = h.legacyLine s := by
  unfold parse? at hp
  split at hp
  rename_i indent s₀ hindent
  obtain ⟨⟨name, s₁⟩, hname, hp⟩ := Option.bind_eq_some_iff.1 hp
  obtain ⟨s₂, hequals, hp⟩ := Option.bind_eq_some_iff.1 hp
  obtain ⟨s₃, hgraphql, hp⟩ := Option.bind_eq_some_iff.1 hp
  split at hp
  rename_i kind s₄ hkind
  simp only at hp
  split at hp
  · cases hp
  obtain ⟨s₅, hdefine, hp⟩ := Option.bind_eq_some_iff.1 hp
  obtain ⟨s₆, hsome, hp⟩ := Option.bind_eq_some_iff.1 hp
  obtain ⟨s₇, hdo, hp⟩ := Option.bind_eq_some_iff.1 hp
  obtain ⟨comment, hcomment, hp⟩ := Option.bind_eq_some_iff.1 hp
  obtain rfl := Option.some.inj hp
  obtain ⟨hisIndent, rfl⟩ := Text.eq_append_of_spanOf hindent
  obtain ⟨hpath, rfl⟩ := constantPath?_eq_some hname
  obtain ⟨ws₁, hws₁, hs₁⟩ := Text.exists_blank_append s₁
  obtain ⟨ws₂, hws₂, hs₂⟩ := Text.exists_blank_append s₂
  obtain ⟨-, hs₃⟩ := Text.eq_append_of_spanOf hkind
  obtain ⟨w, ws₃, hw, hws₃, hs₅⟩ := Text.exists_blank_cons_append hsome
  obtain ⟨ws₄, hws₄, hs₇⟩ := Text.exists_blank_append s₇
  obtain ⟨hs₈, hshape⟩ := finalComment?_eq_some hcomment
  have hsep : ∀ c ∈ w :: ws₃, Text.isBlankChar c = true := by
    intro c hc
    rcases List.mem_cons.1 hc with rfl | hc
    · exact hw
    · exact hws₃ c hc
  refine ⟨⟨fun c hc => by simpa using hisIndent c hc, hpath, hshape⟩, ⟨ws₁, ws₂, w :: ws₃, ws₄⟩,
    ⟨hws₁, hws₂, hsep, hws₄, List.cons_ne_nil _ _⟩, ?_⟩
  rw [hs₁, Text.eq_append_of_afterWord? hequals, hs₂, Text.eq_append_of_afterWord? hgraphql, hs₃,
    Text.eq_append_of_afterWord? hdefine, hs₅, Text.eq_append_of_afterWord? hdo, hs₇, hs₈]
  rfl

/-! ## Tokens of a header -/

variable {h : DefinitionHeader} {kind : DefinitionKind}

theorem constantPath_legacyName (kind : DefinitionKind) :
    Scan.ConstantPath ("GraphQL::".toList ++ kind.legacyName.toList) := by
  have hgraphql : ∀ c ∈ "raphQL".toList, Scan.isWordChar c = true := List.all_eq_true.1 (by decide)
  cases kind <;>
    exact .nested (by decide) hgraphql (.word (by decide) (List.all_eq_true.1 (by decide)))

theorem constantPath_superclass {ns : Text} (hns : ns = [] ∨ Scan.ConstantPath ns)
    (kind : DefinitionKind) : Scan.ConstantPath (kind.superclass ns) := by
  have hbase : Scan.ConstantPath kind.baseClass.toList := by
    cases kind <;> exact .word (by decide) (List.all_eq_true.1 (by decide))
  unfold DefinitionKind.superclass
  split
  · exact hbase
  · rename_i hne
    have hpath : Scan.ConstantPath ns := hns.resolve_left fun hnil => hne (by rw [hnil]; rfl)
    exact hpath.append hbase

theorem legacyName_of_ofLegacyName? {name : Text}
    (h : DefinitionKind.ofLegacyName? name = some kind) : name = kind.legacyName.toList := by
  have hbeq := List.find?_some (p := fun k : DefinitionKind => k.legacyName.toList == name) h
  exact (beq_iff_eq.1 hbeq).symm

theorem delimits_finalComment (hw : h.WellFormed) : Scan.Delimits h.comment := by
  rcases hw.comment with hnil | ⟨cs, hcs⟩
  · rw [hnil]
    exact Scan.delimits_nil
  · rw [hcs]
    exact Scan.delimits_cons (by decide) cs

/-- The code of a legacy header, without its comment. -/
theorem tokenizeCode_legacyLine (hw : h.WellFormed) {s : Spacing} (hs : s.Blank)
    (hkind : DefinitionKind.ofLegacyName? h.kind = some kind) (hfeed : '\n' ∉ h.comment) :
    tokenizeCode (h.legacyLine s) =
      [⟨h.indent, .constant, h.name⟩, ⟨s.beforeEquals, .operator, ['=']⟩,
        ⟨s.afterEquals, .constant, "GraphQL::".toList ++ h.kind⟩, ⟨[], .dot, ['.']⟩,
        ⟨[], .identifier, "define".toList⟩, ⟨s.beforeDo, .doWord, ['d', 'o']⟩] := by
  -- from the right: each part is read with what follows it
  have hdo : tokenizeCode ("do".toList ++ (s.afterDo ++ h.comment)) =
      [⟨[], .doWord, ['d', 'o']⟩] := by
    have hend := delimits_finalComment hw
    have ho : ∀ c ∈ ['o'], Scan.isWordChar c = true := List.all_eq_true.1 (by decide)
    have hword := tokenizeCode_word_append (c := 'd') (by decide) (by decide) ho
      (Scan.delimits_blank_append hs.afterDo hend)
    rw [tokenizeCode_blank_append hs.afterDo, tokenizeCode_finalComment hw.comment hfeed] at hword
    exact hword
  have hdefine : ∀ rest, Scan.Delimits rest → tokenizeCode (".define".toList ++ rest) =
      ⟨[], .dot, ['.']⟩ :: ⟨[], .identifier, "define".toList⟩ :: tokenizeCode rest := by
    intro rest hr
    have hword : Scan.Identifier "define".toList :=
      .plain (by decide) (by decide) (List.all_eq_true.1 (by decide)) (by decide)
    have hchar : tokenizeCode ('.' :: ("define".toList ++ rest)) =
        ⟨[], .dot, ['.']⟩ :: tokenizeCode ("define".toList ++ rest) :=
      tokenizeCode_char TokenKind.noConfusion rfl
    rw [tokenizeCode_identifier_append hword hr] at hchar
    exact hchar
  have hdot : ∀ rest, Scan.Delimits (".define".toList ++ rest) := fun _ =>
    Scan.delimits_cons (by decide) _
  have hblankDo : Scan.Delimits (s.beforeDo ++ ("do".toList ++ (s.afterDo ++ h.comment))) := by
    cases hsep : s.beforeDo with
    | nil => exact absurd hsep hs.separate
    | cons c cs =>
      exact Scan.delimits_of_isBlankChar (hs.beforeDo c (hsep ▸ List.mem_cons_self)) _
  have hpath : Scan.ConstantPath ("GraphQL::".toList ++ h.kind) := by
    rw [legacyName_of_ofLegacyName? hkind]
    exact constantPath_legacyName kind
  have hequals : ∀ rest, tokenizeCode ("=".toList ++ (s.afterEquals ++ ("GraphQL::".toList ++
      rest))) = ⟨[], .operator, ['=']⟩ ::
        tokenizeCode (s.afterEquals ++ ("GraphQL::".toList ++ rest)) := by
    intro rest
    apply tokenizeCode_char TokenKind.noConfusion
    cases hgap : s.afterEquals with
    | nil => rfl
    | cons c cs =>
      have hc : c ≠ '>' :=
        ne_of_holds (hs.afterEquals c (hgap ▸ List.mem_cons_self)) (by decide)
      exact Scan.head_equals (by simpa using hc)
  have hname : Scan.Delimits (s.beforeEquals ++ ("=".toList ++ (s.afterEquals ++
      ("GraphQL::".toList ++ (h.kind ++ (".define".toList ++ (s.beforeDo ++ ("do".toList ++
        (s.afterDo ++ h.comment))))))))) :=
    Scan.delimits_blank_append hs.beforeEquals (Scan.delimits_cons (by decide) _)
  rw [legacyLine, tokenizeCode_blank_append hw.indent.isBlankChar,
    tokenizeCode_constant_append hw.name hname, tokenizeCode_blank_append hs.beforeEquals,
    hequals, tokenizeCode_blank_append hs.afterEquals, ← List.append_assoc "GraphQL::".toList,
    tokenizeCode_constant_append hpath (hdot _), hdefine _ hblankDo,
    tokenizeCode_blank_append hs.beforeDo, hdo]
  simp only [Token.addGap_cons, List.append_nil]

/-- The code of a class header, without its comment. -/
theorem tokenizeCode_classLine (hw : h.WellFormed) {ns : Text}
    (hns : ns = [] ∨ Scan.ConstantPath ns) (hfeed : '\n' ∉ h.comment) :
    tokenizeCode (h.classLine ns kind) =
      [⟨h.indent, .identifier, "class".toList⟩, ⟨[' '], .constant, h.name⟩,
        ⟨[' '], .operator, ['<']⟩, ⟨[' '], .constant, kind.superclass ns⟩] := by
  have hspace : ∀ c ∈ [' '], Text.isBlankChar c = true := List.all_eq_true.1 (by decide)
  have hgap : ∀ rest, Scan.Delimits ([' '] ++ rest) := fun rest =>
    Scan.delimits_cons (by decide) rest
  have hclass : Scan.Identifier "class".toList :=
    .plain (by decide) (by decide) (List.all_eq_true.1 (by decide)) (by decide)
  have hcomment : Scan.Delimits (if h.comment.isEmpty then [] else ' ' :: h.comment) ∧
      tokenizeCode (if h.comment.isEmpty then [] else ' ' :: h.comment) = [] := by
    split
    · exact ⟨Scan.delimits_nil, rfl⟩
    · refine ⟨Scan.delimits_cons (by decide) _, ?_⟩
      have hblank := tokenizeCode_blank_append hspace h.comment
      rw [tokenizeCode_finalComment hw.comment hfeed] at hblank
      exact hblank
  have hline : h.classLine ns kind = h.indent ++ ("class".toList ++ ([' '] ++ (h.name ++ ([' '] ++
      ('<' :: ([' '] ++ (kind.superclass ns ++
        if h.comment.isEmpty then [] else ' ' :: h.comment))))))) := by
    simp [classLine]
  rw [hline, tokenizeCode_blank_append hw.indent.isBlankChar,
    tokenizeCode_identifier_append hclass (hgap _), tokenizeCode_blank_append hspace,
    tokenizeCode_constant_append hw.name (hgap _), tokenizeCode_blank_append hspace,
    tokenizeCode_char TokenKind.noConfusion rfl, tokenizeCode_blank_append hspace,
    tokenizeCode_constant_append (constantPath_superclass hns kind) hcomment.1, hcomment.2]
  simp only [Token.addGap_cons, List.append_nil]

/-! ## The shape of both lines -/

theorem isBlank_finalComment {cs : Text} : Text.isBlank ('#' :: cs) = false := rfl

theorem endsWith_legacyLine (hw : h.WellFormed) {s : Spacing} (hs : s.Blank) :
    Text.endsWith (Text.trimEnd (h.legacyLine s)) '\\' =
      Text.endsWith (Text.trimEnd h.comment) '\\' := by
  obtain ⟨before, hline⟩ : ∃ before, h.legacyLine s =
      before ++ ("do".toList ++ (s.afterDo ++ h.comment)) := by
    refine ⟨h.indent ++ h.name ++ s.beforeEquals ++ "=".toList ++ s.afterEquals ++
      "GraphQL::".toList ++ h.kind ++ ".define".toList ++ s.beforeDo, ?_⟩
    simp only [legacyLine, List.append_assoc]
  rw [hline]
  rcases hw.comment with hnil | ⟨cs, hcs⟩
  · rw [hnil, List.append_nil, ← List.append_assoc, Text.endsWith_trimEnd_blank hs.afterDo,
      Text.endsWith_trimEnd_append _ (by decide)]
    decide
  · rw [hcs, ← List.append_assoc, ← List.append_assoc,
      Text.endsWith_trimEnd_append _ isBlank_finalComment]

theorem endsWith_classLine (hw : h.WellFormed) (ns : Text) :
    Text.endsWith (Text.trimEnd (h.classLine ns kind)) '\\' =
      Text.endsWith (Text.trimEnd h.comment) '\\' := by
  unfold classLine
  rcases hw.comment with hnil | ⟨cs, hcs⟩
  · obtain ⟨scope, hscope⟩ : ∃ scope, kind.superclass ns = scope ++ kind.baseClass.toList := by
      unfold DefinitionKind.superclass
      split
      · exact ⟨[], rfl⟩
      · exact ⟨_, rfl⟩
    rw [hnil, hscope, ← List.append_assoc]
    simp only [List.isEmpty_nil, ↓reduceIte, List.append_nil]
    cases kind <;> rw [Text.endsWith_trimEnd_append _ (by decide)] <;> decide
  · rw [hcs, List.isEmpty_cons, if_neg Bool.false_ne_true, List.append_cons,
      Text.endsWith_trimEnd_append _ isBlank_finalComment]

theorem ofLine_legacyLine (hw : h.WellFormed) {s : Spacing} (hs : s.Blank)
    (hkind : DefinitionKind.ofLegacyName? h.kind = some kind) (hfeed : '\n' ∉ h.comment) :
    LineShape.ofLine (h.legacyLine s) =
      ⟨[.opens], 0, Text.endsWith (Text.trimEnd h.comment) '\\', false⟩ := by
  unfold LineShape.ofLine
  rw [tokenizeCode_legacyLine hw hs hkind hfeed, endsWith_legacyLine hw hs]
  exact congrArg (LineShape.mk [.opens] 0 · false) (Bool.or_false _)

theorem ofLine_classLine (hw : h.WellFormed) {ns : Text} (hns : ns = [] ∨ Scan.ConstantPath ns)
    (hfeed : '\n' ∉ h.comment) : LineShape.ofLine (h.classLine ns kind) =
      ⟨[.opens], 0, Text.endsWith (Text.trimEnd h.comment) '\\', false⟩ := by
  unfold LineShape.ofLine
  rw [tokenizeCode_classLine hw hns hfeed, endsWith_classLine hw]
  exact congrArg (LineShape.mk [.opens] 0 · false) (Bool.or_false _)

/-- Behind the blanks at its head, the line does not begin in upper case. -/
theorem isUpper_eq_false_of_blank {front rest : Text} (hfront : ∀ d ∈ front, Text.isBlankChar d = true)
    (hrest : ∀ c ∈ rest.head?, Text.isBlankChar c = false ∧ c.isUpper = false) :
    ∀ c ∈ ((front ++ rest).dropWhile fun d => d == ' ' || d == '\t').head?, c.isUpper = false := by
  induction front with
  | nil =>
    cases rest with
    | nil => exact fun c hc => by cases hc
    | cons c cs =>
      obtain ⟨hblank, hupper⟩ := hrest c rfl
      have hstays : ¬(c == ' ' || c == '\t') = true := by
        intro hc
        rw [Bool.or_eq_true, beq_iff_eq, beq_iff_eq] at hc
        rcases hc with rfl | rfl <;> exact absurd hblank (by decide)
      rw [List.nil_append, List.dropWhile_cons_of_neg (p := fun d => d == ' ' || d == '\t') hstays]
      intro d hd
      obtain rfl := Option.some.inj hd
      exact hupper
  | cons d front ih =>
    obtain ⟨hblank, hfront⟩ := List.forall_mem_cons.1 hfront
    rw [List.cons_append, List.dropWhile_cons]
    split
    · exact ih hfront
    · intro c hc
      obtain rfl := Option.some.inj hc
      rw [Bool.eq_false_iff]
      intro hupper
      have hword := Scan.isWordChar_of_isWordStart (Scan.isWordStart_of_isUpper hupper)
      rw [Scan.isBlankChar_of_isWordChar hword] at hblank
      cases hblank

/-- A line whose code does not begin in upper case is no legacy header. -/
theorem parse?_of_blank_append {front rest : Text} (hfront : ∀ d ∈ front, Text.isBlankChar d = true)
    (hrest : ∀ c ∈ rest.head?, Text.isBlankChar c = false ∧ c.isUpper = false) :
    parse? (front ++ rest) = none := by
  have hhead := isUpper_eq_false_of_blank hfront hrest
  unfold parse? Text.spanOf
  generalize (front ++ rest).dropWhile (fun d => d == ' ' || d == '\t') = s at hhead
  cases s with
  | nil => rfl
  | cons c cs =>
    have hpath : constantPath? (c :: cs) = none := by
      rw [constantPath?, hhead c rfl, if_neg Bool.false_ne_true]
    simp only [hpath]
    rfl

/-- A class header is no legacy header: `class` is no constant. -/
theorem parse?_classLine (hw : h.WellFormed) (ns : Text) : parse? (h.classLine ns kind) = none := by
  obtain ⟨rest, hline⟩ : ∃ rest, h.classLine ns kind = h.indent ++ 'c' :: rest := by
    refine ⟨"lass ".toList ++ h.name ++ " < ".toList ++ kind.superclass ns ++
      (if h.comment.isEmpty then [] else ' ' :: h.comment), ?_⟩
    simp [classLine]
  rw [hline]
  refine parse?_of_blank_append hw.indent.isBlankChar fun c hc => ?_
  obtain rfl := Option.some.inj hc
  decide

end DefinitionHeader

end SchemaLift
