import SchemaLift.Proofs.Block.Outline
import SchemaLift.Proofs.Text.Match
import SchemaLift.Proofs.Token.Closed
import SchemaLift.Proofs.Token.Respelled
import SchemaLift.Proofs.Token.Slice

/-!
# Lines without their trailing comments

A comment is no code, so a line has the same tokens without the comment at its end (`tokenize_code`). It
also has the same shape, but for one thing: whether the line goes on is read off its last character, be it
code or not. `comment_inert_iff` says exactly when that makes no difference to blocks and statements,
whatever lines stand around.
-/

namespace SchemaLift

/-! ## Tokens -/

/-- The line `code ++ comment` ends in the comment token `comment`. -/
def EndsInComment (code comment : Text) : Prop :=
  (∃ t ∈ (tokenize (code ++ comment)).getLast?, t.kind = .comment ∧ t.text = comment) ∧
    (TokenStream.ofText (code ++ comment)).tail = []

instance (code comment : Text) : Decidable (EndsInComment code comment) :=
  inferInstanceAs (Decidable (_ ∧ _))

theorem TokenStream.tail_ofPieces_append (g : Text) (ps qs : List Piece) :
    (ofPieces g (ps ++ qs)).tail = (ofPieces (ofPieces g ps).tail qs).tail := by
  rw [ofPieces_append]

theorem Token.dropComments_concat {t : Token} (ht : t.kind = .comment) (g : Text) (ts : List Token) :
    dropComments g (ts ++ [t]) = dropComments g ts := by
  obtain ⟨g', hg'⟩ := exists_dropComments_append g ts
  rw [hg', dropComments, if_pos ht, dropComments, addGap_nil, List.append_nil]

namespace EndsInComment

variable {code comment : Text} (h : EndsInComment code comment)
include h

/-- Without the comment the line has the tokens in front of it. -/
theorem exists_tokenize :
    ∃ gap, tokenize (code ++ comment) = tokenize code ++ [⟨gap, .comment, comment⟩] := by
  obtain ⟨⟨⟨gap, kind, text⟩, hlast, hkind, htext⟩, htail⟩ := h
  simp only at hkind htext
  subst hkind htext
  obtain ⟨us, hus⟩ := List.getLast?_eq_some_iff.1 hlast
  obtain ⟨before, after, hpieces, hbefore, hafter⟩ := TokenStream.exists_piece hus
  -- nothing stands behind the comment
  have hnil : after = [] := by
    have htext := TokenStream.toText_ofPieces [] after
    rw [TokenStream.toText, hafter, List.flatMap_nil, List.nil_append, List.nil_append] at htext
    have hend : (TokenStream.ofPieces [] after).tail = [] := by
      rw [TokenStream.ofText, hpieces, TokenStream.tail_ofPieces_append] at htail
      exact htail
    rw [hend] at htext
    cases after with
    | nil => rfl
    | cons p ps =>
      have hp : p ∈ Scan.pieces (code ++ text) := by
        rw [hpieces]
        simp
      have hne := Scan.text_ne_nil_of_mem_pieces hp
      rw [List.flatMap_cons] at htext
      exact absurd (List.append_eq_nil_iff.1 htext.symm).1 hne
  subst hnil
  have hcode : before.flatMap Piece.text = code := by
    have htext := Scan.pieces_text (code ++ text)
    rw [hpieces, List.flatMap_append] at htext
    simpa using htext
  have hcut := Scan.pieces_cut_end hpieces
  rw [hcode] at hcut
  refine ⟨gap, ?_⟩
  rw [hus]
  simp only [tokenize, TokenStream.ofText, hcut, hbefore]

theorem tokenizeCode_eq : tokenizeCode (code ++ comment) = tokenizeCode code := by
  obtain ⟨gap, htokens⟩ := h.exists_tokenize
  rw [tokenizeCode, htokens, Token.dropComments_concat rfl, tokenizeCode]

theorem isBlank_comment : Text.isBlank comment = false := by
  obtain ⟨gap, htokens⟩ := h.exists_tokenize
  have hmem : ⟨gap, .comment, comment⟩ ∈ tokenize (code ++ comment) := by
    rw [htokens]
    simp
  obtain ⟨t, rfl, -⟩ := isComment_of_mem_pieces (TokenStream.mem_pieces_of_mem_tokens hmem)
  rfl

/-- Only whether the line goes on may depend on its comment. -/
theorem ofLine_eq : LineShape.ofLine (code ++ comment) =
    { LineShape.ofLine code with
      continues := Text.endsWith (Text.trimEnd comment) '\\' ||
        (tokenizeCode code).getLast?.any (·.is .comma) } := by
  unfold LineShape.ofLine
  rw [h.tokenizeCode_eq, Text.endsWith_trimEnd_append code h.isBlank_comment]

end EndsInComment

/-! ## Shapes that nothing tells apart -/

/-- Two shapes differ at most in whether the line goes on, and only where it leaves brackets open, so that
it goes on anyway. -/
structure LineShape.Alike (s s' : LineShape) : Prop where
  events : s.events = s'.events
  brackets : s.brackets = s'.brackets
  isEmpty : s.isEmpty = s'.isEmpty
  continues : s.continues = s'.continues ∨ 0 < s.brackets

theorem LineShape.Alike.refl (s : LineShape) : s.Alike s := ⟨rfl, rfl, rfl, .inl rfl⟩

namespace Outline

/-- Blocks are matched by their events. -/
theorem matchBlock_congr {o o' : Outline} (h : o.map LineShape.events = o'.map LineShape.events)
    (start : Nat) : o.matchBlock start = o'.matchBlock start := by
  unfold matchBlock
  rw [List.map_drop, List.map_drop, h]

theorem opensBlock_congr {o o' : Outline} (h : o.map LineShape.events = o'.map LineShape.events)
    (index : Nat) : o.opensBlock index = o'.opensBlock index := by
  have hline : o[index]?.map LineShape.events = o'[index]?.map LineShape.events := by
    rw [← List.getElem?_map, h, List.getElem?_map]
  have hopens : ∀ shape : Option LineShape, shape.any (fun s => 0 < s.depth) =
      (shape.map LineShape.events).any fun events => 0 < BlockEvent.total events := by
    intro shape
    cases shape <;> rfl
  rw [opensBlock, opensBlock, hopens, hopens, hline]

theorem statementEndFrom_congr {shapes shapes' : List LineShape}
    (h : List.Forall₂ LineShape.Alike shapes shapes') {blocks brackets : Int}
    (hbrackets : 0 ≤ brackets) (index : Nat) :
    statementEndFrom blocks brackets index shapes = statementEndFrom blocks brackets index shapes' := by
  induction h generalizing blocks brackets index with
  | nil => rfl
  | @cons s s' rest rest' hs _ ih =>
    have hdepth : s.depth = s'.depth := congrArg BlockEvent.total hs.events
    have hsame : (blocks + s.depth < 0 ∨ brackets + s.brackets < 0 ∨
          (blocks + s.depth = 0 ∧ brackets + s.brackets = 0 ∧ !s.continues)) ↔
        (blocks + s'.depth < 0 ∨ brackets + s'.brackets < 0 ∨
          (blocks + s'.depth = 0 ∧ brackets + s'.brackets = 0 ∧ !s'.continues)) := by
      rw [← hdepth, ← hs.brackets]
      rcases hs.continues with heq | hopen
      · rw [heq]
      · have hne : brackets + s.brackets ≠ 0 := by omega
        simp only [hne, false_and, and_false]
    rw [statementEndFrom, statementEndFrom]
    by_cases hend : blocks + s.depth < 0 ∨ brackets + s.brackets < 0 ∨
        (blocks + s.depth = 0 ∧ brackets + s.brackets = 0 ∧ !s.continues)
    · rw [if_pos hend, if_pos (hsame.1 hend)]
    · rw [if_neg hend, if_neg (mt hsame.2 hend), ← hdepth, ← hs.brackets]
      exact ih (by omega) (index + 1)

theorem headerEndFrom_congr {shapes shapes' : List LineShape}
    (h : List.Forall₂ LineShape.Alike shapes shapes') {brackets : Int} (hbrackets : 0 ≤ brackets)
    (index : Nat) : headerEndFrom brackets index shapes = headerEndFrom brackets index shapes' := by
  induction h generalizing brackets index with
  | nil => rfl
  | @cons s s' rest rest' hs _ ih =>
    have hsame : (brackets + s.brackets < 0 ∨ (brackets + s.brackets = 0 ∧ !s.continues)) ↔
        (brackets + s'.brackets < 0 ∨ (brackets + s'.brackets = 0 ∧ !s'.continues)) := by
      rw [← hs.brackets]
      rcases hs.continues with heq | hopen
      · rw [heq]
      · have hne : brackets + s.brackets ≠ 0 := by omega
        simp only [hne, false_and]
    rw [headerEndFrom, headerEndFrom]
    by_cases hend : brackets + s.brackets < 0 ∨ (brackets + s.brackets = 0 ∧ !s.continues)
    · rw [if_pos hend, if_pos (hsame.1 hend)]
    · rw [if_neg hend, if_neg (mt hsame.2 hend), ← hs.brackets]
      exact ih (by omega) (index + 1)

theorem childrenFrom_congr {o o' : Outline} (hend : ∀ index, o.statementEnd index = o'.statementEnd index)
    {shapes shapes' : List LineShape} (h : List.Forall₂ LineShape.Alike shapes shapes')
    (last taken index : Nat) :
    o.childrenFrom last taken index shapes = o'.childrenFrom last taken index shapes' := by
  induction h generalizing taken index with
  | nil => rfl
  | @cons s s' rest rest' hs _ ih =>
    cases taken with
    | succ taken => exact ih taken (index + 1)
    | zero => simp only [childrenFrom, hs.isEmpty, hend, ih]

/-- Whatever lines stand around, two lines of alike shapes leave statements where they are. -/
theorem statements_congr {line line' : Line} (h : (LineShape.ofLine line).Alike (LineShape.ofLine line'))
    (above below : List Line) :
    let o := ofLines (above ++ line :: below)
    let o' := ofLines (above ++ line' :: below)
    (∀ index, o.statementEnd index = o'.statementEnd index) ∧
      (∀ index, o.headerEnd index = o'.headerEnd index) ∧ ∀ b, o.children b = o'.children b := by
  intro o o'
  have hsame : ∀ shapes : List LineShape, List.Forall₂ LineShape.Alike shapes shapes := fun shapes =>
    List.forall₂_same.2 fun s _ => .refl s
  have halike : List.Forall₂ LineShape.Alike o o' := by
    simp only [o, o', ofLines, List.map_append, List.map_cons]
    exact List.rel_append (hsame _) (.cons h (hsame _))
  have hstatement : ∀ index, o.statementEnd index = o'.statementEnd index := fun index =>
    statementEndFrom_congr (List.forall₂_drop index halike) le_rfl index
  refine ⟨hstatement, fun index => ?_, fun b => ?_⟩
  · exact headerEndFrom_congr (List.forall₂_drop index halike) le_rfl index
  · exact childrenFrom_congr hstatement (List.forall₂_take _ (List.forall₂_drop _ halike)) _ _ _

/-! ## Lines that show whether another one goes on -/

/-- Below lines that each open a bracket, the header goes on with as many more of them. -/
theorem headerEndFrom_open (n : Nat) {depth : Int} (hdepth : 0 ≤ depth) (index : Nat)
    (rest : List LineShape) :
    headerEndFrom depth index (List.replicate n (LineShape.ofLine ['(']) ++ rest) =
      headerEndFrom (depth + n) (index + n) rest := by
  induction n generalizing depth index with
  | zero => simp
  | succ n ih =>
    have hbrackets : (LineShape.ofLine ['(']).brackets = 1 := by decide
    rw [List.replicate_succ, List.cons_append, headerEndFrom, hbrackets, if_neg (by omega),
      ih (by omega)]
    congr 1 <;> omega

/-- Where a line closes just the brackets that are open above it, it is the last one of the header unless
it goes on. -/
theorem headerEnd_below_open {line : Line} {n : Nat} (h : (LineShape.ofLine line).brackets = -n) :
    (ofLines (List.replicate n ['('] ++ [line])).headerEnd 0 =
      if (LineShape.ofLine line).continues then none else some n := by
  have hmap : ofLines (List.replicate n ['('] ++ [line]) =
      List.replicate n (LineShape.ofLine ['(']) ++ [LineShape.ofLine line] := by
    simp [ofLines]
  rw [headerEnd, List.drop_zero, hmap, headerEndFrom_open n le_rfl, headerEndFrom, h, headerEndFrom]
  cases (LineShape.ofLine line).continues <;> simp

/-! ## Comments that make no difference -/

section

variable {code comment : Text} (h : EndsInComment code comment)
include h

theorem continues_comment_iff : (LineShape.ofLine (code ++ comment)).continues =
      (LineShape.ofLine code).continues ↔
    Text.endsWith (Text.trimEnd comment) '\\' = Text.endsWith (Text.trimEnd code) '\\' ∨
      (tokenizeCode code).getLast?.any (·.is .comma) = true := by
  rw [h.ofLine_eq]
  simp only [LineShape.ofLine]
  cases Text.endsWith (Text.trimEnd comment) '\\' <;> cases Text.endsWith (Text.trimEnd code) '\\' <;>
    cases (tokenizeCode code).getLast?.any (·.is .comma) <;> simp

/-- The comment at the end of a line makes no difference to blocks. Statements, headers and children are
the same without it, whatever lines stand around, if and only if the line ends in a backslash with and
without the comment or neither way, or goes on for another reason: its code ends in a comma, or leaves
brackets open. -/
theorem comment_inert_iff :
    (∀ above below : List Line,
      let o := ofLines (above ++ (code ++ comment) :: below)
      let o' := ofLines (above ++ code :: below)
      (∀ index, o.opensBlock index = o'.opensBlock index) ∧
        ∀ index, o.matchBlock index = o'.matchBlock index) ∧
    ((∀ above below : List Line,
      let o := ofLines (above ++ (code ++ comment) :: below)
      let o' := ofLines (above ++ code :: below)
      (∀ index, o.statementEnd index = o'.statementEnd index) ∧
        (∀ index, o.headerEnd index = o'.headerEnd index) ∧ ∀ b, o.children b = o'.children b) ↔
      Text.endsWith (Text.trimEnd comment) '\\' = Text.endsWith (Text.trimEnd code) '\\' ∨
        (tokenizeCode code).getLast?.any (·.is .comma) = true ∨
        0 < Token.bracketDepth (tokenizeCode code)) := by
  have hshape := h.ofLine_eq
  refine ⟨fun above below => ?_, ?_⟩
  · have hevents : (ofLines (above ++ (code ++ comment) :: below)).map LineShape.events =
        (ofLines (above ++ code :: below)).map LineShape.events := by
      simp [ofLines, hshape]
    exact ⟨opensBlock_congr hevents, matchBlock_congr hevents⟩
  rw [← or_assoc, ← continues_comment_iff h]
  constructor
  · intro hsame
    by_contra hdiffers
    obtain ⟨hcontinues, hclosed⟩ := not_or.1 hdiffers
    -- lines above that open just the brackets that the line closes
    obtain ⟨n, hn⟩ := Int.exists_eq_neg_ofNat (not_lt.1 hclosed)
    obtain ⟨-, hheader, -⟩ := hsame (List.replicate n ['(']) []
    have hn' : (LineShape.ofLine (code ++ comment)).brackets = -n := by
      rw [hshape]
      exact hn
    have hends := hheader 0
    rw [headerEnd_below_open hn, headerEnd_below_open hn'] at hends
    revert hends hcontinues
    cases (LineShape.ofLine code).continues <;>
      cases (LineShape.ofLine (code ++ comment)).continues <;> simp
  · intro halike above below
    refine statements_congr ⟨?_, ?_, ?_, ?_⟩ above below
    · rw [hshape]
    · rw [hshape]
    · rw [hshape]
    · refine halike.imp_right fun hopen => ?_
      rw [hshape]
      exact hopen

end

/-- Keywords, brackets, a quote and a comma. -/
theorem comment_inert_keywords :
    let code := "field :a, types.Int ".toList
    let comment := "# do [ it's \x7b end,".toList
    EndsInComment code comment ∧ ∀ above below : List Line,
      let o := ofLines (above ++ (code ++ comment) :: below)
      let o' := ofLines (above ++ code :: below)
      (∀ index, o.matchBlock index = o'.matchBlock index) ∧
        (∀ index, o.statementEnd index = o'.statementEnd index) ∧
        (∀ index, o.headerEnd index = o'.headerEnd index) ∧ ∀ b, o.children b = o'.children b := by
  intro code comment
  have hends : EndsInComment code comment := by decide
  refine ⟨hends, fun above below => ?_⟩
  obtain ⟨hblocks, hiff⟩ := comment_inert_iff hends
  exact ⟨(hblocks above below).2, hiff.2 (.inl (by decide)) above below⟩

/-- A backslash at the end of a comment is taken for one that continues the line. -/
theorem comment_carries_on :
    let code := "field :a, types.Int ".toList
    let comment := "# in C:\\".toList
    EndsInComment code comment ∧
      (ofLines [code ++ comment, "field :b, types.Int".toList]).statementEnd 0 = some 1 ∧
      (ofLines [code, "field :b, types.Int".toList]).statementEnd 0 = some 0 := by
  decide

end Outline

end SchemaLift
