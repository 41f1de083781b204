import SchemaLift.Proc.Literal
import SchemaLift.Proofs.Text.Indent
import SchemaLift.Proofs.Text.Lines

/-!
# The lines of a proc's body

The text behind the opener is trimmed, the lines below it lose their common indentation, the line of the
closer goes if it is blank, and so do empty lines at both ends. None of it touches a character of the
code, and the lines below the opener keep their layout (`bodyLines_keeps_code`).
-/

namespace SchemaLift.ProcLiteral

open Text

/-- What stands behind the opener, as the first of the body's lines, if it is not blank. -/
def openingLines (first : Line) : List Line := if (trim first).isEmpty then [] else [trim first]

/-- The lines below the opener, without the closer's line if that is blank. -/
def linesBelow (rest : List Line) : List Line :=
  if rest.getLast?.any isBlank then rest.dropLast else rest

theorem exists_lines_eq (body : Text) : ∃ first rest, lines body = first :: rest :=
  List.exists_cons_of_ne_nil (lines_ne_nil body)

theorem bodyLines_eq {body first : Text} {rest : List Line} (h : lines body = first :: rest) :
    bodyLines body = trimEnds List.isEmpty (openingLines first ++ dedent (linesBelow rest)) := by
  unfold bodyLines
  rw [h]
  rfl

/-! ## Lines with ink -/

theorem openingLines_of_blank {first : Line} (h : isBlank first = true) : openingLines first = [] := by
  rw [openingLines, trim_eq_nil_iff.2 h]
  rfl

theorem openingLines_of_not_blank {first : Line} (h : isBlank first = false) :
    openingLines first = [trim first] := by
  have hne : trim first ≠ [] := by
    rw [ne_eq, trim_eq_nil_iff, h]
    exact Bool.false_ne_true
  exact if_neg fun hempty => hne (List.isEmpty_iff.1 hempty)

/-- A line behind the opener is one of the body's lines exactly if it is not blank. -/
theorem inked_openingLines (first : Line) :
    inked (openingLines first) = (inked [first]).map trim := by
  cases hb : isBlank first with
  | true =>
    have hnil : inked [first] = [] := inked_eq_nil fun l hl => by rw [List.mem_singleton.1 hl, hb]
    rw [openingLines_of_blank hb, hnil]
    rfl
  | false =>
    have htrim : isBlank (trim first) = false := by rw [isBlank_eq_of_ink_eq (ink_trim first), hb]
    rw [openingLines_of_not_blank hb, inked, inked, List.filter_cons_of_pos (by rw [htrim]; rfl),
      List.filter_cons_of_pos (by rw [hb]; rfl)]
    rfl

theorem inked_linesBelow (rest : List Line) : inked (linesBelow rest) = inked rest := by
  unfold linesBelow
  split
  · rename_i hlast
    obtain ⟨closer, hcloser, hb⟩ := (Option.any_eq_true _ _).1 hlast
    have hrest : rest.dropLast ++ [closer] = rest :=
      List.dropLast_append_getLast? closer (Option.mem_def.2 hcloser)
    have hnil : inked [closer] = [] := inked_eq_nil fun l hl => by rw [List.mem_singleton.1 hl, hb]
    conv_rhs => rw [← hrest, inked_append, hnil, List.append_nil]
  · rfl

/-- Empty lines have no ink. -/
theorem inked_trimEnds (ls : List Line) : inked (trimEnds List.isEmpty ls) = inked ls := by
  have hnil : ∀ ms : List Line, (∀ l ∈ ms, l.isEmpty = true) → inked ms = [] := fun ms h =>
    inked_eq_nil fun l hl => by rw [List.isEmpty_iff.1 (h l hl)]; rfl
  obtain ⟨before, after, hbefore, hafter, hls⟩ := exists_trimEnds_append List.isEmpty ls
  conv_rhs => rw [hls, inked_append, inked_append, hnil before hbefore, hnil after hafter,
    List.nil_append, List.append_nil]

/-- The lines with ink are those behind the opener and below it, trimmed and dedented. -/
theorem inked_bodyLines {body first : Text} {rest : List Line} (h : lines body = first :: rest) :
    inked (bodyLines body) = (inked [first]).map trim ++ inked (dedent (linesBelow rest)) := by
  rw [bodyLines_eq h, inked_trimEnds, inked_append, inked_openingLines]

/-! ## What a body keeps -/

section

variable (body : Text)

/-- No character of the code is lost or moved in front of another. -/
theorem flatMap_ink_bodyLines : (bodyLines body).flatMap ink = ink body := by
  obtain ⟨first, rest, h⟩ := exists_lines_eq body
  have hfirst : ((inked [first]).map trim).flatMap ink = ink first := by
    rw [List.flatMap_map]
    simp only [ink_trim]
    rw [flatMap_ink_inked, List.flatMap_singleton]
  have hbelow : (inked (dedent (linesBelow rest))).flatMap ink = rest.flatMap ink := by
    rw [List.flatMap_def, (shiftedTogether_dedent _).ink, ← List.flatMap_def, inked_linesBelow,
      flatMap_ink_inked]
  calc (bodyLines body).flatMap ink
      = (inked (bodyLines body)).flatMap ink := (flatMap_ink_inked _).symm
    _ = ink first ++ rest.flatMap ink := by
        rw [inked_bodyLines h, List.flatMap_append, hfirst, hbelow]
    _ = ink (unlines (lines body)) := by rw [ink_unlines, h, List.flatMap_cons]
    _ = ink body := by rw [unlines_lines]

theorem ne_nil_of_mem_head?_bodyLines : ∀ l ∈ (bodyLines body).head?, l ≠ [] := by
  obtain ⟨first, rest, h⟩ := exists_lines_eq body
  rw [bodyLines_eq h]
  intro l hl
  exact List.isEmpty_eq_false_iff.1 (eq_false_of_mem_head?_trimEnds hl)

theorem ne_nil_of_mem_getLast?_bodyLines : ∀ l ∈ (bodyLines body).getLast?, l ≠ [] := by
  obtain ⟨first, rest, h⟩ := exists_lines_eq body
  rw [bodyLines_eq h]
  intro l hl
  exact List.isEmpty_eq_false_iff.1 (eq_false_of_mem_getLast?_trimEnds hl)

/-- The lines below the opener are shifted as a whole. They follow the line behind the opener, if that
one has ink. -/
theorem shiftedTogether_bodyLines :
    ShiftedTogether (inked ((lines body).drop 1))
      ((inked (bodyLines body)).drop (inked ((lines body).take 1)).length) := by
  obtain ⟨first, rest, h⟩ := exists_lines_eq body
  have hbelow : (inked (bodyLines body)).drop (inked [first]).length =
      inked (dedent (linesBelow rest)) := by
    rw [inked_bodyLines h, List.drop_left' (List.length_map trim)]
  rw [h]
  show ShiftedTogether (inked rest) ((inked (bodyLines body)).drop (inked [first]).length)
  rw [hbelow, ← inked_linesBelow]
  exact shiftedTogether_dedent _

end

/-- A body loses nothing of its code when its lines are taken out: the characters that are not white
space are the same, in the same order; no empty line comes first or last; and the lines below the opener
are indented among each other as before. Taking away a common indentation is done once and for all, keeps
the number of the lines, and brings one to the margin. -/
theorem bodyLines_keeps_code (body : Text) (ls : List Line) :
    (bodyLines body).flatMap ink = ink body ∧
    ((∀ l ∈ (bodyLines body).head?, l ≠ []) ∧ ∀ l ∈ (bodyLines body).getLast?, l ≠ []) ∧
    ShiftedTogether (inked ((lines body).drop 1))
      ((inked (bodyLines body)).drop (inked ((lines body).take 1)).length) ∧
    dedent (dedent ls) = dedent ls ∧
    (dedent ls).length = ls.length ∧
    (inked ls ≠ [] → ∃ l ∈ dedent ls, isBlank l = false ∧ indentation l = []) := by
  refine ⟨flatMap_ink_bodyLines body, ⟨ne_nil_of_mem_head?_bodyLines body,
    ne_nil_of_mem_getLast?_bodyLines body⟩, shiftedTogether_bodyLines body, dedent_dedent ls,
    length_dedent ls, fun hinked => ?_⟩
  obtain ⟨l, hl⟩ := List.exists_mem_of_ne_nil _ hinked
  exact exists_indentation_eq_nil (mem_inked.1 hl).1 (mem_inked.1 hl).2

theorem bodyLines_keeps_code_nested :
    bodyLines " x\n\n    if y\n  \t  z  \n    end\n  ".toList =
      ["x".toList, [], "if y".toList, " z".toList, "end".toList] ∧
    inked ["    if y".toList, "  ".toList, "      z ".toList] ≠ [] ∧
    dedent ["    if y".toList, "  ".toList, "      z ".toList] =
      ["if y".toList, [], "  z".toList] ∧
    ∃ l ∈ dedent ["    if y".toList, "  ".toList, "      z ".toList],
      isBlank l = false ∧ indentation l = [] := by
  have hinked : inked ["    if y".toList, "  ".toList, "      z ".toList] ≠ [] := by decide
  obtain ⟨-, -, -, -, -, hmargin⟩ :=
    bodyLines_keeps_code " x\n\n    if y\n  \t  z  \n    end\n  ".toList
      ["    if y".toList, "  ".toList, "      z ".toList]
  exact ⟨by decide, hinked, by decide, hmargin hinked⟩

end SchemaLift.ProcLiteral
