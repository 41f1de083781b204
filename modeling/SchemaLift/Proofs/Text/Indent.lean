import SchemaLift.Proofs.Text.Match
import SchemaLift.Text.Indent

/-!
# Lines without their common indentation

What is taken off a line lies within its indentation (`commonIndent_le`), so none of the characters that
are not white space is lost (`ink_dedentLine`), and all lines that are not blank move to the left by one and
the same width (`shiftedTogether_dedent`). One of them comes to stand at the margin, so doing it again
changes nothing (`dedent_dedent`).
-/

namespace SchemaLift.Text

/-! ## Ink -/

/-- The characters of a text that are not white space. -/
def ink (s : Text) : Text := s.filter (!isBlankChar ·)

theorem ink_append (s t : Text) : ink (s ++ t) = ink s ++ ink t := List.filter_append s t

theorem ink_eq_nil_iff {s : Text} : ink s = [] ↔ isBlank s = true := by
  rw [ink, List.filter_eq_nil_iff, isBlank, List.all_eq_true]
  simp only [Bool.not_eq_true', Bool.not_eq_false]

theorem isBlank_eq_of_ink_eq {s t : Text} (h : ink s = ink t) : isBlank s = isBlank t := by
  rw [Bool.eq_iff_iff, ← ink_eq_nil_iff, ← ink_eq_nil_iff, h]

theorem ink_blank_append {ws : Text} (h : ∀ c ∈ ws, isBlankChar c = true) (s : Text) :
    ink (ws ++ s) = ink s := by
  rw [ink_append, ink_eq_nil_iff.2 (List.all_eq_true.2 h), List.nil_append]

theorem ink_append_blank (s : Text) {ws : Text} (h : ∀ c ∈ ws, isBlankChar c = true) :
    ink (s ++ ws) = ink s := by
  rw [ink_append, ink_eq_nil_iff.2 (List.all_eq_true.2 h), List.append_nil]

theorem ink_trimEnd (s : Text) : ink (trimEnd s) = ink s := by
  obtain ⟨ws, hws, hs⟩ := exists_trimEnd_append s
  rw [← ink_append_blank (trimEnd s) hws, ← hs]

theorem ink_trim (s : Text) : ink (trim s) = ink s := by
  obtain ⟨ws, hws, hs⟩ := exists_blank_append s
  rw [trim, ink_trimEnd, ← ink_blank_append hws (trimStart s)]
  exact congrArg ink hs.symm

/-- Trimming leaves nothing only of a blank text. -/
theorem trim_eq_nil_iff {s : Text} : trim s = [] ↔ isBlank s = true := by
  constructor
  · intro h
    rw [← ink_eq_nil_iff, ← ink_trim, h]
    rfl
  · intro h
    have hstart : trimStart s = [] := List.dropWhile_eq_nil_iff.2 (List.all_eq_true.1 h)
    rw [trim, hstart]
    rfl

theorem trimEnd_trimEnd (s : Text) : trimEnd (trimEnd s) = trimEnd s := by
  refine trimEnd_of_getLast? fun c hc => ?_
  rw [getLast?_trimEnd] at hc
  simpa using List.find?_some hc

/-! ## Indentation -/

/-- The leading spaces and tabs of a line. -/
def IsIndent (s : Text) : Prop := ∀ c ∈ s, c = ' ' ∨ c = '\t'

theorem IsIndent.isBlankChar {s : Text} (h : IsIndent s) :
    ∀ c ∈ s, Text.isBlankChar c = true := by
  intro c hc
  rcases h c hc with rfl | rfl <;> decide

theorem IsIndent.notMem {indent : Text} (h : IsIndent indent) : '\n' ∉ indent := by
  intro hn
  rcases h _ hn with h | h <;> cases h

theorem isIndent_indentation (line : Line) : IsIndent (indentation line) := by
  intro c hc
  have hp := List.mem_takeWhile_imp hc
  simpa using hp

theorem indentation_indent_append {indent : Text} (h : IsIndent indent) (s : Text) :
    indentation (indent ++ s) = indent ++ indentation s := by
  refine List.takeWhile_append_of_pos fun c hc => ?_
  rcases h c hc with rfl | rfl <;> decide

/-- The indentation of a line that is not blank ends within the line. -/
theorem indentation_append_of_not_blank {line : Line} (h : isBlank line = false) (rest : Text) :
    indentation (line ++ rest) = indentation line := by
  have hlength : (indentation line).length ≠ line.length := by
    intro heq
    have hall : indentation line = line := (List.takeWhile_prefix _).eq_of_length heq
    have hblank : isBlank line = true :=
      List.all_eq_true.2 (hall ▸ isIndent_indentation line).isBlankChar
    rw [h] at hblank
    cases hblank
  exact List.takeWhile_append.trans (if_neg hlength)

theorem indentation_trimEnd {line : Line} (h : isBlank line = false) :
    indentation (trimEnd line) = indentation line := by
  obtain ⟨ws, -, hs⟩ := exists_trimEnd_append line
  have hne : isBlank (trimEnd line) = false := by
    rw [isBlank_eq_of_ink_eq (ink_trimEnd line), h]
  rw [← indentation_append_of_not_blank hne ws, ← hs]

section

variable {line : Line} {cut : Nat} (h : cut ≤ (indentation line).length)
include h

/-- No more is cut off than spaces and tabs. -/
theorem isIndent_take : IsIndent (line.take cut) := by
  intro c hc
  have htake : line.take cut = (indentation line).take cut := by
    have hprefix : indentation line <+: line := List.takeWhile_prefix _
    rw [List.prefix_iff_eq_take.1 hprefix, List.take_take, Nat.min_eq_left h]
  exact isIndent_indentation line c (List.mem_of_mem_take (htake ▸ hc))

theorem ink_drop : ink (line.drop cut) = ink line := by
  rw [← ink_blank_append (isIndent_take h).isBlankChar, List.take_append_drop]

theorem length_indentation_drop :
    (indentation (line.drop cut)).length = (indentation line).length - cut := by
  have happend := indentation_indent_append (isIndent_take h) (line.drop cut)
  have hcut : cut ≤ line.length := Nat.le_trans h (List.takeWhile_prefix _).length_le
  rw [List.take_append_drop] at happend
  rw [happend, List.length_append, List.length_take_of_le hcut, Nat.add_sub_cancel_left]

end

/-! ## One line -/

/-- A line without its first `cut` characters and without trailing white space, and nothing of a blank
line. -/
def dedentLine (cut : Nat) (line : Line) : Line :=
  if isBlank line then [] else trimEnd (line.drop cut)

theorem dedentLine_of_blank {line : Line} (h : isBlank line = true) (cut : Nat) :
    dedentLine cut line = [] := if_pos h

theorem dedentLine_of_not_blank {line : Line} (h : isBlank line = false) (cut : Nat) :
    dedentLine cut line = trimEnd (line.drop cut) := if_neg (by rw [h]; exact Bool.false_ne_true)

section

variable {line : Line} {cut : Nat} (h : isBlank line = false → cut ≤ (indentation line).length)
include h

theorem ink_dedentLine : ink (dedentLine cut line) = ink line := by
  cases hb : isBlank line with
  | true => rw [dedentLine_of_blank hb, ink_eq_nil_iff.2 hb]; rfl
  | false => rw [dedentLine_of_not_blank hb, ink_trimEnd, ink_drop (h hb)]

theorem isBlank_dedentLine : isBlank (dedentLine cut line) = isBlank line :=
  isBlank_eq_of_ink_eq (ink_dedentLine h)

theorem length_indentation_dedentLine (hb : isBlank line = false) :
    (indentation (dedentLine cut line)).length = (indentation line).length - cut := by
  have hdrop : isBlank (line.drop cut) = false := by
    rw [isBlank_eq_of_ink_eq (ink_drop (h hb)), hb]
  rw [dedentLine_of_not_blank hb, indentation_trimEnd hdrop, length_indentation_drop (h hb)]

/-- A line that has been cut has nothing left for a cut of no width. -/
theorem dedentLine_zero_dedentLine : dedentLine 0 (dedentLine cut line) = dedentLine cut line := by
  cases hb : isBlank line with
  | true => rw [dedentLine_of_blank hb]; rfl
  | false =>
    have hcut : isBlank (dedentLine cut line) = false := by rw [isBlank_dedentLine h, hb]
    rw [dedentLine_of_not_blank hcut, List.drop_zero, dedentLine_of_not_blank hb, trimEnd_trimEnd]

end

/-! ## All lines -/

/-- The lines that are not blank. -/
def inked (ls : List Line) : List Line := ls.filter (!isBlank ·)

theorem mem_inked {ls : List Line} {line : Line} :
    line ∈ inked ls ↔ line ∈ ls ∧ isBlank line = false := by
  rw [inked, List.mem_filter, Bool.not_eq_true']

theorem dedent_eq (ls : List Line) : dedent ls = ls.map (dedentLine (commonIndent ls)) := rfl

section

variable {ls : List Line} {line : Line} (h : line ∈ ls) (hb : isBlank line = false)
include h hb

/-- If a line is not blank, the common width is the least of the widths. -/
theorem min?_eq_commonIndent :
    ((inked ls).map fun l => (indentation l).length).min? = some (commonIndent ls) := by
  have hmem : (indentation line).length ∈ (inked ls).map fun l => (indentation l).length :=
    List.mem_map_of_mem (mem_inked.2 ⟨h, hb⟩)
  cases hmin : ((inked ls).map fun l => (indentation l).length).min? with
  | none =>
    rw [List.min?_eq_none_iff.1 hmin] at hmem
    cases hmem
  | some width =>
    have hwidth : commonIndent ls = width := congrArg (·.getD 0) hmin
    rw [hwidth]

/-- No line is cut behind its indentation. -/
theorem commonIndent_le : commonIndent ls ≤ (indentation line).length :=
  (List.min?_eq_some_iff.1 (min?_eq_commonIndent h hb)).2 _
    (List.mem_map_of_mem (mem_inked.2 ⟨h, hb⟩))

/-- Some line is indented by no more than is cut off. -/
theorem exists_commonIndent :
    ∃ l ∈ ls, isBlank l = false ∧ (indentation l).length = commonIndent ls := by
  obtain ⟨l, hl, heq⟩ := List.mem_map.1 (List.min?_eq_some_iff.1 (min?_eq_commonIndent h hb)).1
  exact ⟨l, (mem_inked.1 hl).1, (mem_inked.1 hl).2, heq⟩

/-- A line comes to stand at the margin. -/
theorem exists_indentation_eq_nil : ∃ l ∈ dedent ls, isBlank l = false ∧ indentation l = [] := by
  obtain ⟨l, hl, hlb, hwidth⟩ := exists_commonIndent h hb
  have hcut : isBlank l = false → commonIndent ls ≤ (indentation l).length := commonIndent_le hl
  refine ⟨dedentLine (commonIndent ls) l, List.mem_map_of_mem hl, ?_, ?_⟩
  · rw [isBlank_dedentLine hcut, hlb]
  · rw [← List.length_eq_zero_iff, length_indentation_dedentLine hcut hlb, hwidth, Nat.sub_self]

end

theorem inked_append (ls ms : List Line) : inked (ls ++ ms) = inked ls ++ inked ms :=
  List.filter_append ls ms

theorem inked_eq_nil {ls : List Line} (h : ∀ l ∈ ls, isBlank l = true) : inked ls = [] := by
  refine List.filter_eq_nil_iff.2 fun l hl => ?_
  rw [h l hl]
  exact Bool.false_ne_true

/-- Blank lines have no ink. -/
theorem flatMap_ink_inked (ls : List Line) : (inked ls).flatMap ink = ls.flatMap ink := by
  induction ls with
  | nil => rfl
  | cons l rest ih =>
    cases hb : isBlank l with
    | true =>
      have hskip : inked (l :: rest) = inked rest := List.filter_cons_of_neg (by rw [hb]; decide)
      rw [hskip, ih, List.flatMap_cons, ink_eq_nil_iff.2 hb, List.nil_append]
    | false =>
      have hkeep : inked (l :: rest) = l :: inked rest := List.filter_cons_of_pos (by rw [hb]; decide)
      rw [hkeep, List.flatMap_cons, List.flatMap_cons, ih]

/-- Line feeds are white space. -/
theorem ink_unlines (ls : List Line) : ink (unlines ls) = ls.flatMap ink := by
  induction ls with
  | nil => rfl
  | cons first rest ih =>
    cases rest with
    | nil => exact (List.append_nil _).symm
    | cons second rest =>
      have hjoin : unlines (first :: second :: rest) =
          first ++ (['\n'] ++ unlines (second :: rest)) := rfl
      have hfeed : ink ['\n'] = [] := by decide
      rw [hjoin, ink_append, ink_append, hfeed, List.nil_append, ih]
      exact List.flatMap_cons.symm

theorem inked_dedent (ls : List Line) :
    inked (dedent ls) = (inked ls).map (dedentLine (commonIndent ls)) := by
  rw [dedent_eq, inked, List.filter_map, inked]
  refine congrArg _ (List.filter_congr fun l hl => ?_)
  rw [Function.comp_apply, isBlank_dedentLine (commonIndent_le hl)]

/-- The second lines are the first ones, one for one, shifted as a whole: each has the same ink as before,
and any two are indented as far apart as before. -/
structure ShiftedTogether (before after : List Line) : Prop where
  ink : after.map ink = before.map ink
  width : ∀ i j : Nat, ∀ l m l' m', before[i]? = some l → before[j]? = some m →
    after[i]? = some l' → after[j]? = some m' →
    ((indentation l').length : Int) - (indentation m').length =
      (indentation l).length - (indentation m).length

theorem shiftedTogether_dedent (ls : List Line) : ShiftedTogether (inked ls) (inked (dedent ls)) := by
  have hcut : ∀ l ∈ inked ls, commonIndent ls ≤ (indentation l).length := fun l hl =>
    commonIndent_le (mem_inked.1 hl).1 (mem_inked.1 hl).2
  have hwidth : ∀ (i : Nat) l l', (inked ls)[i]? = some l → (inked (dedent ls))[i]? = some l' →
      ((indentation l').length : Int) = (indentation l).length - commonIndent ls := by
    intro i l l' hl hl'
    have hmem : l ∈ inked ls := List.mem_of_getElem? hl
    rw [inked_dedent, List.getElem?_map, hl] at hl'
    obtain rfl := Option.some.inj hl'
    rw [length_indentation_dedentLine (fun _ => hcut l hmem) (mem_inked.1 hmem).2]
    have hle := hcut l hmem
    omega
  constructor
  · rw [inked_dedent, List.map_map]
    exact List.map_congr_left fun l hl => ink_dedentLine fun _ => hcut l hl
  · intro i j l m l' m' hl hm hl' hm'
    rw [hwidth i l l' hl hl', hwidth j m m' hm hm']
    omega

theorem commonIndent_dedent (ls : List Line) : commonIndent (dedent ls) = 0 := by
  cases hall : inked (dedent ls) with
  | nil =>
    have hnone : commonIndent (dedent ls) =
        ((inked (dedent ls)).map fun l => (indentation l).length).min?.getD 0 := rfl
    rw [hnone, hall]
    rfl
  | cons line rest =>
    obtain ⟨hline, hb⟩ := mem_inked.1 (hall ▸ List.mem_cons_self : line ∈ inked (dedent ls))
    obtain ⟨l, hl, rfl⟩ := List.mem_map.1 hline
    have hlb : isBlank l = false := by rw [← isBlank_dedentLine (commonIndent_le hl)]; exact hb
    obtain ⟨m, hm, hmb, hmargin⟩ := exists_indentation_eq_nil hl hlb
    have hle := commonIndent_le hm hmb
    rw [hmargin] at hle
    exact Nat.le_zero.1 hle

/-- Lines without a common indentation stay as they are. -/
theorem dedent_dedent (ls : List Line) : dedent (dedent ls) = dedent ls := by
  rw [dedent_eq (dedent ls), commonIndent_dedent, dedent_eq, List.map_map]
  exact List.map_congr_left fun l hl => dedentLine_zero_dedentLine (commonIndent_le hl)

end SchemaLift.Text
