import SchemaLift.Proofs.Block.Children

/-!
# Lines that stand on their own

Lines are closed if they close just the blocks and the brackets that they open and their last statement
ends with them. No search that begins above such lines ends among them, and one that has more to find goes
on below as if they were not there (`statementEnd_over`, `matchBlock_over`). A search that begins on one of
them ends on one of them (`Closed.statementEnd_isSome` and its neighbours).
-/

namespace SchemaLift.Outline

/-- The last line, if there is one, does not go on. -/
def Finished (o : Outline) : Prop := (o.getLast?.all fun s => !s.continues) = true

instance (o : Outline) : Decidable o.Finished :=
  inferInstanceAs (Decidable ((o.getLast?.all fun s => !s.continues) = true))

/-- The lines close what they open and nothing else, and their last statement ends. -/
structure Closed (o : Outline) : Prop where
  blocks : depthBelow 1 (o.map LineShape.events) = some 1
  brackets : ∀ n ≤ o.length, 0 ≤ o.bracketsAbove n
  balanced : o.bracketsAbove o.length = 0
  finished : o.Finished

theorem closed_iff {o : Outline} : o.Closed ↔ depthBelow 1 (o.map LineShape.events) = some 1 ∧
    (∀ n ≤ o.length, 0 ≤ o.bracketsAbove n) ∧ o.bracketsAbove o.length = 0 ∧ o.Finished :=
  ⟨fun h => ⟨h.blocks, h.brackets, h.balanced, h.finished⟩, fun h => ⟨h.1, h.2.1, h.2.2.1, h.2.2.2⟩⟩

instance (o : Outline) : Decidable o.Closed := decidable_of_iff' _ closed_iff

theorem finished_append {a b : Outline} (h : b ≠ []) : (a ++ b).Finished ↔ b.Finished := by
  unfold Finished
  rw [List.getLast?_append_of_ne_nil a h]

/-! ## Depths below lines -/

theorem depthAfter_add {depth d : Nat} {events : List BlockEvent}
    (h : depthAfter depth events = some d) (k : Nat) :
    depthAfter (depth + k) events = some (d + k) := by
  induction events generalizing depth with
  | nil =>
    obtain rfl := Option.some.inj h
    rfl
  | cons e es ih =>
    cases e with
    | opens =>
      have hdeeper : depthAfter (depth + 1 + k) es = some (d + k) := ih h
      rwa [Nat.add_right_comm] at hdeeper
    | closes =>
      rw [depthAfter] at h
      by_cases hlow : depth ≤ 1
      · rw [if_pos hlow] at h
        cases h
      · rw [if_neg hlow] at h
        have hdeeper : depthAfter (depth - 1 + k) es = some (d + k) := ih h
        rw [depthAfter, if_neg (by omega), show depth + k - 1 = depth - 1 + k by omega, hdeeper]

theorem depthBelow_add {depth d : Nat} {lines : List (List BlockEvent)}
    (h : depthBelow depth lines = some d) (k : Nat) :
    depthBelow (depth + k) lines = some (d + k) := by
  induction lines generalizing depth with
  | nil =>
    obtain rfl := Option.some.inj h
    rfl
  | cons events rest ih =>
    obtain ⟨d', hfirst, hrest⟩ := Option.bind_eq_some_iff.1 h
    rw [depthBelow, depthAfter_add hfirst, Option.bind_some, ih hrest]

theorem depthBelow_append (depth : Nat) (above below : List (List BlockEvent)) :
    depthBelow depth (above ++ below) = (depthBelow depth above).bind (depthBelow · below) := by
  induction above generalizing depth with
  | nil => rfl
  | cons events rest ih =>
    rw [List.cons_append, depthBelow, depthBelow, Option.bind_assoc]
    exact Option.bind_congr fun d _ => ih d

theorem depthBelow_nil (depth : Nat) (lines : List (List BlockEvent)) (h : ∀ es ∈ lines, es = []) :
    depthBelow depth lines = some depth := by
  induction lines with
  | nil => rfl
  | cons events rest ih =>
    rw [h events List.mem_cons_self, depthBelow, depthAfter, Option.bind_some]
    exact ih fun es hes => h es (List.mem_cons_of_mem events hes)

/-! ## Sums over lines -/

/-- What all lines add to the depth of blocks. -/
def blocksSum (o : Outline) : Int := (o.map LineShape.depth).sum

/-- What all lines add to the depth of brackets. -/
def bracketsSum (o : Outline) : Int := (o.map LineShape.brackets).sum

@[simp] theorem blocksSum_nil : blocksSum [] = 0 := rfl

@[simp] theorem bracketsSum_nil : bracketsSum [] = 0 := rfl

@[simp] theorem blocksSum_cons (s : LineShape) (o : Outline) :
    blocksSum (s :: o) = s.depth + blocksSum o := List.sum_cons

@[simp] theorem bracketsSum_cons (s : LineShape) (o : Outline) :
    bracketsSum (s :: o) = s.brackets + bracketsSum o := List.sum_cons

@[simp] theorem blocksSum_append (a b : Outline) : blocksSum (a ++ b) = blocksSum a + blocksSum b := by
  simp only [blocksSum, List.map_append, List.sum_append]

@[simp] theorem bracketsSum_append (a b : Outline) :
    bracketsSum (a ++ b) = bracketsSum a + bracketsSum b := by
  simp only [bracketsSum, List.map_append, List.sum_append]

theorem bracketsAbove_eq_sum (o : Outline) (n : Nat) : o.bracketsAbove n = bracketsSum (o.take n) := rfl

namespace Closed

variable {o above below : Outline}

theorem depthBelow_eq (h : o.Closed) {depth : Nat} (hdepth : 1 ≤ depth) :
    depthBelow depth (o.map LineShape.events) = some depth := by
  have hdeeper := depthBelow_add h.blocks (depth - 1)
  rwa [Nat.add_sub_cancel' hdepth] at hdeeper

theorem bracketsSum_nonneg (h : Closed (above ++ below)) : 0 ≤ bracketsSum above := by
  have hbrackets := h.brackets above.length (by simp)
  rwa [bracketsAbove_eq_sum, List.take_left] at hbrackets

theorem blocksSum_nonneg (h : Closed (above ++ below)) : 0 ≤ blocksSum above := by
  have hblocks := h.blocks
  rw [List.map_append, depthBelow_append] at hblocks
  obtain ⟨d, hd, -⟩ := Option.bind_eq_some_iff.1 hblocks
  have hpos := one_le_of_depthBelow le_rfl hd
  have hsum := Outline.depthBelow_eq hd
  rw [total_flatten_events] at hsum
  unfold blocksSum
  omega

theorem blocksSum_eq_zero (h : o.Closed) : blocksSum o = 0 := by
  have hsum := Outline.depthBelow_eq h.blocks
  rw [total_flatten_events] at hsum
  unfold blocksSum
  omega

theorem bracketsSum_eq_zero (h : o.Closed) : bracketsSum o = 0 := by
  have hbrackets := h.balanced
  rwa [bracketsAbove_eq_sum, List.take_length] at hbrackets

end Closed

/-! ## Ends of statements -/

theorem statementEndFrom_append (blocks brackets : Int) (index : Nat) (above below : Outline) :
    statementEndFrom blocks brackets index (above ++ below) =
      (statementEndFrom blocks brackets index above).or
        (statementEndFrom (blocks + blocksSum above) (brackets + bracketsSum above)
          (index + above.length) below) := by
  induction above generalizing blocks brackets index with
  | nil => simp [statementEndFrom]
  | cons s rest ih =>
    rw [List.cons_append, statementEndFrom, statementEndFrom]
    split
    · rfl
    · rw [ih, blocksSum_cons, bracketsSum_cons, Int.add_assoc, Int.add_assoc, List.length_cons,
        Nat.add_assoc, Nat.add_comm 1]

theorem statementEndFrom_add (blocks brackets : Int) (index k : Nat) (o : Outline) :
    statementEndFrom blocks brackets (index + k) o =
      (statementEndFrom blocks brackets index o).map (· + k) := by
  induction o generalizing blocks brackets index with
  | nil => rfl
  | cons s rest ih =>
    rw [statementEndFrom, statementEndFrom]
    split
    · rfl
    · rw [← ih, Nat.add_right_comm]

/-- A statement that has not ended with finished lines leaves a block or a bracket open. -/
theorem open_of_statementEndFrom {blocks brackets : Int} {index : Nat} {o : Outline} (ho : o ≠ [])
    (hfinished : o.Finished) (h : statementEndFrom blocks brackets index o = none) :
    0 ≤ blocks + blocksSum o ∧ 0 ≤ brackets + bracketsSum o ∧
      (0 < blocks + blocksSum o ∨ 0 < brackets + bracketsSum o) := by
  obtain ⟨init, last, rfl⟩ : ∃ init last, o = init ++ [last] :=
    ⟨o.dropLast, o.getLast ho, (List.dropLast_append_getLast ho).symm⟩
  have hgoes : last.continues = false := by
    have hlast := (finished_append (List.cons_ne_nil last [])).1 hfinished
    simpa [Finished] using hlast
  rw [statementEndFrom_append, Option.or_eq_none_iff] at h
  have hlast := h.2
  rw [statementEndFrom] at hlast
  split at hlast
  · cases hlast
  · rename_i hcond
    simp only [hgoes, Bool.not_false, and_true] at hcond
    simp only [blocksSum_append, bracketsSum_append, blocksSum_cons, bracketsSum_cons, blocksSum_nil,
      bracketsSum_nil]
    omega

/-- Where the depths stay above those of an open statement, it does not end. -/
theorem statementEndFrom_eq_none {blocks brackets : Int} {index : Nat} {o : Outline}
    (h : ∀ front back, o = front ++ back → 0 ≤ blocks + blocksSum front ∧
      0 ≤ brackets + bracketsSum front ∧
        (0 < blocks + blocksSum front ∨ 0 < brackets + bracketsSum front)) :
    statementEndFrom blocks brackets index o = none := by
  induction o generalizing blocks brackets index with
  | nil => rfl
  | cons s rest ih =>
    have hone := h [s] rest rfl
    simp only [blocksSum_cons, bracketsSum_cons, blocksSum_nil, bracketsSum_nil, Int.add_zero] at hone
    rw [statementEndFrom, if_neg (by omega)]
    refine ih fun front back hrest => ?_
    have hnext := h (s :: front) back (by rw [hrest, List.cons_append])
    simpa only [blocksSum_cons, bracketsSum_cons, Int.add_assoc] using hnext

theorem statementEnd_zero (o : Outline) : o.statementEnd 0 = statementEndFrom 0 0 0 o := rfl

theorem statementEnd_drop (o : Outline) (start : Nat) :
    o.statementEnd start = (statementEnd (o.drop start) 0).map (· + start) := by
  have hshift := statementEndFrom_add 0 0 0 start (o.drop start)
  rwa [Nat.zero_add] at hshift

section

variable {above stretch : Outline}

/-- A statement that ends above ends there whatever follows. -/
theorem statementEnd_append {last : Nat} (h : above.statementEnd 0 = some last) (below : Outline) :
    statementEnd (above ++ below) 0 = some last := by
  rw [statementEnd_zero] at h ⊢
  rw [statementEndFrom_append, h, Option.some_or]

/-- A statement that has not ended above goes on below closed lines. -/
theorem statementEnd_over (habove : above ≠ []) (hfinished : above.Finished) (h : stretch.Closed)
    (hnone : above.statementEnd 0 = none) (below : Outline) :
    statementEnd (above ++ (stretch ++ below)) 0 =
      (statementEnd (above ++ below) 0).map (· + stretch.length) := by
  rw [statementEnd_zero] at hnone ⊢
  have hopen := open_of_statementEndFrom habove hfinished hnone
  have hover : statementEndFrom (0 + blocksSum above) (0 + bracketsSum above) (0 + above.length)
      stretch = none := by
    refine statementEndFrom_eq_none fun front back hsplit => ?_
    have hblocks := (hsplit ▸ h).blocksSum_nonneg
    have hbrackets := (hsplit ▸ h).bracketsSum_nonneg
    omega
  rw [statementEnd_zero, statementEndFrom_append, statementEndFrom_append _ _ _ stretch,
    statementEndFrom_append 0 0 0 above below, hnone, hover, Option.none_or, Option.none_or,
    Option.none_or, h.blocksSum_eq_zero, h.bracketsSum_eq_zero, Int.add_zero, Int.add_zero,
    statementEndFrom_add]

/-- A statement that begins on closed lines ends on them. -/
theorem Closed.statementEnd_isSome (h : Closed (above ++ stretch)) (hne : stretch ≠ []) :
    (stretch.statementEnd 0).isSome = true := by
  rw [← Option.ne_none_iff_isSome]
  intro hnone
  have hopen := open_of_statementEndFrom hne ((finished_append hne).1 h.finished) hnone
  have hblocks := h.blocksSum_nonneg
  have hbrackets := h.bracketsSum_nonneg
  have hall := h.blocksSum_eq_zero
  have hall' := h.bracketsSum_eq_zero
  rw [blocksSum_append] at hall
  rw [bracketsSum_append] at hall'
  omega

end

/-! ## Ends of headers -/

/-- The line without its blocks. -/
def withoutBlocks (s : LineShape) : LineShape := { s with events := [] }

/-- A header is followed like a statement of which only the brackets count. -/
theorem headerEndFrom_eq (brackets : Int) (index : Nat) (o : Outline) :
    headerEndFrom brackets index o = statementEndFrom 0 brackets index (o.map withoutBlocks) := by
  induction o generalizing brackets index with
  | nil => rfl
  | cons s rest ih =>
    have hdepth : (withoutBlocks s).depth = 0 := rfl
    have hbrackets : (withoutBlocks s).brackets = s.brackets := rfl
    have hcontinues : (withoutBlocks s).continues = s.continues := rfl
    rw [List.map_cons, headerEndFrom, statementEndFrom, hdepth, hbrackets, hcontinues, ih]
    simp

theorem headerEnd_eq (o : Outline) : o.headerEnd 0 = statementEnd (o.map withoutBlocks) 0 :=
  headerEndFrom_eq 0 0 o

theorem headerEnd_drop (o : Outline) (start : Nat) :
    o.headerEnd start = (headerEnd (o.drop start) 0).map (· + start) := by
  rw [headerEnd_eq, List.map_drop, ← statementEnd_drop, headerEnd, headerEndFrom_eq, List.map_drop]
  rfl

theorem Finished.withoutBlocks {o : Outline} (h : o.Finished) :
    Finished (o.map Outline.withoutBlocks) := by
  unfold Finished at h ⊢
  rw [List.getLast?_map, Option.all_map]
  exact h

theorem Closed.withoutBlocks {o : Outline} (h : o.Closed) :
    Closed (o.map Outline.withoutBlocks) where
  blocks := by
    rw [List.map_map]
    exact depthBelow_nil 1 (o.map fun _ => []) (by simp)
  brackets := by
    intro n hn
    have hbrackets := h.brackets n (by simpa using hn)
    rwa [bracketsAbove, ← List.map_take, List.map_map]
  balanced := by
    have hbrackets := h.balanced
    rwa [bracketsAbove, List.length_map, ← List.map_take, List.map_map]
  finished := h.finished.withoutBlocks

section

variable {above stretch : Outline}

theorem headerEnd_append {last : Nat} (h : above.headerEnd 0 = some last) (below : Outline) :
    headerEnd (above ++ below) 0 = some last := by
  rw [headerEnd_eq] at h ⊢
  rw [List.map_append, statementEnd_append h]

theorem Closed.headerEnd_isSome (h : Closed (above ++ stretch)) (hne : stretch ≠ []) :
    (stretch.headerEnd 0).isSome = true := by
  have hclosed := h.withoutBlocks
  rw [List.map_append] at hclosed
  rw [headerEnd_eq]
  exact hclosed.statementEnd_isSome (mt List.map_eq_nil_iff.1 hne)

end

/-! ## Ends of blocks -/

theorem matchBlock_eq_none {o : Outline} {start : Nat} (h : ¬ o.OpensFirst start) :
    o.matchBlock start = none := by
  by_contra hne
  obtain ⟨b, hb⟩ := Option.ne_none_iff_exists'.1 hne
  exact h (opensFirst_of_matchBlock hb)

theorem opensFirst_drop (o : Outline) (start : Nat) :
    OpensFirst (o.drop start) 0 ↔ o.OpensFirst start := by
  unfold OpensFirst
  rw [List.getElem?_drop, Nat.add_zero]

theorem matchBlock_drop (o : Outline) (start : Nat) :
    o.matchBlock start =
      (matchBlock (o.drop start) 0).map fun b => ⟨b.start + start, b.stop + start⟩ := by
  by_cases h : o.OpensFirst start
  · have hshift := closingLine_add 0 0 start ((o.drop start).map LineShape.events)
    rw [Nat.zero_add] at hshift
    rw [matchBlock_eq h, matchBlock_eq ((opensFirst_drop o start).2 h), List.drop_zero, hshift,
      Option.map_map, Option.map_map]
    refine Option.map_congr fun stop _ => ?_
    simp
  · rw [matchBlock_eq_none h, matchBlock_eq_none (mt (opensFirst_drop o start).1 h), Option.map_none]

theorem matchBlock_add (o : Outline) (index start : Nat) : o.matchBlock (index + start) =
    (matchBlock (o.drop start) index).map fun b => ⟨b.start + start, b.stop + start⟩ := by
  rw [matchBlock_drop o, matchBlock_drop (o.drop start), List.drop_drop, Nat.add_comm start, Option.map_map]
  refine Option.map_congr fun b _ => ?_
  simp only [Function.comp_apply, Nat.add_assoc]

/-- With nothing open above it, a block that opens first and stays open leaves something open. -/
theorem one_le_of_opensFirst {o : Outline} (h : o.OpensFirst 0) {d : Nat}
    (hd : depthBelow 0 (o.map LineShape.events) = some d) : 1 ≤ d := by
  obtain ⟨es, rest, hevents⟩ := drop_of_opensFirst h
  rw [List.drop_zero] at hevents
  rw [hevents] at hd
  have hone : depthBelow 1 (es :: rest) = some d := hd
  exact one_le_of_depthBelow le_rfl hone

section

variable {above stretch : Outline}

theorem opensFirst_append (h : above ≠ []) (below : Outline) :
    OpensFirst (above ++ below) 0 ↔ above.OpensFirst 0 := by
  obtain ⟨s, rest, rfl⟩ := List.exists_cons_of_ne_nil h
  exact Iff.rfl

theorem matchBlock_append {b : Block} (h : above.matchBlock 0 = some b) (below : Outline) :
    matchBlock (above ++ below) 0 = some b := by
  have hopens := opensFirst_of_matchBlock h
  have hne : above ≠ [] := List.ne_nil_of_length_pos hopens.lt_length
  rw [matchBlock_eq hopens, List.drop_zero] at h
  obtain ⟨stop, hstop, rfl⟩ := Option.map_eq_some_iff.1 h
  rw [matchBlock_eq ((opensFirst_append hne below).2 hopens), List.drop_zero, List.map_append,
    closingLine_append_of_closed hstop, Option.map_some]

/-- A block that is open above is closed below closed lines. -/
theorem matchBlock_over (habove : above ≠ []) (h : stretch.Closed) (hnone : above.matchBlock 0 = none)
    (below : Outline) :
    matchBlock (above ++ (stretch ++ below)) 0 =
      (matchBlock (above ++ below) 0).map fun b => ⟨b.start, b.stop + stretch.length⟩ := by
  by_cases hopens : above.OpensFirst 0
  · rw [matchBlock_eq hopens, List.drop_zero, Option.map_eq_none_iff] at hnone
    obtain ⟨d, hd⟩ := closingLine_eq_none_iff.1 hnone
    have hpos := one_le_of_opensFirst hopens hd
    rw [matchBlock_eq ((opensFirst_append habove _).2 hopens),
      matchBlock_eq ((opensFirst_append habove _).2 hopens), List.drop_zero, List.drop_zero,
      List.map_append, List.map_append, List.map_append, closingLine_append_of_open hd,
      closingLine_append_of_open (h.depthBelow_eq hpos), closingLine_append_of_open hd,
      List.length_map, List.length_map, closingLine_add, Option.map_map, Option.map_map]
    rfl
  · rw [matchBlock_eq_none (mt (opensFirst_append habove _).1 hopens),
      matchBlock_eq_none (mt (opensFirst_append habove _).1 hopens), Option.map_none]

/-- A block that stays open above is closed below. -/
theorem le_of_matchBlock_append {b : Block} (hnone : above.matchBlock 0 = none) {below : Outline}
    (h : matchBlock (above ++ below) 0 = some b) (hne : above ≠ []) :
    b.start = 0 ∧ above.length ≤ b.stop := by
  have hopens := opensFirst_of_matchBlock h
  have habove := (opensFirst_append hne below).1 hopens
  rw [matchBlock_eq habove, List.drop_zero, Option.map_eq_none_iff] at hnone
  obtain ⟨d, hd⟩ := closingLine_eq_none_iff.1 hnone
  rw [matchBlock_eq hopens, List.drop_zero, List.map_append, closingLine_append_of_open hd] at h
  obtain ⟨stop, hstop, rfl⟩ := Option.map_eq_some_iff.1 h
  have hbounds := (closingLine_bounds hstop).1
  rw [List.length_map, Nat.zero_add] at hbounds
  exact ⟨rfl, hbounds⟩

/-- A block that opens on closed lines is closed on them. -/
theorem Closed.matchBlock_isSome (h : Closed (above ++ stretch)) (hopens : stretch.OpensFirst 0) :
    (stretch.matchBlock 0).isSome = true := by
  rw [matchBlock_eq hopens, List.drop_zero, Option.isSome_map, ← Option.ne_none_iff_isSome]
  intro hnone
  obtain ⟨d, hd⟩ := closingLine_eq_none_iff.1 hnone
  have hsum := Outline.depthBelow_eq hd
  have hblocks := h.blocksSum_nonneg
  have hall := h.blocksSum_eq_zero
  rw [total_flatten_events] at hsum
  rw [blocksSum_append, blocksSum, blocksSum] at hall
  rw [blocksSum] at hblocks
  have hpos := one_le_of_opensFirst hopens hd
  omega

end

end SchemaLift.Outline
