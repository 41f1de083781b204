import SchemaLift.Proofs.Block.Children

/-!
# Where a block and the statement around it end

The extent of a declaration is measured in two ways. A block is matched event by event and may end
inside a line; a statement is followed line by line, with its brackets and its continuations. Below each
line of a block but the last one the block is open, so there only a bracket can end the statement
(`endsAt_inside_iff`). Both ways come to the same line exactly if none does and the statement may end
with the block (`statementEnd_eq_stop_iff`).
-/

namespace SchemaLift.Outline

/-! ## What a stretch of lines adds -/

/-- What the lines `first` through `last` add to the depth of blocks together. -/
def blocksOn (o : Outline) (first last : Nat) : Int :=
  (((o.drop first).take (last + 1 - first)).map LineShape.depth).sum

/-- What the lines `first` through `last` add to the depth of brackets together. -/
def bracketsOn (o : Outline) (first last : Nat) : Int :=
  (((o.drop first).take (last + 1 - first)).map LineShape.brackets).sum

variable {o : Outline} {b : Block} {start last : Nat}

theorem sum_map_take_add (f : LineShape → Int) (h : start ≤ last + 1) :
    ((o.take start).map f).sum + (((o.drop start).take (last + 1 - start)).map f).sum =
      ((o.take (last + 1)).map f).sum := by
  have htake : o.take (last + 1) = o.take start ++ (o.drop start).take (last + 1 - start) := by
    rw [← List.take_add, Nat.add_sub_cancel' h]
  rw [htake, List.map_append, List.sum_append]

theorem blocksAbove_add_blocksOn (h : start ≤ last + 1) :
    o.blocksAbove start + o.blocksOn start last = o.blocksAbove (last + 1) :=
  sum_map_take_add LineShape.depth h

theorem bracketsAbove_add_bracketsOn (h : start ≤ last + 1) :
    o.bracketsAbove start + o.bracketsOn start last = o.bracketsAbove (last + 1) :=
  sum_map_take_add LineShape.brackets h

/-- A statement may end where its lines close more than they open, or open and close the same and do not
go on. -/
theorem endsAt_iff_on (h : start ≤ last + 1) :
    o.EndsAt start last ↔
      o.blocksOn start last < 0 ∨ o.bracketsOn start last < 0 ∨
        (o.blocksOn start last = 0 ∧ o.bracketsOn start last = 0 ∧
          o[last]?.map LineShape.continues = some false) := by
  have hblocks := blocksAbove_add_blocksOn (o := o) h
  have hbrackets := bracketsAbove_add_bracketsOn (o := o) h
  unfold EndsAt
  rw [Option.map_eq_some_iff]
  refine or_congr ?_ (or_congr ?_ (and_congr ?_ (and_congr ?_ Iff.rfl))) <;> omega

/-! ## Statements that start with a block -/

section

variable (h : o.matchBlock start = some b)
include h

theorem blocksOn_pos {index : Nat} (hstart : start ≤ index) (hstop : index < b.stop) :
    0 < o.blocksOn start index := by
  have hopen : o.blocksAbove start < o.blocksAbove (index + 1) :=
    blocksAbove_lt_of_matchBlock h (by omega) hstop
  have hadd := blocksAbove_add_blocksOn (o := o) (Nat.le_succ_of_le hstart)
  omega

/-- Above the last line of the block its statement ends only with a bracket that it has not opened. -/
theorem endsAt_inside_iff {index : Nat} (hstart : start ≤ index) (hstop : index < b.stop) :
    o.EndsAt start index ↔ o.bracketsOn start index < 0 := by
  have hopen := blocksOn_pos h hstart hstop
  rw [endsAt_iff_on (by omega)]
  omega

/-- The statement ends with the block exactly if no line above closes a bracket that was not opened and
the statement may end there. -/
theorem statementEnd_eq_stop_iff :
    o.statementEnd start = some b.stop ↔
      (∀ index, start ≤ index → index < b.stop → 0 ≤ o.bracketsOn start index) ∧
        o.EndsAt start b.stop := by
  obtain ⟨-, hle, hlt⟩ := matchBlock_bounds h
  have hinside : (∀ i, start ≤ i → i < b.stop → ¬ o.EndsAt start i) ↔
      ∀ i, start ≤ i → i < b.stop → 0 ≤ o.bracketsOn start i := by
    refine forall_congr' fun i => forall_congr' fun hstart => forall_congr' fun hstop => ?_
    rw [endsAt_inside_iff h hstart hstop, Int.not_lt]
  rw [statementEnd_eq_some_iff, hinside]
  constructor
  · rintro ⟨-, -, hend, hbrackets⟩
    exact ⟨hbrackets, hend⟩
  · rintro ⟨hbrackets, hend⟩
    exact ⟨hle, hlt, hend, hbrackets⟩

/-- If the brackets on the lines of a block never close more than they have opened and are all closed in
the end, the lines close all the blocks that they open, and the last of them does not go on, then the
statement that starts with the block ends with it. -/
theorem statementEnd_of_matchBlock
    (hbrackets : ∀ last, start ≤ last → last ≤ b.stop → 0 ≤ o.bracketsOn start last)
    (hclosed : o.bracketsOn start b.stop = 0) (hblocks : o.blocksOn start b.stop = 0)
    (hlast : o[b.stop]?.map LineShape.continues = some false) :
    o.statementEnd start = some b.stop := by
  have hle := (matchBlock_bounds h).2.1
  have hend : o.EndsAt start b.stop :=
    (endsAt_iff_on (by omega)).2 (.inr (.inr ⟨hblocks, hclosed, hlast⟩))
  refine (statementEnd_eq_stop_iff h).2 ⟨fun last hstart hstop => ?_, hend⟩
  exact hbrackets last hstart hstop.le

end

/-- A block in brackets that are open over several lines, a block on one line, and one that ends on the
last line. -/
theorem statementEnd_of_matchBlock_nested :
    let o := ofLines ["a = if b([1,".toList, "  c do".toList, "  end, \x7b".toList, "\x7d])".toList,
      "  d do; begin; e; end".toList, "end; end # f,".toList, "g".toList]
    o.matchBlock 0 = some ⟨0, 5⟩ ∧
      (∀ last, 0 ≤ last → last ≤ 5 → 0 ≤ o.bracketsOn 0 last) ∧ o.bracketsOn 0 5 = 0 ∧
      o.blocksOn 0 5 = 0 ∧ o[5]?.map LineShape.continues = some false ∧
      o.statementEnd 0 = some 5 := by
  intro o
  have hblock : o.matchBlock 0 = some ⟨0, 5⟩ := by decide
  have hbrackets : ∀ last, 0 ≤ last → last ≤ 5 → 0 ≤ o.bracketsOn 0 last := by
    have hlines : ∀ last ≤ 5, 0 ≤ o.bracketsOn 0 last := by decide
    exact fun last _ hstop => hlines last hstop
  have hclosed : o.bracketsOn 0 5 = 0 := by decide
  have hblocks : o.blocksOn 0 5 = 0 := by decide
  have hlast : o[5]?.map LineShape.continues = some false := by decide
  exact ⟨hblock, hbrackets, hclosed, hblocks, hlast,
    statementEnd_of_matchBlock hblock hbrackets hclosed hblocks hlast⟩

end SchemaLift.Outline
