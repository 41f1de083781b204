import SchemaLift.Proofs.Block.Balance
import SchemaLift.Proofs.Block.Outline

/-!
# Blocks around exchanged lines

When lines inside a block are exchanged for others that add as much to the depth, the block is closed
by the same line as before, exactly if the new lines do not close it themselves
(`keepsEnds_of_total_eq`). They can: a sum says nothing about the lowest depth on the way.
-/

namespace SchemaLift

/-! ## Depths along lines -/

theorem BlockEvent.total_append (a b : List BlockEvent) : total (a ++ b) = total a + total b := by
  induction a with
  | nil => exact (zero_add _).symm
  | cons e es ih => rw [List.cons_append, total, total, ih, add_assoc]

namespace Outline

/-- The events of lines, line by line. -/
def eventsOf (ls : List Line) : List (List BlockEvent) := (ofLines ls).map LineShape.events

theorem length_eventsOf (ls : List Line) : (eventsOf ls).length = ls.length := by
  simp [eventsOf, ofLines]

theorem eventsOf_append (a b : List Line) : eventsOf (a ++ b) = eventsOf a ++ eventsOf b := by
  simp [eventsOf, ofLines]

/-- The first part of a balance is the sum of all block events. -/
theorem balance_fst (ls : List Line) :
    (balance ls).1 = BlockEvent.total (eventsOf (ls.flatMap Text.lines)).flatten := by
  unfold balance
  induction ls.flatMap Text.lines with
  | nil => rfl
  | cons line rest ih =>
    have hcons : eventsOf (line :: rest) = (LineShape.ofLine line).events :: eventsOf rest := rfl
    rw [List.map_cons, List.sum_cons, Prod.fst_add, ih, hcons, List.flatten_cons,
      BlockEvent.total_append]
    rfl

theorem depthAfter_eq {depth d : Nat} {events : List BlockEvent}
    (h : depthAfter depth events = some d) : (d : Int) = depth + BlockEvent.total events := by
  induction events generalizing depth with
  | nil =>
    obtain rfl := Option.some.inj h
    simp [BlockEvent.total]
  | cons e es ih =>
    cases e with
    | opens =>
      have hd := ih h
      simp only [BlockEvent.total, BlockEvent.delta]
      omega
    | closes =>
      rw [depthAfter] at h
      by_cases hlow : depth ≤ 1
      · rw [if_pos hlow] at h
        cases h
      · rw [if_neg hlow] at h
        have hd := ih h
        simp only [BlockEvent.total, BlockEvent.delta]
        omega

/-- The depth below lines on which it does not come to zero. -/
def depthBelow (depth : Nat) : List (List BlockEvent) → Option Nat
  | [] => some depth
  | events :: rest => (depthAfter depth events).bind (depthBelow · rest)

theorem depthBelow_eq {depth d : Nat} {lines : List (List BlockEvent)}
    (h : depthBelow depth lines = some d) :
    (d : Int) = depth + BlockEvent.total lines.flatten := by
  induction lines generalizing depth with
  | nil =>
    obtain rfl := Option.some.inj h
    simp [BlockEvent.total]
  | cons events rest ih =>
    obtain ⟨d', hfirst, hrest⟩ := Option.bind_eq_some_iff.1 h
    have hd := depthAfter_eq hfirst
    have hd' := ih hrest
    rw [List.flatten_cons, BlockEvent.total_append]
    omega

/-- A block is closed on the lines, or it stays open and its depth below them is known. -/
theorem closingLine_eq_none_iff {depth index : Nat} {lines : List (List BlockEvent)} :
    closingLine depth index lines = none ↔ ∃ d, depthBelow depth lines = some d := by
  induction lines generalizing depth index with
  | nil => simp [closingLine, depthBelow]
  | cons events rest ih =>
    rw [closingLine, depthBelow]
    cases h : depthAfter depth events with
    | none => simp
    | some d => exact ih

/-- A block that stays open is closed further down, counted from the depth that it has there. -/
theorem closingLine_append_of_open {depth index d : Nat} {above : List (List BlockEvent)}
    (h : depthBelow depth above = some d) (below : List (List BlockEvent)) :
    closingLine depth index (above ++ below) = closingLine d (index + above.length) below := by
  induction above generalizing depth index with
  | nil =>
    obtain rfl := Option.some.inj h
    rfl
  | cons events rest ih =>
    obtain ⟨d', hfirst, hrest⟩ := Option.bind_eq_some_iff.1 h
    rw [List.cons_append, closingLine, hfirst]
    simp only [ih hrest, List.length_cons]
    congr 1
    omega

theorem closingLine_append_of_closed {depth index last : Nat} {above : List (List BlockEvent)}
    (h : closingLine depth index above = some last) (below : List (List BlockEvent)) :
    closingLine depth index (above ++ below) = some last := by
  induction above generalizing depth index with
  | nil => cases h
  | cons events rest ih =>
    rw [closingLine] at h
    rw [List.cons_append, closingLine]
    cases hd : depthAfter depth events with
    | none => simpa [hd] using h
    | some d =>
      simp only [hd] at h
      exact ih h

theorem closingLine_add (depth index k : Nat) (lines : List (List BlockEvent)) :
    closingLine depth (index + k) lines = (closingLine depth index lines).map (· + k) := by
  induction lines generalizing depth index with
  | nil => rfl
  | cons events rest ih =>
    rw [closingLine, closingLine]
    cases depthAfter depth events with
    | none => rfl
    | some d =>
      simp only
      rw [← ih]
      congr 1
      omega

/-! ## Blocks around lines -/

/-- How a block that begins above is found, whatever follows. -/
theorem exists_opened {above below : List Line} {b : Block}
    (h : (ofLines (above ++ below)).matchBlock b.start = some b) (hstart : b.start < above.length) :
    ∃ opened, b.start + opened.length = above.length ∧ ∀ rest,
      (ofLines (above ++ rest)).matchBlock b.start =
        (closingLine 1 b.start (opened ++ eventsOf rest)).map fun stop => ⟨b.start, stop⟩ := by
  have hdrop : ∀ rest, ((ofLines (above ++ rest)).drop b.start).map LineShape.events =
      (eventsOf above).drop b.start ++ eventsOf rest := by
    intro rest
    have hle : b.start ≤ (eventsOf above).length := by
      rw [length_eventsOf]
      omega
    rw [List.map_drop, ← List.drop_append_of_le_length hle, ← eventsOf_append]
    rfl
  obtain ⟨first, tail, hsplit⟩ : ∃ first tail, (eventsOf above).drop b.start = first :: tail := by
    apply List.exists_cons_of_ne_nil
    simp [length_eventsOf, hstart]
  have hlen : b.start + (first :: tail).length = above.length := by
    rw [← hsplit, List.length_drop, length_eventsOf]
    omega
  cases first with
  | nil => simp [matchBlock, hdrop, hsplit] at h
  | cons e es =>
    cases e with
    | closes => simp [matchBlock, hdrop, hsplit] at h
    | opens =>
      refine ⟨es :: tail, hlen, ?_⟩
      intro rest
      simp [matchBlock, hdrop, hsplit]

/-- When `new` comes for `old` in a text, a block around it is closed by the same line as before,
exactly if the new lines do not close it themselves. -/
def KeepsEnds (old new : List Line) : Prop :=
  ∀ (above below : List Line) (b : Block),
    (ofLines (above ++ (old ++ below))).matchBlock b.start = some b →
      b.start < above.length → above.length + old.length ≤ b.stop →
        ((ofLines (above ++ (new ++ below))).matchBlock b.start =
            some ⟨b.start, b.stop - old.length + new.length⟩ ↔
          (ofLines (above ++ new)).matchBlock b.start = none)

theorem keepsEnds_of_total_eq {old new : List Line}
    (hsum : BlockEvent.total (eventsOf old).flatten = BlockEvent.total (eventsOf new).flatten) :
    KeepsEnds old new := by
  intro above below b h hstart hstop
  obtain ⟨opened, hlen, hmatch⟩ := exists_opened h hstart
  have hclosed : closingLine 1 b.start ((opened ++ eventsOf old) ++ eventsOf below) =
      some b.stop := by
    rw [hmatch, eventsOf_append, ← List.append_assoc] at h
    obtain ⟨stop, hstop, heq⟩ := Option.map_eq_some_iff.1 h
    rw [hstop, ← heq]
  -- the old lines leave the block open, at some depth
  have hopen : closingLine 1 b.start (opened ++ eventsOf old) = none := by
    by_contra hne
    obtain ⟨last, hlast⟩ := Option.ne_none_iff_exists'.1 hne
    have hbounds := closingLine_bounds hlast
    rw [closingLine_append_of_closed hlast] at hclosed
    obtain rfl := Option.some.inj hclosed
    rw [List.length_append, length_eventsOf] at hbounds
    omega
  obtain ⟨d, hd⟩ := closingLine_eq_none_iff.1 hopen
  rw [hmatch, hmatch, eventsOf_append, ← List.append_assoc, Option.map_eq_none_iff]
  cases hnew : closingLine 1 b.start (opened ++ eventsOf new) with
  | none =>
    obtain ⟨d', hd'⟩ := closingLine_eq_none_iff.1 hnew
    have hsame : d' = d := by
      have hold := depthBelow_eq hd
      have hnew := depthBelow_eq hd'
      rw [List.flatten_append, BlockEvent.total_append] at hold hnew
      omega
    subst hsame
    rw [closingLine_append_of_open hd, List.length_append, length_eventsOf, ← Nat.add_assoc, hlen,
      closingLine_add] at hclosed
    obtain ⟨stop, hstop, heq⟩ := Option.map_eq_some_iff.1 hclosed
    rw [closingLine_append_of_open hd', List.length_append, length_eventsOf, ← Nat.add_assoc, hlen,
      closingLine_add, hstop, ← heq]
    simp
  | some last =>
    have hbounds := closingLine_bounds hnew
    rw [closingLine_append_of_closed hnew]
    simp only [List.length_append, length_eventsOf] at hbounds
    simp only [Option.map_some, Option.some.injEq, Block.mk.injEq, true_and, reduceCtorEq, iff_false]
    omega

example : BlockEvent.total (eventsOf ["end; begin".toList]).flatten = 0 ∧
    (ofLines ["class A".toList, "end; begin".toList]).matchBlock 0 = some ⟨0, 1⟩ := by decide

end Outline

end SchemaLift
