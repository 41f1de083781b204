import Mathlib.Data.List.Basic
import SchemaLift.Block.Outline

/-!
# Where statements and blocks end

Every end that the outline of a text gives lies in the text, at or below the line where the search
begins. The statements directly inside a block lie strictly between its opener and its closer
(`mem_children`).
-/

namespace SchemaLift.Outline

theorem length_ofLines (lines : List Line) : (ofLines lines).length = lines.length :=
  List.length_map _

/-! ## Ends of statements and headers -/

theorem statementEndFrom_bounds {blocks brackets : Int} {index last : Nat}
    {shapes : List LineShape} (h : statementEndFrom blocks brackets index shapes = some last) :
    index ≤ last ∧ last < index + shapes.length := by
  induction shapes generalizing blocks brackets index with
  | nil => cases h
  | cons s rest ih =>
    rw [statementEndFrom] at h
    simp only [List.length_cons]
    split at h
    · cases h
      omega
    · have := ih h
      omega

theorem headerEndFrom_bounds {brackets : Int} {index last : Nat} {shapes : List LineShape}
    (h : headerEndFrom brackets index shapes = some last) :
    index ≤ last ∧ last < index + shapes.length := by
  induction shapes generalizing brackets index with
  | nil => cases h
  | cons s rest ih =>
    rw [headerEndFrom] at h
    simp only [List.length_cons]
    split at h
    · cases h
      omega
    · have := ih h
      omega

theorem statementEnd_bounds {o : Outline} {start last : Nat}
    (h : o.statementEnd start = some last) : start ≤ last ∧ last < o.length := by
  have hb := statementEndFrom_bounds h
  rw [List.length_drop] at hb
  omega

theorem headerEnd_bounds {o : Outline} {start last : Nat} (h : o.headerEnd start = some last) :
    start ≤ last ∧ last < o.length := by
  have hb := headerEndFrom_bounds h
  rw [List.length_drop] at hb
  omega

/-! ## Blocks -/

theorem closingLine_bounds {depth index last : Nat} {lines : List (List BlockEvent)}
    (h : closingLine depth index lines = some last) :
    index ≤ last ∧ last < index + lines.length := by
  induction lines generalizing depth index with
  | nil => cases h
  | cons events rest ih =>
    rw [closingLine] at h
    simp only [List.length_cons]
    split at h
    · cases h
      omega
    · have := ih h
      omega

theorem matchBlock_bounds {o : Outline} {start : Nat} {b : Block}
    (h : o.matchBlock start = some b) :
    b.start = start ∧ start ≤ b.stop ∧ b.stop < o.length := by
  unfold matchBlock at h
  split at h
  · rename_i es rest hevents
    obtain ⟨stop, hstop, rfl⟩ := Option.map_eq_some_iff.1 h
    have hlen := congrArg List.length hevents
    simp only [List.length_map, List.length_drop, List.length_cons] at hlen
    have hb := closingLine_bounds hstop
    rw [List.length_cons] at hb
    have hstop : stop < o.length := by omega
    exact ⟨rfl, hb.1, hstop⟩
  · cases h

theorem mem_closes_of_depthAfter {depth : Nat} {events : List BlockEvent}
    (h : depthAfter depth events = none) : .closes ∈ events := by
  induction events generalizing depth with
  | nil => cases h
  | cons e es ih =>
    cases e with
    | opens => exact List.mem_cons_of_mem _ (ih h)
    | closes => exact List.mem_cons_self

theorem mem_closes_of_closingLine {depth index last : Nat} {lines : List (List BlockEvent)}
    (h : closingLine depth index lines = some last) :
    ∃ events, lines[last - index]? = some events ∧ .closes ∈ events := by
  induction lines generalizing depth index with
  | nil => cases h
  | cons events rest ih =>
    rw [closingLine] at h
    split at h
    · rename_i hdepth
      obtain rfl := Option.some.inj h
      exact ⟨events, by simp, mem_closes_of_depthAfter hdepth⟩
    · have hlt := (closingLine_bounds h).1
      obtain ⟨events', hget, hmem⟩ := ih h
      have hindex : last - index = last - (index + 1) + 1 := by omega
      exact ⟨events', by rw [hindex, List.getElem?_cons_succ, hget], hmem⟩

/-- The line that closes a block below its opener holds an `end`. -/
theorem mem_closes_of_matchBlock {o : Outline} {start : Nat} {b : Block}
    (h : o.matchBlock start = some b) (hlt : b.start < b.stop) :
    ∃ shape, o[b.stop]? = some shape ∧ .closes ∈ shape.events := by
  unfold matchBlock at h
  split at h
  · rename_i es rest hevents
    obtain ⟨stop, hstop, rfl⟩ := Option.map_eq_some_iff.1 h
    obtain ⟨events, hget, hmem⟩ := mem_closes_of_closingLine hstop
    have hlt : start < stop := hlt
    have hindex : stop - start = stop - start - 1 + 1 := by omega
    have hsame : ((o.drop start).map LineShape.events)[stop - start]? = some events := by
      rw [hevents, hindex, List.getElem?_cons_succ, ← hget]
      conv_rhs => rw [hindex, List.getElem?_cons_succ]
    rw [List.getElem?_map, List.getElem?_drop, Nat.add_sub_cancel' (Nat.le_of_lt hlt)] at hsame
    obtain ⟨shape, hshape, rfl⟩ := Option.map_eq_some_iff.1 hsame
    exact ⟨shape, hshape, hmem⟩
  · cases h

/-! ## Statements inside a block -/

theorem mem_childrenFrom {o : Outline} {last taken index : Nat} {shapes : List LineShape}
    (hlast : index + shapes.length ≤ last + 1) {r : LineRange}
    (h : r ∈ childrenFrom o last taken index shapes) :
    index + taken ≤ r.first ∧ r.first ≤ r.last ∧ r.last ≤ last := by
  induction shapes generalizing taken index with
  | nil => cases h
  | cons s rest ih =>
    simp only [List.length_cons] at hlast
    have hrest : index + 1 + rest.length ≤ last + 1 := by omega
    cases taken with
    | succ taken =>
      have := ih hrest h
      omega
    | zero =>
      rw [childrenFrom] at h
      split at h
      · have := ih hrest h
        omega
      rcases List.mem_cons.1 h with rfl | h
      · have hend : index ≤ (o.statementEnd index).getD last := by
          cases hs : o.statementEnd index with
          | none => rw [Option.getD_none]; omega
          | some stop => exact (statementEnd_bounds hs).1
        have hmin : index ≤ min ((o.statementEnd index).getD last) last :=
          Nat.le_min.2 ⟨hend, by omega⟩
        exact ⟨Nat.le_refl _, hmin, Nat.min_le_right _ _⟩
      · have := ih hrest h
        omega

/-- The statements directly inside a block stand between its opener and its closer. -/
theorem mem_children {o : Outline} {b : Block} {r : LineRange} (h : r ∈ o.children b) :
    b.start < r.first ∧ r.first ≤ r.last ∧ r.last < b.stop := by
  unfold children at h
  by_cases hb : b.start + 1 < b.stop
  · have hlen : ((o.drop (b.start + 1)).take (b.stop - (b.start + 1))).length
        ≤ b.stop - (b.start + 1) := List.length_take_le _ _
    have hr := mem_childrenFrom (by omega) h
    omega
  · have hnone : b.stop - (b.start + 1) = 0 := by omega
    rw [hnone, List.take_zero] at h
    cases h

theorem childrenFrom_pairwise {o : Outline} {last taken index : Nat} {shapes : List LineShape}
    (hlast : index + shapes.length ≤ last + 1) :
    (childrenFrom o last taken index shapes).Pairwise fun a b => a.last < b.first := by
  induction shapes generalizing taken index with
  | nil => exact .nil
  | cons s rest ih =>
    simp only [List.length_cons] at hlast
    have hrest : index + 1 + rest.length ≤ last + 1 := by omega
    cases taken with
    | succ taken => exact ih hrest
    | zero =>
      rw [childrenFrom]
      split
      · exact ih hrest
      · refine .cons (fun r hr => ?_) (ih hrest)
        have hfirst := (mem_childrenFrom hrest hr).1
        show min ((o.statementEnd index).getD last) last < r.first
        omega

/-- A statement inside a block ends above the next one. -/
theorem children_pairwise (o : Outline) (b : Block) :
    (o.children b).Pairwise fun a b => a.last < b.first := by
  unfold children
  by_cases hb : b.start + 1 < b.stop
  · have hlen : ((o.drop (b.start + 1)).take (b.stop - (b.start + 1))).length
        ≤ b.stop - (b.start + 1) := List.length_take_le _ _
    exact childrenFrom_pairwise (by omega)
  · have hnone : b.stop - (b.start + 1) = 0 := by omega
    rw [hnone, List.take_zero]
    exact .nil

end SchemaLift.Outline
