import Mathlib.Algebra.BigOperators.Group.List.Basic
import Mathlib.Algebra.Ring.Int.Defs
import SchemaLift.Proofs.Block.Enclosing
import SchemaLift.Proofs.Block.Matching

/-!
# The statements directly inside a block

The children of a block are found by scanning statements line by line, while the block itself is
matched event by event. Both count the same depth: above each line of a block more is open than above
its first one (`blocksAbove_lt_of_matchBlock`). So a statement that starts with nothing open but the
block ends in the same way, and the next one starts there too (`atStatement_below`).
-/

namespace SchemaLift.Outline

/-! ## Depths above a line -/

/-- What the lines above line `index` add to the depth of blocks together. -/
def blocksAbove (o : Outline) (index : Nat) : Int := ((o.take index).map LineShape.depth).sum

/-- What the lines above line `index` add to the depth of brackets together. -/
def bracketsAbove (o : Outline) (index : Nat) : Int := ((o.take index).map LineShape.brackets).sum

variable {o : Outline} {b : Block}

theorem blocksAbove_succ {index : Nat} {s : LineShape} (h : o[index]? = some s) :
    o.blocksAbove (index + 1) = o.blocksAbove index + s.depth := by
  simp [blocksAbove, List.take_add_one, h]

theorem bracketsAbove_succ {index : Nat} {s : LineShape} (h : o[index]? = some s) :
    o.bracketsAbove (index + 1) = o.bracketsAbove index + s.brackets := by
  simp [bracketsAbove, List.take_add_one, h]

theorem total_flatten_events (shapes : List LineShape) :
    BlockEvent.total (shapes.map LineShape.events).flatten = (shapes.map LineShape.depth).sum := by
  induction shapes with
  | nil => rfl
  | cons s rest ih =>
    rw [List.map_cons, List.flatten_cons, BlockEvent.total_append, ih, List.map_cons, List.sum_cons]
    rfl

/-! ## Inside a block -/

theorem one_le_of_depthAfter {depth d : Nat} (hdepth : 1 ≤ depth) {events : List BlockEvent}
    (h : depthAfter depth events = some d) : 1 ≤ d := by
  induction events generalizing depth with
  | nil =>
    obtain rfl := Option.some.inj h
    exact hdepth
  | cons e es ih =>
    cases e with
    | opens => exact ih (Nat.le_add_left 1 depth) h
    | closes =>
      rw [depthAfter] at h
      split at h
      · cases h
      · exact ih (by omega) h

theorem one_le_of_depthBelow {depth d : Nat} (hdepth : 1 ≤ depth) {lines : List (List BlockEvent)}
    (h : depthBelow depth lines = some d) : 1 ≤ d := by
  induction lines generalizing depth with
  | nil =>
    obtain rfl := Option.some.inj h
    exact hdepth
  | cons events rest ih =>
    obtain ⟨d', hfirst, hrest⟩ := Option.bind_eq_some_iff.1 h
    exact ih (one_le_of_depthAfter hdepth hfirst) hrest

/-- Above each further line of a block, its closing line included, more blocks are open than above its
first line. -/
theorem blocksAbove_lt_of_matchBlock {start index : Nat} (h : o.matchBlock start = some b)
    (hstart : start < index) (hstop : index ≤ b.stop) : o.blocksAbove start < o.blocksAbove index := by
  have hbounds := matchBlock_bounds h
  have hopens := opensFirst_of_matchBlock h
  rw [matchBlock_eq hopens] at h
  obtain ⟨stop, hclosing, rfl⟩ := Option.map_eq_some_iff.1 h
  obtain ⟨n, rfl⟩ : ∃ n, index = start + (n + 1) := ⟨index - start - 1, by omega⟩
  obtain ⟨above, habove⟩ : ∃ above, above = (o.drop start).take (n + 1) := ⟨_, rfl⟩
  have hlength : above.length = n + 1 := by
    rw [habove, List.length_take, List.length_drop]
    omega
  have hsplit : (o.drop start).map LineShape.events =
      above.map LineShape.events ++ (o.drop (start + (n + 1))).map LineShape.events := by
    rw [habove, ← List.map_append, ← List.drop_drop, List.take_append_drop]
  -- the block is still open below these lines
  have hopen : closingLine 0 start (above.map LineShape.events) = none := by
    by_contra hne
    obtain ⟨last, hlast⟩ := Option.ne_none_iff_exists'.1 hne
    have hlast' := (closingLine_bounds hlast).2
    rw [hsplit, closingLine_append_of_closed hlast] at hclosing
    obtain rfl := Option.some.inj hclosing
    rw [List.length_map, hlength] at hlast'
    simp only at hstop
    omega
  obtain ⟨d, hd⟩ := closingLine_eq_none_iff.1 hopen
  have hsum := depthBelow_eq hd
  have hpos : 1 ≤ d := by
    obtain ⟨es, rest, hdrop⟩ := drop_of_opensFirst hopens
    obtain ⟨s, shapes, hshapes⟩ := List.exists_cons_of_length_eq_add_one hlength
    rw [hsplit, hshapes, List.map_cons, List.cons_append] at hdrop
    rw [hshapes, List.map_cons, (List.cons.inj hdrop).1] at hd
    -- the opener brings the depth to one
    have hone : depthBelow 1 (es :: shapes.map LineShape.events) = some d := hd
    exact one_le_of_depthBelow le_rfl hone
  have hadd : o.blocksAbove (start + (n + 1)) = o.blocksAbove start + (above.map LineShape.depth).sum := by
    rw [blocksAbove, List.take_add, List.map_append, List.sum_append, habove, blocksAbove]
  rw [total_flatten_events] at hsum
  omega

/-! ## Where statements end -/

/-- A statement from line `start` on may end with line `last`: it has closed what was opened above it, or
it leaves nothing open and does not go on. -/
def EndsAt (o : Outline) (start last : Nat) : Prop :=
  o.blocksAbove (last + 1) < o.blocksAbove start ∨
    o.bracketsAbove (last + 1) < o.bracketsAbove start ∨
    (o.blocksAbove (last + 1) = o.blocksAbove start ∧
      o.bracketsAbove (last + 1) = o.bracketsAbove start ∧
      ∃ s, o[last]? = some s ∧ s.continues = false)

theorem endsAt_iff {start index : Nat} {s : LineShape} (hs : o[index]? = some s) :
    o.EndsAt start index ↔
      o.blocksAbove index - o.blocksAbove start + s.depth < 0 ∨
        o.bracketsAbove index - o.bracketsAbove start + s.brackets < 0 ∨
        (o.blocksAbove index - o.blocksAbove start + s.depth = 0 ∧
          o.bracketsAbove index - o.bracketsAbove start + s.brackets = 0 ∧ !s.continues) := by
  have hblocks := blocksAbove_succ hs
  have hbrackets := bracketsAbove_succ hs
  unfold EndsAt
  rw [hblocks, hbrackets, hs]
  simp only [Option.some_inj, exists_eq_left', Bool.not_eq_true']
  refine or_congr ?_ (or_congr ?_ (and_congr ?_ (and_congr ?_ Iff.rfl))) <;> omega

/-- From line `index` on, with the depths that the lines from `start` to there add, the scan ends with the
first line that the statement may end with. -/
theorem statementEndFrom_eq_some_iff (start index last : Nat) {shapes : List LineShape}
    (hdrop : o.drop index = shapes) :
    statementEndFrom (o.blocksAbove index - o.blocksAbove start)
        (o.bracketsAbove index - o.bracketsAbove start) index shapes = some last ↔
      index ≤ last ∧ last < o.length ∧ o.EndsAt start last ∧
        ∀ i, index ≤ i → i < last → ¬ o.EndsAt start i := by
  induction shapes generalizing index with
  | nil =>
    have hlength := List.drop_eq_nil_iff.1 hdrop
    constructor
    · intro h
      cases h
    · rintro ⟨hle, hlt, -⟩
      omega
  | cons s rest ih =>
    have hs := getElem?_of_drop_eq_cons hdrop
    have hlt : index < o.length := (List.getElem?_eq_some_iff.1 hs).1
    rw [statementEndFrom]
    split
    · rename_i hcond
      have hhere : o.EndsAt start index := (endsAt_iff hs).2 hcond
      constructor
      · intro h
        obtain rfl := Option.some.inj h
        exact ⟨le_rfl, hlt, hhere, fun i hle hlt => by omega⟩
      · rintro ⟨hle, -, -, hfirst⟩
        have heq : index = last := by
          by_contra hne
          exact hfirst index le_rfl (by omega) hhere
        rw [heq]
    · rename_i hcond
      have hhere : ¬ o.EndsAt start index := fun h => hcond ((endsAt_iff hs).1 h)
      have hblocks := blocksAbove_succ hs
      have hbrackets := bracketsAbove_succ hs
      have hrest := ih (index + 1) (drop_succ_of_drop_eq_cons hdrop)
      rw [hblocks, hbrackets, add_sub_right_comm, add_sub_right_comm] at hrest
      rw [hrest]
      constructor
      · rintro ⟨hle, hlast, hend, hfirst⟩
        refine ⟨by omega, hlast, hend, fun i hi hlt => ?_⟩
        rcases Nat.eq_or_lt_of_le hi with rfl | hi
        · exact hhere
        · exact hfirst i hi hlt
      · rintro ⟨hle, hlast, hend, hfirst⟩
        have hne : index ≠ last := by
          rintro rfl
          exact hhere hend
        exact ⟨by omega, hlast, hend, fun i hi hlt => hfirst i (by omega) hlt⟩

/-- A statement ends with the first line that it may end with. -/
theorem statementEnd_eq_some_iff {start last : Nat} :
    o.statementEnd start = some last ↔
      start ≤ last ∧ last < o.length ∧ o.EndsAt start last ∧
        ∀ i, start ≤ i → i < last → ¬ o.EndsAt start i := by
  have hscan := statementEndFrom_eq_some_iff (o := o) start start last rfl
  rwa [Int.sub_self, Int.sub_self] at hscan

theorem endsAt_of_statementEnd {start last : Nat} (h : o.statementEnd start = some last) :
    o.EndsAt start last :=
  (statementEnd_eq_some_iff.1 h).2.2.1

/-! ## Children one by one -/

section

variable {last taken index : Nat} {shapes : List LineShape}

/-- A child is a whole statement, unless the block ends first. -/
theorem statementEnd_of_mem_childrenFrom {r : LineRange}
    (h : r ∈ childrenFrom o last taken index shapes) :
    o.statementEnd r.first = some r.last ∨ r.last = last := by
  induction shapes generalizing taken index with
  | nil => cases h
  | cons s rest ih =>
    cases taken with
    | succ taken => exact ih h
    | zero =>
      rw [childrenFrom] at h
      split at h
      · exact ih h
      rcases List.mem_cons.1 h with rfl | h
      · cases hend : o.statementEnd index with
        | none =>
          right
          simp
        | some stop =>
          simp only [Option.getD_some, Option.some_inj]
          omega
      · exact ih h

/-- Each line with code lies in a child, once the lines taken are passed. -/
theorem exists_mem_childrenFrom (hlength : index + shapes.length = last + 1) {i : Nat} {s : LineShape}
    (hi : index + taken ≤ i) (hs : shapes[i - index]? = some s) (hcode : s.isEmpty = false) :
    ∃ r ∈ childrenFrom o last taken index shapes, r.contains i = true := by
  induction shapes generalizing taken index with
  | nil => cases hs
  | cons first rest ih =>
    rw [List.length_cons] at hlength
    -- a line further down is a line of the rest
    have hrest : index < i → rest[i - (index + 1)]? = some s := by
      intro hlt
      rw [← hs, show i - index = i - (index + 1) + 1 by omega, List.getElem?_cons_succ]
    cases taken with
    | succ taken => exact ih (by omega) (by omega) (hrest (by omega))
    | zero =>
      rw [childrenFrom]
      by_cases hhere : i = index
      · subst hhere
        rw [Nat.sub_self, List.getElem?_cons_zero] at hs
        obtain rfl := Option.some.inj hs
        rw [if_neg (by simp [hcode])]
        refine ⟨_, List.mem_cons_self, LineRange.contains_iff.2 ⟨le_rfl, ?_⟩⟩
        cases hend : o.statementEnd i with
        | none =>
          simp only [Option.getD_none]
          omega
        | some stop =>
          have hle := (statementEnd_bounds hend).1
          simp only [Option.getD_some]
          omega
      · split
        · exact ih (by omega) (by omega) (hrest (by omega))
        obtain ⟨stop, hstop⟩ : ∃ stop, stop = min ((o.statementEnd index).getD last) last := ⟨_, rfl⟩
        rw [← hstop]
        by_cases hin : i ≤ stop
        · exact ⟨⟨index, stop⟩, List.mem_cons_self, LineRange.contains_iff.2 ⟨by omega, hin⟩⟩
        · have htaken : index + 1 + (stop - index) ≤ i := by omega
          obtain ⟨r, hr, hcontains⟩ := ih (by omega) htaken (hrest (by omega))
          exact ⟨r, List.mem_cons_of_mem _ hr, hcontains⟩

end

/-! ## Where the children of a block start -/

/-- Above line `index` one block more is open than above the first line of the block, and as many
brackets as above its body. -/
def AtStatement (o : Outline) (b : Block) (index : Nat) : Prop :=
  o.blocksAbove index = o.blocksAbove b.start + 1 ∧
    o.bracketsAbove index = o.bracketsAbove (b.start + 1)

/-- No line of the body closes a bracket that the body has not opened. -/
def BracketsInside (o : Outline) (b : Block) : Prop :=
  ∀ index, b.start < index → index ≤ b.stop →
    o.bracketsAbove (b.start + 1) ≤ o.bracketsAbove index

section

variable {start : Nat} (hmatch : o.matchBlock start = some b) (hbrackets : o.BracketsInside b)
include hmatch hbrackets

/-- Below a statement that ends in the block the next one may start. -/
theorem atStatement_below {first last : Nat} (hfirst : b.start < first) (hat : o.AtStatement b first)
    (hend : o.statementEnd first = some last) (hlast : last < b.stop) : o.AtStatement b (last + 1) := by
  have hle := (statementEnd_bounds hend).1
  have hstart := (matchBlock_bounds hmatch).1
  have hopen : o.blocksAbove start < o.blocksAbove (last + 1) :=
    blocksAbove_lt_of_matchBlock hmatch (by omega) (by omega)
  have hinside := hbrackets (last + 1) (by omega) (by omega)
  obtain ⟨hblocks, hbracket⟩ := hat
  rw [← hstart] at hopen
  rcases endsAt_of_statementEnd hend with hclosed | hclosed | ⟨hsame, hsame', -⟩
  · omega
  · omega
  · exact ⟨hsame.trans hblocks, hsame'.trans hbracket⟩

/-- Every child starts where the depths are those of a statement, as the first line of the body does. -/
theorem atStatement_of_mem_childrenFrom
    (hempty : ∀ s ∈ o, s.isEmpty = true → s.events = [] ∧ s.brackets = 0) {taken index : Nat}
    {shapes : List LineShape} (hindex : b.start < index)
    (hshapes : (o.drop index).take (b.stop - index) = shapes)
    (hat : index + taken < b.stop → o.AtStatement b (index + taken)) {r : LineRange}
    (h : r ∈ childrenFrom o (b.stop - 1) taken index shapes) : o.AtStatement b r.first := by
  induction shapes generalizing taken index with
  | nil => cases h
  | cons s rest ih =>
    obtain ⟨n, hn⟩ : ∃ n, b.stop - index = n + 1 := by
      cases hn : b.stop - index with
      | zero => simp [hn] at hshapes
      | succ n => exact ⟨n, rfl⟩
    obtain ⟨hs, hrest⟩ : o[index]? = some s ∧ (o.drop (index + 1)).take (b.stop - (index + 1)) = rest := by
      rw [hn] at hshapes
      cases hdrop : o.drop index with
      | nil => simp [hdrop] at hshapes
      | cons s' rest' =>
        rw [hdrop, List.take_succ_cons] at hshapes
        obtain ⟨rfl, rfl⟩ := List.cons.inj hshapes
        rw [drop_succ_of_drop_eq_cons hdrop, show b.stop - (index + 1) = n by omega]
        exact ⟨getElem?_of_drop_eq_cons hdrop, rfl⟩
    cases taken with
    | succ taken =>
      refine ih (by omega) hrest (fun hlt => ?_) h
      rw [show index + 1 + taken = index + (taken + 1) by omega] at hlt ⊢
      exact hat hlt
    | zero =>
      have hhere : o.AtStatement b index := hat (by omega)
      rw [childrenFrom] at h
      split at h
      · -- a line without code leaves the depths as they are
        rename_i hblank
        obtain ⟨hevents, hbracket⟩ := hempty s (List.mem_of_getElem? hs) hblank
        have hdepth : s.depth = 0 := by rw [LineShape.depth, hevents, BlockEvent.total]
        have hblocks' := blocksAbove_succ hs
        have hbrackets' := bracketsAbove_succ hs
        obtain ⟨hblocks, hbracket'⟩ := hhere
        refine ih (by omega) hrest (fun _ => ?_) h
        unfold AtStatement
        rw [Nat.add_zero]
        omega
      rcases List.mem_cons.1 h with rfl | h
      · exact hhere
      · refine ih (by omega) hrest (fun hlt => ?_) h
        cases hend : o.statementEnd index with
        | none =>
          rw [hend, Option.getD_none] at hlt
          omega
        | some stop =>
          have hle := (statementEnd_bounds hend).1
          rw [hend, Option.getD_some] at hlt
          rw [Option.getD_some,
            show index + 1 + (min stop (b.stop - 1) - index) = stop + 1 by omega]
          exact atStatement_below hmatch hbrackets hindex hhere hend (by omega)

end

/-! ## Children and the blocks among them -/

theorem length_body (h : b.stop < o.length) (hlt : b.start < b.stop) :
    b.start + 1 + ((o.drop (b.start + 1)).take (b.stop - (b.start + 1))).length = b.stop := by
  rw [List.length_take, List.length_drop]
  omega

/-- A line of the body with code lies in just one child. -/
theorem existsUnique_child {start i : Nat} {s : LineShape} (h : o.matchBlock start = some b)
    (hstart : b.start < i) (hstop : i < b.stop) (hs : o[i]? = some s) (hcode : s.isEmpty = false) :
    ∃! r, r ∈ o.children b ∧ r.contains i = true := by
  have hbounds := (matchBlock_bounds h).2.2
  have hlength := length_body hbounds (by omega)
  have hline : ((o.drop (b.start + 1)).take (b.stop - (b.start + 1)))[i - (b.start + 1)]? = some s := by
    rw [List.getElem?_take, if_pos (by omega), List.getElem?_drop,
      show b.start + 1 + (i - (b.start + 1)) = i by omega, hs]
  obtain ⟨r, hr, hcontains⟩ : ∃ r ∈ o.children b, r.contains i = true :=
    exists_mem_childrenFrom (by omega) (by omega) hline hcode
  refine ⟨r, ⟨hr, hcontains⟩, ?_⟩
  rintro r' ⟨hr', hcontains'⟩
  rw [LineRange.contains_iff] at hcontains hcontains'
  -- of two children one ends above the other
  have hpairwise := List.pairwise_iff_getElem.1 (children_pairwise o b)
  obtain ⟨m, hm, rfl⟩ := List.getElem_of_mem hr
  obtain ⟨n, hn, rfl⟩ := List.getElem_of_mem hr'
  rcases Nat.lt_trichotomy m n with hlt | rfl | hlt
  · have := hpairwise m n hm hn hlt
    omega
  · rfl
  · have := hpairwise n m hn hm hlt
    omega

section

variable {start : Nat} (hmatch : o.matchBlock start = some b) (hbrackets : o.BracketsInside b)
  (hone : o[b.start]?.map LineShape.depth = some 1)
  (hempty : ∀ s ∈ o, s.isEmpty = true → s.events = [] ∧ s.brackets = 0)
include hmatch hbrackets hone hempty

theorem atStatement_of_mem_children {r : LineRange} (hr : r ∈ o.children b) :
    o.AtStatement b r.first := by
  refine atStatement_of_mem_childrenFrom hmatch hbrackets hempty (Nat.lt_succ_self _) rfl
    (fun _ => ⟨?_, rfl⟩) hr
  obtain ⟨s, hs, hdepth⟩ := Option.map_eq_some_iff.1 hone
  have hsucc := blocksAbove_succ hs
  rwa [hdepth] at hsucc

/-- A block that starts in the body and ends there lies inside one child. -/
theorem existsUnique_child_of_block {j : Nat} {b' : Block} (hj : b.start < j)
    (hmatch' : o.matchBlock j = some b') (hstop : b'.stop < b.stop) :
    ∃! r, r ∈ o.children b ∧ r.first ≤ j ∧ b'.stop ≤ r.last := by
  have hbounds := matchBlock_bounds hmatch'
  have hstart := (matchBlock_bounds hmatch).1
  obtain ⟨s, hs, hopens⟩ := opensFirst_of_matchBlock hmatch'
  have hcode : s.isEmpty = false := by
    refine Bool.eq_false_iff.2 fun hblank => ?_
    rw [(hempty s (List.mem_of_getElem? hs) hblank).1] at hopens
    cases hopens
  obtain ⟨r, ⟨hr, hcontains⟩, hunique⟩ := existsUnique_child hmatch hj (by omega) hs hcode
  rw [LineRange.contains_iff] at hcontains
  refine ⟨r, ⟨hr, hcontains.1, ?_⟩, fun r' hr' => hunique r' ⟨hr'.1, ?_⟩⟩
  · by_contra hlt
    -- the child would end while the block in it is open, so more would be closed than opened above it
    have hat := atStatement_of_mem_children hmatch hbrackets hone hempty hr
    have hr' := mem_children hr
    have hend : o.statementEnd r.first = some r.last := by
      refine (statementEnd_of_mem_childrenFrom hr).resolve_right fun hlast => ?_
      omega
    have hbelow := (atStatement_below hmatch hbrackets hr'.1 hat hend hr'.2.2).1
    have hinner : o.blocksAbove j < o.blocksAbove (r.last + 1) :=
      blocksAbove_lt_of_matchBlock hmatch' (by omega) (by omega)
    have houter : o.blocksAbove start < o.blocksAbove j :=
      blocksAbove_lt_of_matchBlock hmatch (by omega) (by omega)
    rw [← hstart] at houter
    omega
  · rw [LineRange.contains_iff]
    omega

end

/-- A line without code adds nothing. -/
theorem ofLines_isEmpty {lines : List Line} :
    ∀ s ∈ ofLines lines, s.isEmpty = true → s.events = [] ∧ s.brackets = 0 := by
  intro s hs hblank
  obtain ⟨line, -, rfl⟩ := List.mem_map.1 hs
  have htokens : tokenizeCode line = [] := List.isEmpty_iff.1 hblank
  simp only [LineShape.ofLine, htokens]
  exact ⟨rfl, rfl⟩

/-- The children of a block are ranges of its body, one below the other, and each line of the body with
code lies in just one of them. If the first line opens one block more than it closes and the body closes
no bracket that it has not opened, then above each child nothing else is open than above the body, and
every block among the lines of the body lies inside one child. -/
theorem children_directlyInside {lines : List Line} {start : Nat} {b : Block}
    (h : (ofLines lines).matchBlock start = some b) :
    let o := ofLines lines
    (∀ r ∈ o.children b, b.start < r.first ∧ r.first ≤ r.last ∧ r.last < b.stop) ∧
    (o.children b).Pairwise (fun r s => r.last < s.first) ∧
    (∀ i line, b.start < i → i < b.stop → lines[i]? = some line → tokenizeCode line ≠ [] →
      ∃! r, r ∈ o.children b ∧ r.contains i = true) ∧
    (o[b.start]?.map LineShape.depth = some 1 → o.BracketsInside b →
      (∀ r ∈ o.children b, o.blocksAbove r.first = o.blocksAbove b.start + 1 ∧
        o.bracketsAbove r.first = o.bracketsAbove (b.start + 1)) ∧
      ∀ j b', b.start < j → o.matchBlock j = some b' → b'.stop < b.stop →
        ∃! r, r ∈ o.children b ∧ r.first ≤ j ∧ b'.stop ≤ r.last) := by
  intro o
  refine ⟨fun r hr => mem_children hr, children_pairwise o b, ?_, ?_⟩
  · intro i line hstart hstop hline hcode
    have hs : o[i]? = some (LineShape.ofLine line) := by
      show (lines.map LineShape.ofLine)[i]? = _
      rw [List.getElem?_map, hline, Option.map_some]
    exact existsUnique_child h hstart hstop hs (List.isEmpty_eq_false_iff.2 hcode)
  · intro hone hbrackets
    refine ⟨fun r hr => atStatement_of_mem_children h hbrackets hone ofLines_isEmpty hr, ?_⟩
    intro j b' hj hmatch' hstop
    exact existsUnique_child_of_block h hbrackets hone ofLines_isEmpty hj hmatch' hstop

/-- A statement over several lines, a comment, a block inside a proc in braces, and a statement that the
end of the block cuts off. -/
theorem children_directlyInside_nested :
    let o := ofLines ["a do".toList, "b [1,".toList, "  2]".toList, "# c".toList, "d \x7b".toList,
      "  e do".toList, "  end".toList, "\x7d".toList, "f,".toList, "end".toList]
    o.matchBlock 0 = some ⟨0, 9⟩ ∧ o.matchBlock 5 = some ⟨5, 6⟩ ∧
      o[0]?.map LineShape.depth = some 1 ∧ o.BracketsInside ⟨0, 9⟩ ∧
      o.children ⟨0, 9⟩ = [⟨1, 2⟩, ⟨4, 7⟩, ⟨8, 8⟩] ∧
      (∀ r ∈ o.children ⟨0, 9⟩, o.blocksAbove r.first = o.blocksAbove 0 + 1 ∧
        o.bracketsAbove r.first = o.bracketsAbove 1) ∧
      ∃! r, r ∈ o.children ⟨0, 9⟩ ∧ r.first ≤ 5 ∧ 6 ≤ r.last := by
  intro o
  have hblock : o.matchBlock 0 = some ⟨0, 9⟩ := by decide
  have hinner : o.matchBlock 5 = some ⟨5, 6⟩ := by decide
  have hone : o[0]?.map LineShape.depth = some 1 := by decide
  have hbrackets : o.BracketsInside ⟨0, 9⟩ := by
    have hlines : ∀ index ≤ 9, 0 < index → o.bracketsAbove 1 ≤ o.bracketsAbove index := by decide
    exact fun index hstart hstop => hlines index hstop hstart
  obtain ⟨-, -, -, hdirect⟩ := children_directlyInside hblock
  obtain ⟨hdepths, hblocks⟩ := hdirect hone hbrackets
  exact ⟨hblock, hinner, hone, hbrackets, by decide, hdepths, hblocks 5 ⟨5, 6⟩ (by decide) hinner (by decide)⟩

end SchemaLift.Outline
