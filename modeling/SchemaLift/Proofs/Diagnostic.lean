import SchemaLift.Diagnostic
import SchemaLift.Proofs.Text.Match
import SchemaLift.Proofs.Text.Lines
import SchemaLift.Proofs.Token.Joined

/-!
# Where a diagnostic points

The line of a skipped construct is looked up by its text. The lines with that text are gone through from
top to bottom, and the one that is kept is never farther from the reported line than one seen so far nor
below one that is as near (`foldl_nearer_some`). A span that is found is always that of a line's text
without the white space around it (`coversLine_spanIn`).
-/

namespace SchemaLift.Diagnostic

/-! ## Spans of lines -/

/-- The span is that of the text of line `index` without the white space around it. -/
def CoversLine (source : Text) (index : Nat) (span : Span) : Prop :=
  ∃ line, (Text.lines source)[index]? = some line ∧ source.slice? span = some (Text.trim line) ∧
    span.start =
      Lines.offset (Text.lines source) index + Text.utf8Size (line.takeWhile Text.isBlankChar)

/-- The span of the text of `line`, which is line `index` of the source. -/
def spanIn (source : Text) (index : Nat) (line : Line) : Span :=
  lineSpan (Lines.offset (Text.lines source) index) line

variable {source : Text} {index : Nat} {line : Line}

theorem slice?_spanIn (h : (Text.lines source)[index]? = some line) :
    source.slice? (spanIn source index line) = some (Text.trim line) := by
  obtain ⟨above, below, hunlines, hoffset⟩ := Lines.exists_unlines_append h
  obtain ⟨ws, -, htrim⟩ := Text.exists_trim_append line
  rw [Text.unlines_lines] at hunlines
  refine Text.slice?_eq_some_iff.2 ⟨above ++ line.takeWhile Text.isBlankChar, ws ++ below, ?_, ?_⟩
  · conv_lhs => rw [hunlines, htrim]
    simp only [List.append_assoc]
  · simp only [spanIn, lineSpan, hoffset, Text.utf8Size_append]

theorem coversLine_spanIn (h : (Text.lines source)[index]? = some line) :
    CoversLine source index (spanIn source index line) :=
  ⟨line, h, slice?_spanIn h, rfl⟩

theorem getElem?_spansFrom (offset : Nat) (ls : List Line) (index : Nat) :
    (spansFrom offset ls)[index]? =
      ls[index]?.map fun line => (line, lineSpan (offset + Lines.offset ls index) line) := by
  induction ls generalizing offset index with
  | nil => rfl
  | cons line rest ih =>
    cases index with
    | zero => rfl
    | succ index =>
      rw [spansFrom, List.getElem?_cons_succ, List.getElem?_cons_succ, ih, Lines.offset_cons_succ]
      simp only [Nat.add_assoc]

theorem getElem?_spansFrom_lines (source : Text) (index : Nat) :
    (spansFrom 0 (Text.lines source))[index]? =
      (Text.lines source)[index]?.map fun line => (line, spanIn source index line) := by
  rw [getElem?_spansFrom]
  simp only [Nat.zero_add]
  rfl

/-! ## Lines with a text -/

/-- The lines of a source whose text is the given one, which is not empty: their indices and spans. -/
def matching (source snippet : Text) : List (Nat × Span) :=
  (spansFrom 0 (Text.lines source)).zipIdx.filterMap fun ((line, span), index) =>
    if !snippet.isEmpty && Text.trim line == snippet then some (index, span) else none

variable {snippet : Text}

theorem mem_matching (hne : snippet ≠ []) (hline : (Text.lines source)[index]? = some line)
    (htext : Text.trim line = snippet) :
    (index, spanIn source index line) ∈ matching source snippet := by
  have hentry :
      ((line, spanIn source index line), index) ∈ (spansFrom 0 (Text.lines source)).zipIdx := by
    rw [List.mem_zipIdx_iff_getElem?, getElem?_spansFrom_lines, hline]
    rfl
  refine List.mem_filterMap.2 ⟨_, hentry, ?_⟩
  simp [hne, htext]

theorem exists_of_mem_matching {place : Nat × Span} (h : place ∈ matching source snippet) :
    snippet ≠ [] ∧ ∃ line, (Text.lines source)[place.1]? = some line ∧ Text.trim line = snippet ∧
      place.2 = spanIn source place.1 line := by
  obtain ⟨⟨⟨line, span⟩, index⟩, hentry, hplace⟩ := List.mem_filterMap.1 h
  obtain ⟨hcond, hplace⟩ := Option.ite_none_right_eq_some.1 hplace
  obtain rfl := Option.some.inj hplace
  rw [List.mem_zipIdx_iff_getElem?, getElem?_spansFrom_lines] at hentry
  obtain ⟨line', hline, heq⟩ := Option.map_eq_some_iff.1 hentry
  obtain ⟨rfl, hspan⟩ := Prod.mk.inj heq
  simp only [Bool.and_eq_true, Bool.not_eq_true', List.isEmpty_eq_false_iff, beq_iff_eq] at hcond
  exact ⟨hcond.1, line', hline, hcond.2, hspan.symm⟩

theorem matching_ascending (source snippet : Text) :
    (matching source snippet).Pairwise fun p q => p.1 < q.1 := by
  have hindices : (spansFrom 0 (Text.lines source)).zipIdx.Pairwise fun p q => p.2 < q.2 := by
    rw [← List.pairwise_map (f := Prod.snd), List.zipIdx_map_snd]
    exact List.pairwise_lt_range'
  refine List.Pairwise.filterMap _ (fun p q hlt p' hp q' hq => ?_) hindices
  obtain ⟨-, hp⟩ := Option.ite_none_right_eq_some.1 hp
  obtain ⟨-, hq⟩ := Option.ite_none_right_eq_some.1 hq
  obtain rfl := Option.some.inj hp
  obtain rfl := Option.some.inj hq
  exact hlt

/-! ## The nearest of some places -/

/-- A place is nearer to line `reported` than another one, or as near and not below it. -/
def Precedes (reported : Nat) (p q : Nat × Span) : Prop :=
  distance p.1 reported < distance q.1 reported ∨
    (distance p.1 reported = distance q.1 reported ∧ p.1 ≤ q.1)

theorem precedes_refl (reported : Nat) (p : Nat × Span) : Precedes reported p p := .inr ⟨rfl, le_rfl⟩

theorem Precedes.trans {reported : Nat} {p q r : Nat × Span} (hpq : Precedes reported p q)
    (hqr : Precedes reported q r) : Precedes reported p r := by
  unfold Precedes at *
  omega

/-- Of a place and one below it, the nearer one is kept, and the upper one if they are as near. -/
theorem nearer_some (reported : Nat) {best place : Nat × Span} (h : best.1 < place.1) :
    ∃ kept, nearer reported (some best) place = some kept ∧ (kept = best ∨ kept = place) ∧
      Precedes reported kept best ∧ Precedes reported kept place := by
  rw [nearer]
  split
  · rename_i hnearer
    exact ⟨place, rfl, .inr rfl, .inl hnearer, precedes_refl reported place⟩
  · rename_i hfarther
    refine ⟨best, rfl, .inl rfl, precedes_refl reported best, ?_⟩
    unfold Precedes
    omega

/-- The place that is left in the end comes before all that were gone through. -/
theorem foldl_nearer_some (reported : Nat) {best : Nat × Span} {places : List (Nat × Span)}
    (h : (best :: places).Pairwise fun p q => p.1 < q.1) :
    ∃ p ∈ best :: places, places.foldl (nearer reported) (some best) = some p ∧
      ∀ q ∈ best :: places, Precedes reported p q := by
  induction places generalizing best with
  | nil =>
    refine ⟨best, List.mem_cons_self, rfl, fun q hq => ?_⟩
    rw [List.mem_singleton.1 hq]
    exact precedes_refl reported best
  | cons place places ih =>
    obtain ⟨hbest, hplaces⟩ := List.pairwise_cons.1 h
    obtain ⟨kept, hkept, hone, hkeptBest, hkeptPlace⟩ :=
      nearer_some reported (hbest place List.mem_cons_self)
    -- Whichever is kept, it stands above the places that are still to come.
    have hrest : (kept :: places).Pairwise fun p q => p.1 < q.1 := by
      obtain rfl | rfl := hone
      · have hbelow : ∀ q ∈ places, kept.1 < q.1 := fun q hq => hbest q (List.mem_cons_of_mem place hq)
        exact .cons hbelow (List.pairwise_cons.1 hplaces).2
      · exact hplaces
    obtain ⟨p, hp, hfold, hall⟩ := ih hrest
    obtain ⟨hfirst, hbehind⟩ := List.forall_mem_cons.1 hall
    have hmem : p ∈ best :: place :: places := by
      rcases List.mem_cons.1 hp with rfl | hp
      · obtain rfl | rfl := hone <;> simp
      · exact List.mem_cons_of_mem best (List.mem_cons_of_mem place hp)
    refine ⟨p, hmem, by rw [List.foldl_cons, hkept, hfold], ?_⟩
    exact List.forall_mem_cons.2
      ⟨hfirst.trans hkeptBest, List.forall_mem_cons.2 ⟨hfirst.trans hkeptPlace, hbehind⟩⟩

/-- Of all places the first one of the nearest is found, if there is any. -/
theorem foldl_nearer (reported : Nat) {places : List (Nat × Span)} (hne : places ≠ [])
    (h : places.Pairwise fun p q => p.1 < q.1) :
    ∃ p ∈ places, places.foldl (nearer reported) none = some p ∧
      ∀ q ∈ places, Precedes reported p q := by
  obtain ⟨best, places, rfl⟩ := List.exists_cons_of_ne_nil hne
  exact foldl_nearer_some reported h

/-! ## Where the construct stands -/

/-- Line `index` has the text `snippet`, and no other line with that text is nearer to line `reported`,
or as near and above it. -/
structure NearestLine (source snippet : Text) (reported index : Nat) : Prop where
  text : (Text.lines source)[index]?.map Text.trim = some snippet
  nearest : ∀ other : Nat, (Text.lines source)[other]?.map Text.trim = some snippet →
    ((index : Int) - reported).natAbs < ((other : Int) - reported).natAbs ∨
      (((index : Int) - reported).natAbs = ((other : Int) - reported).natAbs ∧ index ≤ other)

/-- A line of the source has the text of the skipped construct. -/
def HasSnippet (source : Text) (skip : Skip) : Prop :=
  skip.snippet ≠ [] ∧ ∃ line ∈ Text.lines source, Text.trim line = skip.snippet

/-- The span is a place of the source that shows a skipped construct: the text of the construct, where it
stands nearest to the reported line; if it stands nowhere, the text of the reported line; and if there is
no such line, the start. -/
structure PointsAt (source : Text) (skip : Skip) (span : Span) : Prop where
  inside : span.start ≤ span.stop ∧ span.stop ≤ Text.utf8Size source
  boundaries : source.IsBoundary span.start ∧ source.IsBoundary span.stop
  snippet : HasSnippet source skip → source.slice? span = some skip.snippet ∧
    ∃ index, NearestLine source skip.snippet (skip.line - 1) index ∧ CoversLine source index span
  reported : ¬ HasSnippet source skip → skip.line - 1 < (Text.lines source).length →
    CoversLine source (skip.line - 1) span
  start : ¬ HasSnippet source skip → (Text.lines source).length ≤ skip.line - 1 → span = ⟨0, 0⟩

section

variable {skip : Skip}

theorem locate_eq (source : Text) (skip : Skip) : locate source skip =
    match (matching source skip.snippet).foldl (nearer (skip.line - 1)) none with
    | some (_, span) => span
    | none => ((spansFrom 0 (Text.lines source))[skip.line - 1]?.map Prod.snd).getD ⟨0, 0⟩ :=
  rfl

theorem matching_ne_nil (h : HasSnippet source skip) : matching source skip.snippet ≠ [] := by
  obtain ⟨hne, line, hline, htext⟩ := h
  obtain ⟨index, hindex⟩ := List.getElem?_of_mem hline
  exact List.ne_nil_of_mem (mem_matching hne hindex htext)

theorem matching_eq_nil (h : ¬ HasSnippet source skip) : matching source skip.snippet = [] := by
  refine List.eq_nil_iff_forall_not_mem.2 fun place hplace => h ?_
  obtain ⟨hne, line, hline, htext, -⟩ := exists_of_mem_matching hplace
  exact ⟨hne, line, List.mem_of_getElem? hline, htext⟩

/-- The construct is found where its text stands nearest to the reported line. -/
theorem locate_of_hasSnippet (h : HasSnippet source skip) : ∃ index,
    NearestLine source skip.snippet (skip.line - 1) index ∧
      CoversLine source index (locate source skip) := by
  obtain ⟨p, hp, hfold, hfirst⟩ :=
    foldl_nearer (skip.line - 1) (matching_ne_nil h) (matching_ascending source skip.snippet)
  obtain ⟨hne, line, hline, htext, hspan⟩ := exists_of_mem_matching hp
  have hlocate : locate source skip = p.2 := by rw [locate_eq, hfold]
  refine ⟨p.1, ⟨by rw [hline, Option.map_some, htext], fun other hother => ?_⟩, ?_⟩
  · obtain ⟨line', hline', htext'⟩ := Option.map_eq_some_iff.1 hother
    have hfar := hfirst _ (mem_matching hne hline' htext')
    unfold Precedes distance at hfar
    omega
  · rw [hlocate, hspan]
    exact coversLine_spanIn hline

theorem locate_of_not_hasSnippet (h : ¬ HasSnippet source skip) : locate source skip =
    ((Text.lines source)[skip.line - 1]?.map (spanIn source (skip.line - 1))).getD ⟨0, 0⟩ := by
  rw [locate_eq, matching_eq_nil h, getElem?_spansFrom_lines, Option.map_map]
  rfl

/-- What is found can be cut out of the source. -/
theorem exists_slice?_locate (source : Text) (skip : Skip) :
    ∃ text, source.slice? (locate source skip) = some text := by
  by_cases h : HasSnippet source skip
  · obtain ⟨index, -, line, -, hslice, -⟩ := locate_of_hasSnippet h
    exact ⟨_, hslice⟩
  rw [locate_of_not_hasSnippet h]
  cases hline : (Text.lines source)[skip.line - 1]? with
  | none => exact ⟨[], Text.slice?_append [] [] source⟩
  | some line => exact ⟨_, slice?_spanIn hline⟩

end

/-- A diagnostic points at the skipped construct, whatever its record says of the source. -/
theorem ofSkip_pointsAt (source : Text) (skip : Skip) :
    PointsAt source skip (ofSkip source skip).span := by
  change PointsAt source skip (locate source skip)
  obtain ⟨text, hslice⟩ := exists_slice?_locate source skip
  have hstop := Text.stop_of_slice? hslice
  refine ⟨⟨by omega, Text.stop_le_of_slice? hslice⟩, Text.isBoundary_of_slice? hslice, ?_, ?_, ?_⟩
  · intro h
    obtain ⟨index, hnearest, hcovers⟩ := locate_of_hasSnippet h
    refine ⟨?_, index, hnearest, hcovers⟩
    obtain ⟨line, hline, hcut, -⟩ := hcovers
    have htext := hnearest.text
    rw [hline, Option.map_some] at htext
    rw [hcut, htext]
  · intro h hlt
    have hline := List.getElem?_eq_getElem hlt
    rw [locate_of_not_hasSnippet h, hline]
    exact coversLine_spanIn hline
  · intro h hle
    rw [locate_of_not_hasSnippet h, List.getElem?_eq_none hle]
    rfl

/-- The reported line has another text, and the lines above and below it have that of the construct. -/
example : (ofSkip "é\n\u3000x\nb\n x\r".toList ⟨.field, 3, ['x'], .missingType ['x']⟩).span =
    ⟨6, 7⟩ := by
  rfl

end SchemaLift.Diagnostic
