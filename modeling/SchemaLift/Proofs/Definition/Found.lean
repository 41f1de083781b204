import SchemaLift.Proofs.Block.Body
import SchemaLift.Proofs.Definition.Header
import SchemaLift.Proofs.Definition.NameStatement
import SchemaLift.Proofs.Definition.Replaced

/-!
# Where a rule finds something in a definition

The rules for lists, hooks, headers and names look at single lines, at the statements and blocks that begin
there, and at the statements directly inside these blocks. Closed lines make no difference to what they find
above and below (`spliced_replaced`, `upgraded_above`, `names_above`).
-/

namespace SchemaLift

open Outline Walk

/-! ## Statements that are replaced -/

namespace StatementRule

/-- The number of lines that a scan takes behind the first one. -/
def reach (w : StatementRule) (ls : List Line) : Nat :=
  if ls.head?.any w.starts then ((ofLines ls).statementEnd 0).getD 0 else 0

/-- Whether the statement on the first line is replaced. -/
def replacesFirst (w : StatementRule) (ls : List Line) : Bool :=
  ls.head?.any w.starts &&
    ((ofLines ls).statementEnd 0).any fun last => (w.replacement ls ⟨0, last⟩).isSome

/-- Whether a statement of the kind that begins on the first line ends on these lines. -/
def endsStatement (w : StatementRule) (ls : List Line) : Bool :=
  !ls.head?.any w.starts || ((ofLines ls).statementEnd 0).isSome

/-- The lines on which the statements begin that are replaced. -/
def replaced (w : StatementRule) (ls : List Line) : List Nat :=
  (w.changes ls (statementsOn w.starts ls)).map (·.1.first)

section

variable {w : StatementRule}

/-- What comes for a statement depends on its lines alone. -/
theorem replacement_congr {ls ls' : List Line} {r r' : LineRange} (hline : ls[r.first]? = ls'[r'.first]?)
    (hextent : Lines.extent ls r.first r.last = Lines.extent ls' r'.first r'.last) :
    w.replacement ls r = w.replacement ls' r' := by
  cases w with
  | interfaces =>
    unfold replacement TypeList.at?
    rw [hline, hextent]
    cases ls'[r'.first]? with
    | none => rfl
    | some line => cases ListCall.parse? "interfaces" (Lines.extent ls' r'.first r'.last) <;> rfl
  | possibleTypes =>
    simp only [replacement, TypeList.at?, hline, hextent]
    cases ls'[r'.first]? with
    | none => rfl
    | some line =>
      cases ListCall.parse? "possible_types" (Lines.extent ls' r'.first r'.last) with
      | none => rfl
      | some call =>
        simp only [Option.bind_some, Option.map_some, Option.filter_some]
        cases call.items.isEmpty <;> rfl
  | hooks =>
    unfold replacement Hook.methodAt? Hook.method
    rw [hline, hextent]

theorem replacement_add (ls : List Line) (index last : Nat) :
    w.replacement ls ⟨index, last + index⟩ = w.replacement (ls.drop index) ⟨0, last⟩ := by
  refine replacement_congr ?_ (Lines.extent_add ls index last)
  rw [List.getElem?_drop, Nat.add_zero]

theorem replacement_append {t : List Line} {last : Nat} (hlast : last < t.length) (rest : List Line) :
    w.replacement (t ++ rest) ⟨0, last⟩ = w.replacement t ⟨0, last⟩ := by
  refine replacement_congr ?_ (Lines.extent_append hlast rest)
  exact List.getElem?_append_left (Nat.zero_lt_of_lt hlast)

theorem filterMap_statementsFrom {ls : List Line} {taken index : Nat} {rest : List Line}
    (hrest : ls.drop index = rest) :
    (w.changes ls (statementsFrom w.starts (ofLines ls) taken index rest)).map (·.1.first) =
      (stops w.reach taken index rest).filter fun i => w.replacesFirst (ls.drop i) := by
  induction rest generalizing taken index with
  | nil => rfl
  | cons line rest ih =>
    have hnext := drop_succ_of_drop_eq_cons hrest
    cases taken with
    | succ taken => exact ih hnext
    | zero =>
      have hend : (ofLines ls).statementEnd index =
          ((ofLines (line :: rest)).statementEnd 0).map (· + index) := by
        rw [statementEnd_drop, ← ofLines_drop, hrest]
      rw [statementsFrom, stops]
      cases hstarts : w.starts line with
      | false =>
        have hreach : w.reach (line :: rest) = 0 := by simp [reach, hstarts]
        have hfirst : w.replacesFirst (ls.drop index) = false := by simp [replacesFirst, hrest, hstarts]
        rw [if_neg Bool.false_ne_true, hreach, List.filter_cons, hfirst, if_neg Bool.false_ne_true]
        exact ih hnext
      | true =>
        rw [if_pos rfl, hend]
        cases hlast : (ofLines (line :: rest)).statementEnd 0 with
        | none =>
          have hreach : w.reach (line :: rest) = 0 := by simp [reach, hstarts, hlast]
          have hfirst : w.replacesFirst (ls.drop index) = false := by
            simp [replacesFirst, hrest, hstarts, hlast]
          rw [hreach, List.filter_cons, hfirst, if_neg Bool.false_ne_true]
          exact ih hnext
        | some last =>
          have hreach : w.reach (line :: rest) = last := by simp [reach, hstarts, hlast]
          have hfirst : w.replacesFirst (ls.drop index) =
              (w.replacement ls ⟨index, last + index⟩).isSome := by
            rw [replacement_add]
            simp [replacesFirst, hrest, hstarts, hlast]
          simp only [Option.map_some, Nat.add_sub_cancel]
          rw [hreach, List.filter_cons, hfirst, ← ih hnext, changes, List.filterMap_cons]
          cases w.replacement ls ⟨index, last + index⟩ <;> rfl

theorem replaced_eq (w : StatementRule) (ls : List Line) : w.replaced ls =
    (stops w.reach 0 0 ls).filter fun i => w.replacesFirst (ls.drop i) :=
  filterMap_statementsFrom rfl

end

section

variable {w : StatementRule} {above stretch : List Line}

theorem reach_lt {t : List Line} (hne : t ≠ []) : w.reach t < t.length := by
  have hpos := List.length_pos_of_ne_nil hne
  unfold reach
  split
  · cases hlast : (ofLines t).statementEnd 0 with
    | none => exact hpos
    | some last =>
      have hlt := (statementEnd_bounds hlast).2
      rwa [length_ofLines] at hlt
  · exact hpos

/-- What begins on some lines and ends there is the same without what is below. -/
theorem reach_append {t : List Line} (hne : t ≠ [])
    (hend : t.head?.any w.starts = true → ((ofLines t).statementEnd 0).isSome = true) (rest : List Line) :
    w.reach (t ++ rest) = w.reach t ∧ w.replacesFirst (t ++ rest) = w.replacesFirst t := by
  unfold reach replacesFirst
  rw [List.head?_append_of_ne_nil _ hne]
  cases hstarts : t.head?.any w.starts with
  | false => exact ⟨rfl, rfl⟩
  | true =>
    obtain ⟨last, hlast⟩ := Option.isSome_iff_exists.1 (hend hstarts)
    have hlt := (statementEnd_bounds hlast).2
    rw [length_ofLines] at hlt
    rw [ofLines_append, statementEnd_append hlast, hlast, Option.any_some, Option.any_some,
      replacement_append hlt]
    exact ⟨rfl, rfl⟩

theorem reach_append_of_endsStatement {t : List Line} (hne : t ≠ []) (h : w.endsStatement t = true)
    (rest : List Line) :
    w.reach (t ++ rest) = w.reach t ∧ w.replacesFirst (t ++ rest) = w.replacesFirst t :=
  reach_append hne (fun hstarts => by simpa [endsStatement, hstarts] using h) rest

/-- What begins on closed lines is found as if it stood alone. -/
theorem reach_inside (hstretch : (ofLines stretch).Closed) (below : List Line) {t : List Line}
    (ht : t <:+ stretch) (hne : t ≠ []) :
    w.reach (t ++ below) = w.reach t ∧ w.replacesFirst (t ++ below) = w.replacesFirst t := by
  obtain ⟨front, hfront⟩ := hstretch.suffix ht
  exact reach_append hne (fun _ => hfront.statementEnd_isSome (ofLines_ne_nil.2 hne)) below

/-- Closed lines make no difference elsewhere, if the statements above them end there. -/
theorem spliced_replaced (hstretch : (ofLines stretch).Closed)
    (hends : ∀ t, t <:+ above → w.endsStatement t = true) (below : List Line) :
    Spliced above.length stretch.length (w.replaced stretch) (w.replaced (above ++ below))
      (w.replaced (above ++ (stretch ++ below))) := by
  have habove : ∀ t, t <:+ above → t ≠ [] → ∀ rest, w.reach (t ++ rest) = w.reach t ∧
      w.replacesFirst (t ++ rest) = w.replacesFirst t := fun t ht hne =>
    reach_append_of_endsStatement hne (hends t ht)
  rw [replaced_eq, replaced_eq, replaced_eq]
  have hpasses : ∀ t, t <:+ above → t ≠ [] → Passes w.reach stretch below t := fun t ht hne =>
    .inl ⟨by rw [(habove t ht hne _).1, (habove t ht hne _).1], by
      rw [(habove t ht hne _).1]
      exact reach_lt hne⟩
  have hspliced := spliced_stops hpasses fun t ht hne =>
    ⟨(reach_inside hstretch below ht hne).1, reach_lt hne⟩
  rcases hspliced with hspliced | ⟨⟨t, ht, hne, hstretch', hover⟩, -⟩
  · refine hspliced.filter (fun i hi => ?_) (fun i hi => ?_) fun i => ?_
    · have hrest := habove _ (List.drop_suffix i above) (drop_ne_nil hi)
      rw [drop_above hi.le, drop_above hi.le, (hrest _).2, (hrest _).2]
    · have hlt := (mem_stops_bounds hi).2
      rw [Nat.zero_add] at hlt
      rw [drop_inside hlt.le,
        (reach_inside hstretch below (List.drop_suffix i stretch) (drop_ne_nil hlt)).2]
    · rw [drop_below]
  · exfalso
    rw [(habove t ht hne _).1, (habove t ht hne _).1] at hover
    have hpos := List.length_pos_of_ne_nil hstretch'
    omega

end

end StatementRule

/-! ## Headers of definitions -/

namespace DefinitionHeader

/-- Whether a line is the header of a definition of a known kind. -/
def opens (line : Line) : Bool := (parse? line).any fun h => (DefinitionKind.ofLegacyName? h.kind).isSome

/-- Whether a header on a line opens a block that is closed. -/
def upgradesAt (ls : List Line) (index : Nat) : Bool :=
  (ls.drop index).head?.any opens && ((ofLines ls).matchBlock index).isSome

/-- The lines of the headers that are upgraded. -/
def upgraded (ls : List Line) : List Nat := (List.range ls.length).filter (upgradesAt ls)

section

variable {ls above stretch : List Line} {i : Nat}

theorem mem_upgraded : i ∈ upgraded ls ↔ upgradesAt ls i = true := by
  unfold upgraded
  rw [List.mem_filter, List.mem_range, and_iff_right_iff_imp]
  intro h
  by_contra hlt
  rw [upgradesAt, List.drop_of_length_le (Nat.not_lt.1 hlt)] at h
  cases h

theorem mem_upgraded_iff : i ∈ upgraded ls ↔ ∃ line h, ls[i]? = some line ∧ parse? line = some h ∧
    (DefinitionKind.ofLegacyName? h.kind).isSome = true ∧ ((ofLines ls).matchBlock i).isSome = true := by
  rw [mem_upgraded, upgradesAt, Bool.and_eq_true, List.head?_drop, Option.any_eq_true]
  constructor
  · rintro ⟨⟨line, hline, hopens⟩, hblock⟩
    obtain ⟨h, hparse, hkind⟩ := (Option.any_eq_true _ _).1 hopens
    exact ⟨line, h, hline, hparse, hkind, hblock⟩
  · rintro ⟨line, h, hline, hparse, hkind, hblock⟩
    exact ⟨⟨line, hline, (Option.any_eq_true _ _).2 ⟨h, hparse, hkind⟩⟩, hblock⟩

theorem upgradesAt_drop (ls : List Line) (i : Nat) : upgradesAt ls i = upgradesAt (ls.drop i) 0 := by
  unfold upgradesAt
  rw [matchBlock_drop, ← ofLines_drop, Option.isSome_map, List.drop_zero]

theorem upgraded_above (hstretch : (ofLines stretch).Closed) (hi : i < above.length) (below : List Line) :
    i ∈ upgraded (above ++ (stretch ++ below)) ↔ i ∈ upgraded (above ++ below) := by
  have hblocks := matchBlock_splice hstretch hi below
  have hhead : ∀ rest, ((above ++ rest).drop i).head? = (above.drop i).head? := fun rest => by
    rw [drop_above hi.le, List.head?_append_of_ne_nil _ (drop_ne_nil hi)]
  rw [mem_upgraded, mem_upgraded, upgradesAt, upgradesAt, hhead, hhead]
  generalize (ofLines (above ++ (stretch ++ below))).matchBlock i = b at hblocks
  generalize (ofLines (above ++ below)).matchBlock i = b' at hblocks
  cases hblocks <;> rfl

/-- A header that opens a block on closed lines does so there alone. -/
theorem upgradesAt_append (hstretch : (ofLines stretch).Closed) (below : List Line) {t : List Line}
    (ht : t <:+ stretch) (hne : t ≠ []) : upgradesAt (t ++ below) 0 = upgradesAt t 0 := by
  rw [upgradesAt, upgradesAt, matchBlock_inside hstretch ht (List.length_pos_of_ne_nil hne),
    List.drop_zero, List.drop_zero, List.head?_append_of_ne_nil _ hne]

theorem upgraded_inside (hstretch : (ofLines stretch).Closed) (hi : i < stretch.length) (below : List Line) :
    i + above.length ∈ upgraded (above ++ (stretch ++ below)) ↔ i ∈ upgraded stretch := by
  rw [mem_upgraded, mem_upgraded, upgradesAt_drop, upgradesAt_drop stretch, drop_inside hi.le,
    upgradesAt_append hstretch below (List.drop_suffix i stretch) (drop_ne_nil hi)]

theorem upgraded_below (above stretch below : List Line) (i : Nat) :
    i + (above.length + stretch.length) ∈ upgraded (above ++ (stretch ++ below)) ↔
      i + above.length ∈ upgraded (above ++ below) := by
  rw [mem_upgraded, mem_upgraded, upgradesAt_drop, drop_below, ← upgradesAt_drop]

end

end DefinitionHeader

/-! ## Name statements -/

namespace NameStatement

/-- Whether a line declares a name. -/
def declares (line : Line) : Bool := (parse? line).isSome

/-- Whether a line opens a class over a base class. -/
def opensClass (line : Line) : Bool :=
  (ClassHeader.parse? line).any fun header => DefinitionKind.isBaseClass header.superclass

/-- The lines of a body on which name statements begin. -/
def bodyNames (body : List Line) : List Nat :=
  (stops statementReach 0 0 body).filter fun j =>
    startsStatement (body.drop j) && (body.drop j).head?.any declares

/-- The lines of the name statements directly inside the class on a line. -/
def classNames (ls : List Line) (index : Nat) : List Nat :=
  if (ls.drop index).head?.any opensClass then
    ((ofLines ls).matchBlock index).elim [] fun b => (bodyNames (bodyOf ls b)).map (· + (index + 1))
  else []

/-- The lines of the name statements directly inside the classes of a text. -/
def names (ls : List Line) : List Nat := (List.range ls.length).flatMap (classNames ls)

section

variable {ls body : List Line} {i index : Nat}

theorem lt_of_mem_bodyNames (h : i ∈ bodyNames body) : i < body.length := by
  have hlt := (mem_stops_bounds (List.mem_of_mem_filter h)).2
  rwa [Nat.zero_add] at hlt

theorem mem_classNames : i ∈ classNames ls index ↔ (ls.drop index).head?.any opensClass = true ∧
    ∃ b ∈ (ofLines ls).matchBlock index, ∃ j ∈ bodyNames (bodyOf ls b), j + (index + 1) = i := by
  unfold classNames
  cases (ls.drop index).head?.any opensClass with
  | false => simp
  | true => cases (ofLines ls).matchBlock index <;> simp

theorem bounds_of_mem_classNames (h : i ∈ classNames ls index) : index < i ∧ i < ls.length := by
  obtain ⟨-, b, hb, j, hj, rfl⟩ := mem_classNames.1 h
  obtain ⟨hstart, -, hstop⟩ := matchBlock_bounds hb
  rw [length_ofLines] at hstop
  have hlt := lt_of_mem_bodyNames hj
  rw [bodyOf, List.length_take, List.length_drop] at hlt
  omega

theorem mem_names : i ∈ names ls ↔ ∃ index, i ∈ classNames ls index := by
  unfold names
  rw [List.mem_flatMap]
  constructor
  · rintro ⟨index, -, h⟩
    exact ⟨index, h⟩
  · rintro ⟨index, h⟩
    have hbounds := bounds_of_mem_classNames h
    exact ⟨index, List.mem_range.2 (by omega), h⟩

theorem classNames_drop (ls : List Line) (index : Nat) :
    classNames ls index = (classNames (ls.drop index) 0).map (· + index) := by
  unfold classNames
  rw [matchBlock_drop, ← ofLines_drop, List.drop_zero]
  split
  · cases (ofLines (ls.drop index)).matchBlock 0 with
    | none => rfl
    | some b =>
      rw [Option.map_some, Option.elim_some, Option.elim_some, bodyOf_drop, List.map_map]
      refine List.map_congr_left fun j _ => ?_
      show j + (index + 1) = j + (0 + 1) + index
      omega
  · rfl

end

section

variable {above stretch : List Line}

theorem spliced_bodyNames (habove : (ofLines above).Finished) (hstretch : (ofLines stretch).Closed)
    (below : List Line) : ∃ inside, (∀ j ∈ inside, j ∈ bodyNames stretch) ∧
      Spliced above.length stretch.length inside (bodyNames (above ++ below))
        (bodyNames (above ++ (stretch ++ below))) := by
  obtain ⟨places, hplaces, hspliced⟩ := exists_spliced_statements habove hstretch below
  let found (ls : List Line) : Bool := startsStatement ls && ls.head?.any declares
  have hfound : ∀ {t : List Line} (rest : List Line), t ≠ [] → found (t ++ rest) = found t := by
    intro t rest hne
    simp only [found, startsStatement, head?_ofLines_append hne, List.head?_append_of_ne_nil _ hne]
  refine ⟨places.filter fun j => found (stretch.drop j), ?_,
    hspliced.filter (fun i hi => ?_) (fun i hi => ?_) fun i => ?_⟩
  · intro j hj
    obtain ⟨hmem, hdeclares⟩ := List.mem_filter.1 hj
    exact List.mem_filter.2 ⟨hplaces j hmem, hdeclares⟩
  · rw [drop_above hi.le, drop_above hi.le]
    exact (hfound _ (drop_ne_nil hi)).trans (hfound _ (drop_ne_nil hi)).symm
  · have hlt := (mem_stops_bounds (hplaces i hi)).2
    rw [Nat.zero_add] at hlt
    rw [drop_inside hlt.le]
    exact hfound _ (drop_ne_nil hlt)
  · rw [drop_below]

/-- The names in a class that opens above closed lines. -/
theorem spliced_classNames (habove : (ofLines above).Finished) (hstretch : (ofLines stretch).Closed)
    (below : List Line) {index : Nat} (hindex : index < above.length) :
    ∃ inside, (∀ j ∈ inside, j ∈ bodyNames stretch) ∧
      Spliced above.length stretch.length inside (classNames (above ++ below) index)
        (classNames (above ++ (stretch ++ below)) index) := by
  have hhead : ∀ rest, ((above ++ rest).drop index).head? = (above.drop index).head? := fun rest => by
    rw [drop_above hindex.le, List.head?_append_of_ne_nil _ (drop_ne_nil hindex)]
  have hblocks := matchBlock_splice hstretch hindex below
  unfold classNames
  rw [hhead, hhead]
  split
  · generalize (ofLines (above ++ (stretch ++ below))).matchBlock index = b at hblocks
    generalize (ofLines (above ++ below)).matchBlock index = b' at hblocks
    cases hblocks with
    | none => exact ⟨[], by rintro j ⟨⟩, .of_lt (by rintro i ⟨⟩)⟩
    | some hbody =>
      rcases hbody with ⟨rfl, hstart, hstop⟩ | ⟨part, hwhole, hframe⟩
      · -- the class is closed above
        rename_i b
        rw [Option.elim_some, Option.elim_some, bodyOf_append hstop.le, bodyOf_append hstop.le]
        refine ⟨[], by rintro j ⟨⟩, .of_lt fun i hi => ?_⟩
        obtain ⟨j, hj, rfl⟩ := List.mem_map.1 hi
        have hlt := lt_of_mem_bodyNames hj
        rw [bodyOf, List.length_take] at hlt
        omega
      · -- the lines stand in the class
        rw [Option.elim_some, Option.elim_some, hwhole, hframe]
        have hsuffix := List.drop_suffix (index + 1) above
        obtain ⟨inside, hinside, hspliced⟩ :=
          spliced_bodyNames (finished_suffix habove hsuffix) hstretch part
        have hshift := hspliced.map_add (index + 1)
        rw [List.length_drop, Nat.sub_add_cancel hindex] at hshift
        exact ⟨inside, hinside, hshift⟩
  · exact ⟨[], by rintro j ⟨⟩, .of_lt (by rintro i ⟨⟩)⟩

/-- A class that opens on closed lines has the names that it has there alone. -/
theorem classNames_append (hstretch : (ofLines stretch).Closed) (below : List Line) {t : List Line}
    (ht : t <:+ stretch) (hne : t ≠ []) : classNames (t ++ below) 0 = classNames t 0 := by
  unfold classNames
  rw [matchBlock_inside hstretch ht (List.length_pos_of_ne_nil hne), List.drop_zero, List.drop_zero,
    List.head?_append_of_ne_nil _ hne]
  cases hb : (ofLines t).matchBlock 0 with
  | none => rfl
  | some b =>
    have hstop := (matchBlock_bounds hb).2.2
    rw [length_ofLines] at hstop
    rw [Option.elim_some, Option.elim_some, bodyOf_append hstop.le]

theorem classNames_inside (hstretch : (ofLines stretch).Closed) (below : List Line) {index : Nat}
    (hindex : index < stretch.length) : classNames (above ++ (stretch ++ below)) (index + above.length) =
      (classNames stretch index).map (· + above.length) := by
  have hfirst := classNames_append hstretch below (List.drop_suffix index stretch) (drop_ne_nil hindex)
  rw [classNames_drop, drop_inside hindex.le, hfirst, classNames_drop stretch, List.map_map]
  exact List.map_congr_left fun j _ => (Nat.add_assoc j index above.length).symm

theorem classNames_below (above stretch below : List Line) (index : Nat) :
    classNames (above ++ (stretch ++ below)) (index + (above.length + stretch.length)) =
      (classNames (above ++ below) (index + above.length)).map (· + stretch.length) := by
  rw [classNames_drop, drop_below, classNames_drop (above ++ below), List.map_map]
  refine List.map_congr_left fun j _ => ?_
  show j + (index + (above.length + stretch.length)) = j + (index + above.length) + stretch.length
  omega

theorem names_above (habove : (ofLines above).Finished) (hstretch : (ofLines stretch).Closed) {i : Nat}
    (hi : i < above.length) (below : List Line) :
    i ∈ names (above ++ (stretch ++ below)) ↔ i ∈ names (above ++ below) := by
  rw [mem_names, mem_names]
  refine exists_congr fun index => ?_
  by_cases hindex : index < above.length
  · obtain ⟨inside, -, hspliced⟩ := spliced_classNames habove hstretch below hindex
    exact hspliced.mem_above hi
  · constructor <;> (intro h; have := (bounds_of_mem_classNames h).1; omega)

theorem names_below (habove : (ofLines above).Finished) (hstretch : (ofLines stretch).Closed)
    (below : List Line) (i : Nat) :
    i + (above.length + stretch.length) ∈ names (above ++ (stretch ++ below)) ↔
      i + above.length ∈ names (above ++ below) := by
  rw [mem_names, mem_names]
  have hinside_lt : ∀ {index j}, j ∈ classNames stretch index → j < stretch.length :=
    fun hj => (bounds_of_mem_classNames hj).2
  constructor
  · rintro ⟨index, h⟩
    by_cases hindex : index < above.length
    · obtain ⟨inside, hinside, hspliced⟩ := spliced_classNames habove hstretch below hindex
      exact ⟨index, (hspliced.mem_below fun j hj => lt_of_mem_bodyNames (hinside j hj)).1 h⟩
    obtain ⟨place, rfl⟩ := Nat.exists_eq_add_of_le' (Nat.le_of_not_lt hindex)
    by_cases hplace : place < stretch.length
    · -- a class that opens on the stretch is closed there
      rw [classNames_inside hstretch below hplace] at h
      obtain ⟨j, hj, heq⟩ := List.mem_map.1 h
      have := hinside_lt hj
      omega
    · obtain ⟨place, rfl⟩ := Nat.exists_eq_add_of_le' (Nat.le_of_not_lt hplace)
      rw [Nat.add_assoc, Nat.add_comm stretch.length, classNames_below] at h
      obtain ⟨j, hj, heq⟩ := List.mem_map.1 h
      refine ⟨place + above.length, ?_⟩
      rwa [show i + above.length = j by omega]
  · rintro ⟨index, h⟩
    by_cases hindex : index < above.length
    · obtain ⟨inside, hinside, hspliced⟩ := spliced_classNames habove hstretch below hindex
      exact ⟨index, (hspliced.mem_below fun j hj => lt_of_mem_bodyNames (hinside j hj)).2 h⟩
    · obtain ⟨place, rfl⟩ := Nat.exists_eq_add_of_le' (Nat.le_of_not_lt hindex)
      refine ⟨place + (above.length + stretch.length), ?_⟩
      rw [classNames_below]
      exact List.mem_map.2 ⟨i + above.length, h, Nat.add_assoc i _ _⟩

theorem names_inside (habove : (ofLines above).Finished) (hstretch : (ofLines stretch).Closed)
    (hinert : bodyNames stretch = []) {i : Nat} (hi : i < stretch.length) (below : List Line) :
    i + above.length ∈ names (above ++ (stretch ++ below)) ↔ i ∈ names stretch := by
  rw [mem_names, mem_names]
  constructor
  · rintro ⟨index, h⟩
    by_cases hindex : index < above.length
    · -- no name statement of the stretch stands directly in a class around it
      obtain ⟨inside, hinside, hspliced⟩ := spliced_classNames habove hstretch below hindex
      have hmem := hinside i ((hspliced.mem_inside hi).1 h)
      rw [hinert] at hmem
      cases hmem
    · obtain ⟨place, rfl⟩ := Nat.exists_eq_add_of_le' (Nat.le_of_not_lt hindex)
      have hplace := (bounds_of_mem_classNames h).1
      rw [classNames_inside hstretch below (by omega)] at h
      obtain ⟨j, hj, heq⟩ := List.mem_map.1 h
      obtain rfl : j = i := by omega
      exact ⟨place, hj⟩
  · rintro ⟨index, h⟩
    have hbounds := bounds_of_mem_classNames h
    refine ⟨index + above.length, ?_⟩
    rw [classNames_inside hstretch below (by omega)]
    exact List.mem_map.2 ⟨i, h, rfl⟩

end

end NameStatement

end SchemaLift
