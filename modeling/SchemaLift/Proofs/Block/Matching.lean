import SchemaLift.Proofs.Block.Enclosing

/-!
# Blocks as balanced stretches of events

A block runs through the shortest stretch of events, from its opener on, that opens as many blocks as
it closes (`matchBlock_eq_some_iff`). Blocks nest: what opens inside a block is closed inside it
(`matchBlock_nested`).
-/

namespace SchemaLift.Outline

/-! ## Events with their lines -/

/-- The events of lines in order, each with its line; the first of the lines is line `index`. -/
def located (index : Nat) (lines : List (List BlockEvent)) : List (BlockEvent × Nat) :=
  (lines.zipIdx index).flatMap fun line => line.1.map (·, line.2)

@[simp] theorem located_nil (index : Nat) : located index [] = [] := rfl

@[simp] theorem located_cons (index : Nat) (events : List BlockEvent)
    (rest : List (List BlockEvent)) :
    located index (events :: rest) = events.map (·, index) ++ located (index + 1) rest := by
  simp [located]

/-- The block events from line `start` on, each with its line. -/
def eventsFrom (o : Outline) (start : Nat) : List (BlockEvent × Nat) :=
  located start ((o.drop start).map LineShape.events)

/-- The first event on line `start` opens a block. -/
def OpensFirst (o : Outline) (start : Nat) : Prop :=
  ∃ shape, o[start]? = some shape ∧ shape.events.head? = some .opens

/-- What events with their lines add to the depth. -/
def sum (events : List (BlockEvent × Nat)) : Int := BlockEvent.total (events.map Prod.fst)

@[simp] theorem sum_nil : sum [] = 0 := rfl

@[simp] theorem sum_cons (e : BlockEvent × Nat) (events : List (BlockEvent × Nat)) :
    sum (e :: events) = e.1.delta + sum events := rfl

/-- A stretch at the head of `events`, not empty, that adds `total` to the depth. -/
structure Reaches (total : Int) (events stretch : List (BlockEvent × Nat)) : Prop where
  initial : stretch <+: events
  ne_nil : stretch ≠ []
  sum_eq : sum stretch = total

/-- The shortest such stretch. -/
def ReachesFirst (total : Int) (events stretch : List (BlockEvent × Nat)) : Prop :=
  Reaches total events stretch ∧ ∀ other, Reaches total events other → stretch.length ≤ other.length

theorem reaches_cons {total : Int} {e : BlockEvent × Nat} {events stretch : List (BlockEvent × Nat)} :
    Reaches total (e :: events) stretch ↔
      ∃ s, stretch = e :: s ∧ s <+: events ∧ sum s = total - e.1.delta := by
  constructor
  · rintro ⟨hinitial, hne, hsum⟩
    rcases List.prefix_cons_iff.1 hinitial with rfl | ⟨s, rfl, hs⟩
    · exact absurd rfl hne
    · rw [sum_cons] at hsum
      exact ⟨s, rfl, hs, by omega⟩
  · rintro ⟨s, rfl, hs, hsum⟩
    refine ⟨by simpa using hs, List.cons_ne_nil e s, ?_⟩
    rw [sum_cons, hsum]
    omega

/-- An event that does not add all comes before the stretch that adds the rest. -/
theorem ReachesFirst.cons {total : Int} {e : BlockEvent × Nat} {events s : List (BlockEvent × Nat)}
    (hne : total ≠ e.1.delta) (h : ReachesFirst (total - e.1.delta) events s) :
    ReachesFirst total (e :: events) (e :: s) := by
  obtain ⟨⟨hinitial, -, hsum⟩, hleast⟩ := h
  refine ⟨reaches_cons.2 ⟨s, rfl, hinitial, hsum⟩, fun other hother => ?_⟩
  obtain ⟨t, rfl, ht, htotal⟩ := reaches_cons.1 hother
  have hnil : t ≠ [] := by
    rintro rfl
    rw [sum_nil] at htotal
    omega
  simpa using hleast t ⟨ht, hnil, htotal⟩

theorem ReachesFirst.unique {total : Int} {events s t : List (BlockEvent × Nat)}
    (hs : ReachesFirst total events s) (ht : ReachesFirst total events t) : s = t := by
  have hle := hs.2 t ht.1
  exact (List.prefix_of_prefix_length_le hs.1.initial ht.1.initial hle).eq_of_length_le (ht.2 s hs.1)

/-! ## The event that closes a block -/

/-- The line of the first event that brings the depth to zero. -/
def closingEvent (depth : Nat) : List (BlockEvent × Nat) → Option Nat
  | [] => none
  | (.opens, _) :: rest => closingEvent (depth + 1) rest
  | (.closes, line) :: rest => if depth ≤ 1 then some line else closingEvent (depth - 1) rest

theorem closingEvent_line (depth index : Nat) (events : List BlockEvent)
    (rest : List (BlockEvent × Nat)) :
    closingEvent depth (events.map (·, index) ++ rest) =
      match depthAfter depth events with
      | none => some index
      | some depth => closingEvent depth rest := by
  induction events generalizing depth with
  | nil => rfl
  | cons e es ih =>
    cases e with
    | opens => exact ih (depth + 1)
    | closes =>
      simp only [List.map_cons, List.cons_append, closingEvent, depthAfter]
      split
      · rfl
      · exact ih (depth - 1)

theorem closingLine_eq (depth index : Nat) (lines : List (List BlockEvent)) :
    closingLine depth index lines = closingEvent depth (located index lines) := by
  induction lines generalizing depth index with
  | nil => rfl
  | cons events rest ih =>
    rw [closingLine, located_cons, closingEvent_line]
    cases depthAfter depth events with
    | none => rfl
    | some depth => exact ih depth (index + 1)

/-- The event found ends the shortest stretch that closes all that is open. -/
theorem reachesFirst_of_closingEvent {depth line : Nat} (hdepth : 0 < depth)
    {events : List (BlockEvent × Nat)} (h : closingEvent depth events = some line) :
    ∃ s last, ReachesFirst (-depth) events (s ++ [last]) ∧ last.2 = line := by
  induction events generalizing depth with
  | nil => cases h
  | cons e events ih =>
    obtain ⟨event, index⟩ := e
    cases event with
    | opens =>
      obtain ⟨s, last, hfirst, hline⟩ := ih (Nat.succ_pos depth) h
      refine ⟨(.opens, index) :: s, last, .cons ?_ ?_, hline⟩
      · simp only [BlockEvent.delta]
        omega
      · have hrest : -(depth : Int) - BlockEvent.opens.delta = -((depth + 1 : Nat) : Int) := by
          simp only [BlockEvent.delta]
          omega
        rwa [hrest]
    | closes =>
      rw [closingEvent] at h
      by_cases hlast : depth ≤ 1
      · rw [if_pos hlast] at h
        obtain rfl := Option.some.inj h
        obtain rfl : depth = 1 := by omega
        refine ⟨[], (.closes, index), ⟨reaches_cons.2 ⟨[], rfl, by simp, by simp [BlockEvent.delta]⟩,
          fun other hother => ?_⟩, rfl⟩
        exact List.length_pos_iff.2 hother.ne_nil
      · rw [if_neg hlast] at h
        obtain ⟨s, last, hfirst, hline⟩ := ih (by omega) h
        refine ⟨(.closes, index) :: s, last, .cons ?_ ?_, hline⟩
        · simp only [BlockEvent.delta]
          omega
        · have hrest : -(depth : Int) - BlockEvent.closes.delta = -((depth - 1 : Nat) : Int) := by
            simp only [BlockEvent.delta]
            omega
          rwa [hrest]

/-- A stretch that closes all that is open brings the depth to zero. -/
theorem closingEvent_isSome {depth : Nat} (hdepth : 0 < depth) {events s : List (BlockEvent × Nat)}
    (h : Reaches (-depth) events s) : (closingEvent depth events).isSome := by
  induction events generalizing depth s with
  | nil => exact absurd (List.prefix_nil.1 h.initial) h.ne_nil
  | cons e events ih =>
    obtain ⟨event, index⟩ := e
    obtain ⟨t, rfl, ht, hsum⟩ := reaches_cons.1 h
    cases event with
    | opens =>
      simp only [BlockEvent.delta] at hsum
      refine ih (Nat.succ_pos depth) (s := t) ⟨ht, ?_, by omega⟩
      rintro rfl
      rw [sum_nil] at hsum
      omega
    | closes =>
      simp only [BlockEvent.delta] at hsum
      rw [closingEvent]
      by_cases hlast : depth ≤ 1
      · rw [if_pos hlast]
        rfl
      · rw [if_neg hlast]
        refine ih (by omega) (s := t) ⟨ht, ?_, by omega⟩
        rintro rfl
        rw [sum_nil] at hsum
        omega

/-! ## Blocks -/

theorem OpensFirst.lt_length {o : Outline} {start : Nat} (h : o.OpensFirst start) :
    start < o.length := by
  obtain ⟨shape, hshape, -⟩ := h
  exact (List.getElem?_eq_some_iff.1 hshape).1

theorem drop_of_opensFirst {o : Outline} {start : Nat} (h : o.OpensFirst start) : ∃ es rest,
    (o.drop start).map LineShape.events = (.opens :: es) :: rest := by
  obtain ⟨shape, hshape, hopens⟩ := h
  obtain ⟨es, hes⟩ := List.head?_eq_some_iff.1 hopens
  obtain ⟨hlt, rfl⟩ := List.getElem?_eq_some_iff.1 hshape
  refine ⟨es, (o.drop (start + 1)).map LineShape.events, ?_⟩
  rw [List.drop_eq_getElem_cons hlt, List.map_cons, hes]

theorem opensFirst_of_matchBlock {o : Outline} {start : Nat} {b : Block}
    (h : o.matchBlock start = some b) : o.OpensFirst start := by
  unfold matchBlock at h
  split at h
  · rename_i es rest hdrop
    obtain ⟨shape, shapes, hshapes, hes, -⟩ := List.map_eq_cons_iff.1 hdrop
    exact ⟨shape, getElem?_of_drop_eq_cons hshapes, by rw [hes]; rfl⟩
  · cases h

/-- Read with nothing open above it, the opener opens the block itself. -/
theorem matchBlock_eq {o : Outline} {start : Nat} (h : o.OpensFirst start) :
    o.matchBlock start =
      (closingLine 0 start ((o.drop start).map LineShape.events)).map fun stop => ⟨start, stop⟩ := by
  obtain ⟨es, rest, hdrop⟩ := drop_of_opensFirst h
  rw [matchBlock, hdrop]
  rfl

theorem matchBlock_of_opensFirst {o : Outline} {start : Nat} (h : o.OpensFirst start) : ∃ events,
    o.eventsFrom start = (.opens, start) :: events ∧
      o.matchBlock start = (closingEvent 1 events).map fun stop => ⟨start, stop⟩ := by
  obtain ⟨es, rest, hdrop⟩ := drop_of_opensFirst h
  refine ⟨located start (es :: rest), ?_, ?_⟩
  · rw [eventsFrom, hdrop, located_cons, located_cons]
    rfl
  · rw [matchBlock_eq h, hdrop, ← closingLine_eq]
    rfl

theorem closingEvent_of_reaches {start : Nat} {events stretch : List (BlockEvent × Nat)}
    (h : Reaches 0 ((.opens, start) :: events) stretch) : (closingEvent 1 events).isSome := by
  obtain ⟨s, -, hs, hsum⟩ := reaches_cons.1 h
  refine closingEvent_isSome Nat.one_pos (s := s) ⟨hs, ?_, hsum⟩
  rintro rfl
  cases hsum

theorem matchBlock_eq_some_iff {o : Outline} {start : Nat} {b : Block} :
    o.matchBlock start = some b ↔ o.OpensFirst start ∧ b.start = start ∧
      ∃ s last, ReachesFirst 0 (o.eventsFrom start) (s ++ [last]) ∧ last.2 = b.stop := by
  have hfirst : ∀ {events line}, closingEvent 1 events = some line →
      ∃ s last, ReachesFirst 0 ((.opens, start) :: events) (s ++ [last]) ∧ last.2 = line := by
    intro events line h
    obtain ⟨s, last, hs, hline⟩ := reachesFirst_of_closingEvent Nat.one_pos h
    exact ⟨(.opens, start) :: s, last, .cons (by simp [BlockEvent.delta]) hs, hline⟩
  constructor
  · intro h
    have hopens := opensFirst_of_matchBlock h
    obtain ⟨events, hevents, hmatch⟩ := matchBlock_of_opensFirst hopens
    rw [hmatch] at h
    obtain ⟨stop, hstop, rfl⟩ := Option.map_eq_some_iff.1 h
    rw [hevents]
    exact ⟨hopens, rfl, hfirst hstop⟩
  · rintro ⟨hopens, hstart, s, last, hs, hline⟩
    obtain ⟨events, hevents, hmatch⟩ := matchBlock_of_opensFirst hopens
    rw [hevents] at hs
    obtain ⟨stop, hstop⟩ := Option.isSome_iff_exists.1 (closingEvent_of_reaches hs.1)
    obtain ⟨s', last', hs', hline'⟩ := hfirst hstop
    obtain ⟨-, hlast⟩ := List.append_inj' (hs.unique hs') rfl
    obtain rfl := List.singleton_inj.1 hlast
    rw [hmatch, hstop, Option.map_some, ← hline', hline, ← hstart]

/-! ## Nesting -/

theorem depthAfter_mono {low high depth : Nat} (hle : low ≤ high) {events : List BlockEvent}
    (h : depthAfter low events = some depth) :
    ∃ depth', depth ≤ depth' ∧ depthAfter high events = some depth' := by
  induction events generalizing low high with
  | nil =>
    obtain rfl := Option.some.inj h
    exact ⟨high, hle, rfl⟩
  | cons e es ih =>
    cases e with
    | opens => exact ih (Nat.succ_le_succ hle) h
    | closes =>
      rw [depthAfter] at h
      by_cases hlow : low ≤ 1
      · rw [if_pos hlow] at h
        cases h
      · rw [if_neg hlow] at h
        rw [depthAfter, if_neg (by omega)]
        exact ih (Nat.sub_le_sub_right hle 1) h

/-- With less open, the end comes no later. -/
theorem closingLine_mono {low high index last : Nat} (hle : low ≤ high)
    {lines : List (List BlockEvent)} (h : closingLine high index lines = some last) :
    ∃ last', last' ≤ last ∧ closingLine low index lines = some last' := by
  induction lines generalizing low high index with
  | nil => cases h
  | cons events rest ih =>
    have hbounds := closingLine_bounds h
    rw [closingLine] at h ⊢
    cases hlow : depthAfter low events with
    | none => exact ⟨index, hbounds.1, rfl⟩
    | some depth =>
      obtain ⟨depth', hdepth, hhigh⟩ := depthAfter_mono hle hlow
      rw [hhigh] at h
      exact ih hdepth h

/-- The events of lines from `i` on are those above line `j` and those from there on. -/
theorem exists_above {o : Outline} {i j : Nat} (hij : i ≤ j) (hj : j ≤ o.length) :
    ∃ above, i + above.length = j ∧
      (o.drop i).map LineShape.events = above ++ (o.drop j).map LineShape.events := by
  refine ⟨((o.drop i).take (j - i)).map LineShape.events, ?_, ?_⟩
  · simp only [List.length_map, List.length_take, List.length_drop]
    omega
  · have hdrop : o.drop j = (o.drop i).drop (j - i) := by
      rw [List.drop_drop, Nat.add_sub_cancel' hij]
    rw [hdrop, ← List.map_append, List.take_append_drop]

theorem matchBlock_nested {o : Outline} {i j : Nat} {b : Block} (h : o.matchBlock i = some b)
    (hij : i < j) (hj : j ≤ b.stop) (hopens : o.OpensFirst j) :
    ∃ b', o.matchBlock j = some b' ∧ b'.stop ≤ b.stop := by
  rw [matchBlock_eq (opensFirst_of_matchBlock h)] at h
  obtain ⟨stop, hstop, rfl⟩ := Option.map_eq_some_iff.1 h
  obtain ⟨above, hlength, hsplit⟩ := exists_above hij.le hopens.lt_length.le
  rw [hsplit] at hstop
  cases habove : closingLine 0 i above with
  | some last =>
    -- the outer block would end above line `j`
    have hbounds := closingLine_bounds habove
    rw [closingLine_append_of_closed habove] at hstop
    obtain rfl := Option.some.inj hstop
    simp only at hj
    omega
  | none =>
    obtain ⟨d, hd⟩ := closingLine_eq_none_iff.1 habove
    rw [closingLine_append_of_open hd, hlength] at hstop
    obtain ⟨stop', hle, hstop'⟩ := closingLine_mono (Nat.zero_le d) hstop
    refine ⟨⟨j, stop'⟩, ?_, hle⟩
    rw [matchBlock_eq hopens, hstop', Option.map_some]

/-- A block is found exactly where the first event of a line opens one and some stretch of events from
there on opens as many as it closes; it ends with the shortest such stretch; and what opens first on
one of its further lines is closed inside it. -/
theorem matchBlock_balanced (o : Outline) :
    (∀ start, (o.matchBlock start).isSome ↔
      o.OpensFirst start ∧ ∃ stretch, Reaches 0 (o.eventsFrom start) stretch) ∧
    (∀ start b, o.matchBlock start = some b ↔ o.OpensFirst start ∧ b.start = start ∧
      ∃ s last, ReachesFirst 0 (o.eventsFrom start) (s ++ [last]) ∧ last.2 = b.stop) ∧
    ∀ i j b, o.matchBlock i = some b → i < j → j ≤ b.stop → o.OpensFirst j →
      ∃ b', o.matchBlock j = some b' ∧ b'.stop ≤ b.stop := by
  refine ⟨fun start => ⟨fun h => ?_, ?_⟩, fun start b => matchBlock_eq_some_iff,
    fun i j b h hij hj hopens => matchBlock_nested h hij hj hopens⟩
  · obtain ⟨b, hb⟩ := Option.isSome_iff_exists.1 h
    obtain ⟨hopens, -, s, last, hfirst, -⟩ := matchBlock_eq_some_iff.1 hb
    exact ⟨hopens, s ++ [last], hfirst.1⟩
  · rintro ⟨hopens, stretch, hstretch⟩
    obtain ⟨events, hevents, hmatch⟩ := matchBlock_of_opensFirst hopens
    rw [hevents] at hstretch
    rw [hmatch, Option.isSome_map]
    exact closingEvent_of_reaches hstretch

/-- Inside the condition, line 1 opens a block, closes it and opens another one. -/
theorem matchBlock_balanced_oneLine :
    let o := ofLines ["if a".toList, "begin; end; b do".toList, "end; end".toList]
    o.matchBlock 0 = some ⟨0, 2⟩ ∧ o.OpensFirst 1 ∧
      ∃ b', o.matchBlock 1 = some b' ∧ b'.stop ≤ 2 := by
  intro o
  have hblock : o.matchBlock 0 = some ⟨0, 2⟩ := by decide
  have hopens : o.OpensFirst 1 := ⟨LineShape.ofLine "begin; end; b do".toList, rfl, by decide⟩
  exact ⟨hblock, hopens,
    (matchBlock_balanced o).2.2 0 1 ⟨0, 2⟩ hblock Nat.one_pos (by decide) hopens⟩

end SchemaLift.Outline
