import Mathlib.Data.List.Basic
import Mathlib.Data.List.Infix

/-!
# Walks from top to bottom

The scans of a text have one shape: they look at a line and those below it, take some of these lines, and
look again at the first line that is left. `stops` are the places where they look. A stretch of lines that
every walk passes over, or goes through as if it stood alone, makes no difference elsewhere
(`spliced_stops`).
-/

namespace SchemaLift.Walk

variable {α : Type}

/-- The places where a walk looks, when the next `taken` entries are taken already. `reach` says how many
entries it takes behind the first one of what it looks at. -/
def stops (reach : List α → Nat) (taken index : Nat) : List α → List Nat
  | [] => []
  | a :: rest =>
    match taken with
    | taken + 1 => stops reach taken (index + 1) rest
    | 0 => index :: stops reach (reach (a :: rest)) (index + 1) rest

section

variable {reach : List α → Nat}

theorem stops_add (taken index k : Nat) (as : List α) :
    stops reach taken (index + k) as = (stops reach taken index as).map (· + k) := by
  induction as generalizing taken index with
  | nil => rfl
  | cons a rest ih =>
    cases taken with
    | succ taken =>
      rw [stops, stops, ← ih, Nat.add_right_comm]
    | zero =>
      rw [stops, stops, List.map_cons, ← ih, Nat.add_right_comm]

theorem stops_eq_range' (h : ∀ t, reach t = 0) (index : Nat) (as : List α) :
    stops reach 0 index as = List.range' index as.length := by
  induction as generalizing index with
  | nil => rfl
  | cons a rest ih => rw [stops, h, ih, List.length_cons, List.range'_succ]

theorem mem_stops_bounds {taken index i : Nat} {as : List α} (h : i ∈ stops reach taken index as) :
    index + taken ≤ i ∧ i < index + as.length := by
  induction as generalizing taken index with
  | nil => cases h
  | cons a rest ih =>
    rw [List.length_cons]
    cases taken with
    | succ taken =>
      have := ih h
      omega
    | zero =>
      rcases List.mem_cons.1 h with rfl | h
      · omega
      · have := ih h
        omega

/-- Taken entries are passed over. -/
theorem stops_passed (taken index : Nat) (front back : List α) :
    stops reach (taken + front.length) index (front ++ back) =
      stops reach taken (index + front.length) back := by
  induction front generalizing index with
  | nil => rfl
  | cons a rest ih =>
    rw [List.length_cons, List.cons_append, ← Nat.add_assoc, stops, ih, Nat.add_assoc, Nat.add_comm 1]

/-- Entries of which none takes an entry behind them are walked through alone. -/
theorem stops_append {front back : List α}
    (h : ∀ t, t <:+ front → t ≠ [] → reach (t ++ back) = reach t ∧ reach t < t.length) {taken : Nat}
    (htaken : taken ≤ front.length) (index : Nat) :
    stops reach taken index (front ++ back) =
      stops reach taken index front ++ stops reach 0 (index + front.length) back := by
  induction front generalizing taken index with
  | nil =>
    obtain rfl := Nat.le_zero.1 htaken
    rfl
  | cons a rest ih =>
    have hrest : ∀ t, t <:+ rest → t ≠ [] → reach (t ++ back) = reach t ∧ reach t < t.length :=
      fun t ht => h t (ht.trans (List.suffix_cons a rest))
    have hlength : index + (a :: rest).length = index + 1 + rest.length := by
      rw [List.length_cons, Nat.add_assoc, Nat.add_comm 1]
    rw [hlength]
    cases taken with
    | succ taken =>
      rw [List.cons_append, stops, stops, ih hrest (Nat.le_of_succ_le_succ htaken)]
    | zero =>
      obtain ⟨hsame, hlt⟩ := h (a :: rest) List.suffix_rfl (List.cons_ne_nil a rest)
      rw [List.cons_append, stops, stops, ← List.cons_append, hsame,
        ih hrest (Nat.le_of_lt_succ hlt), List.cons_append]

/-- A walk that takes no entry behind a place from above that place stops where it stops from there on. -/
theorem mem_stops_below {above rest : List α}
    (h : ∀ t, t <:+ above → t ≠ [] → reach (t ++ rest) < t.length) {taken : Nat}
    (htaken : taken ≤ above.length) {index i : Nat}
    (hi : i ∈ stops reach 0 (index + above.length) rest) : i ∈ stops reach taken index (above ++ rest) := by
  induction above generalizing taken index with
  | nil =>
    obtain rfl := Nat.le_zero.1 htaken
    exact hi
  | cons a above ih =>
    have habove : ∀ t, t <:+ above → t ≠ [] → reach (t ++ rest) < t.length :=
      fun t ht => h t (ht.trans (List.suffix_cons a above))
    rw [List.length_cons, Nat.add_comm above.length, ← Nat.add_assoc] at hi
    cases taken with
    | succ taken => exact ih habove (Nat.le_of_succ_le_succ htaken) hi
    | zero =>
      have hlt := h (a :: above) List.suffix_rfl (List.cons_ne_nil a above)
      exact List.mem_cons_of_mem index (ih habove (Nat.le_of_lt_succ hlt) hi)

/-- What a walk takes from entries `t` on is the same with a stretch below them and without it, or it goes
over the whole stretch. -/
def Passes (reach : List α → Nat) (stretch below t : List α) : Prop :=
  (reach (t ++ (stretch ++ below)) = reach (t ++ below) ∧ reach (t ++ below) < t.length) ∨
    (reach (t ++ (stretch ++ below)) = reach (t ++ below) + stretch.length ∧
      t.length ≤ reach (t ++ below) + 1)

/-- Places on entries of which `k` stand above a stretch of `n` entries: `frame` are those if the stretch is
not there, `inside` those on the stretch alone, and `whole` all of them. -/
def Spliced (k n : Nat) (inside frame whole : List Nat) : Prop :=
  ∃ before after : List Nat, (∀ i ∈ before, i < k) ∧ frame = before ++ after.map (· + k) ∧
    whole = before ++ (inside.map (· + k) ++ after.map (· + (k + n)))

theorem Spliced.cons {k n index : Nat} {inside frame whole : List Nat} (hindex : index < k)
    (h : Spliced k n inside frame whole) : Spliced k n inside (index :: frame) (index :: whole) := by
  obtain ⟨before, after, hbefore, rfl, rfl⟩ := h
  refine ⟨index :: before, after, ?_, rfl, rfl⟩
  intro i hi
  rcases List.mem_cons.1 hi with rfl | hi
  · exact hindex
  · exact hbefore i hi

/-- A walk over no entry above the stretch. -/
theorem Spliced.nil {k n : Nat} (inside after : List Nat) :
    Spliced k n inside (after.map (· + k)) (inside.map (· + k) ++ after.map (· + (k + n))) :=
  ⟨[], after, by rintro i ⟨⟩, rfl, rfl⟩

/-- From some entry above a walk goes on to the stretch, and over it. -/
def GoesOver (reach : List α → Nat) (above stretch below : List α) : Prop :=
  ∃ t, t <:+ above ∧ t ≠ [] ∧ stretch ≠ [] ∧
    reach (t ++ (stretch ++ below)) = reach (t ++ below) + stretch.length

/-- A walk stops above a stretch and below it at the same places with the stretch and without it, and on
the stretch as it does on the stretch alone, or not at all if it goes over it. -/
theorem spliced_stops {above stretch below : List α}
    (habove : ∀ t, t <:+ above → t ≠ [] → Passes reach stretch below t)
    (hstretch : ∀ t, t <:+ stretch → t ≠ [] → reach (t ++ below) = reach t ∧ reach t < t.length) :
    Spliced above.length stretch.length (stops reach 0 0 stretch) (stops reach 0 0 (above ++ below))
        (stops reach 0 0 (above ++ (stretch ++ below))) ∨
      GoesOver reach above stretch below ∧
        Spliced above.length stretch.length [] (stops reach 0 0 (above ++ below))
          (stops reach 0 0 (above ++ (stretch ++ below))) := by
  -- on the entries above that are left, with what is taken of them in either case
  suffices hwalk : ∀ (index taken taken' : Nat) (rest : List α), rest <:+ above →
      ((taken' = taken ∧ taken ≤ rest.length) ∨ (taken' = taken + stretch.length ∧
        rest.length ≤ taken ∧ (stretch = [] ∨ GoesOver reach above stretch below))) →
      Spliced (index + rest.length) stretch.length (stops reach 0 0 stretch)
          (stops reach taken index (rest ++ below))
          (stops reach taken' index (rest ++ (stretch ++ below))) ∨
        GoesOver reach above stretch below ∧
          Spliced (index + rest.length) stretch.length [] (stops reach taken index (rest ++ below))
            (stops reach taken' index (rest ++ (stretch ++ below))) by
    have hall := hwalk 0 0 0 above List.suffix_rfl (.inl ⟨rfl, Nat.zero_le _⟩)
    rwa [Nat.zero_add] at hall
  intro index taken taken' rest
  have hshift (taken k : Nat) (as : List α) :
      stops reach taken k as = (stops reach taken 0 as).map (· + k) := by
    rw [← stops_add, Nat.zero_add]
  induction rest generalizing index taken taken' with
  | nil =>
    rintro - (⟨rfl, htaken⟩ | ⟨rfl, -, hover⟩)
    · obtain rfl := Nat.le_zero.1 htaken
      left
      rw [List.nil_append, List.nil_append, stops_append hstretch (Nat.zero_le _), hshift 0 index below,
        hshift 0 index stretch, hshift 0 (index + stretch.length)]
      exact .nil _ _
    · have hspliced : Spliced index stretch.length [] (stops reach taken index below)
          (stops reach (taken + stretch.length) index (stretch ++ below)) := by
        rw [stops_passed, hshift taken index, hshift taken (index + stretch.length)]
        exact .nil _ _
      rcases hover with rfl | hover
      · exact .inl hspliced
      · exact .inr ⟨hover, hspliced⟩
  | cons a rest ih =>
    intro hsuffix htaken
    have hrest := (List.suffix_cons a rest).trans hsuffix
    have hlength : index + (a :: rest).length = index + 1 + rest.length := by
      rw [List.length_cons, Nat.add_assoc, Nat.add_comm 1]
    rw [List.length_cons] at htaken
    rw [hlength]
    cases taken with
    | succ taken =>
      obtain ⟨taken', rfl⟩ : ∃ n, taken' = n + 1 := by
        rcases htaken with ⟨rfl, -⟩ | ⟨rfl, -⟩
        · exact ⟨taken, rfl⟩
        · exact ⟨taken + stretch.length, by omega⟩
      refine ih (index + 1) taken taken' hrest (htaken.imp (fun h => ?_) fun h => ?_)
      · omega
      · exact ⟨by omega, by omega, h.2.2⟩
    | zero =>
      obtain rfl : taken' = 0 := by
        rcases htaken with ⟨rfl, -⟩ | ⟨-, hle, -⟩
        · rfl
        · omega
      have hne := List.cons_ne_nil a rest
      have hnext := ih (index + 1) (reach (a :: rest ++ below)) (reach (a :: rest ++ (stretch ++ below)))
        hrest (by
          rcases habove (a :: rest) hsuffix hne with ⟨hsame, hlt⟩ | ⟨hover, hle⟩
          · exact .inl ⟨hsame, Nat.le_of_lt_succ hlt⟩
          · refine .inr ⟨hover, Nat.le_of_succ_le_succ hle, ?_⟩
            by_cases hnil : stretch = []
            · exact .inl hnil
            · exact .inr ⟨_, hsuffix, hne, hnil, hover⟩)
      have hindex : index < index + 1 + rest.length := by omega
      rw [List.cons_append, List.cons_append, stops, stops]
      exact hnext.imp (Spliced.cons hindex) fun h => ⟨h.1, h.2.cons hindex⟩

end

theorem Spliced.of_lt {k n : Nat} {places : List Nat} (h : ∀ i ∈ places, i < k) :
    Spliced k n [] places places :=
  ⟨places, [], h, by simp, by simp⟩

/-- Places may be counted from further up. -/
theorem Spliced.map_add {k n : Nat} {inside frame whole : List Nat} (h : Spliced k n inside frame whole)
    (m : Nat) : Spliced (k + m) n inside (frame.map (· + m)) (whole.map (· + m)) := by
  obtain ⟨before, after, hbefore, rfl, rfl⟩ := h
  refine ⟨before.map (· + m), after, ?_, ?_, ?_⟩
  · intro i hi
    obtain ⟨j, hj, rfl⟩ := List.mem_map.1 hi
    exact Nat.add_lt_add_right (hbefore j hj) m
  · simp only [List.map_append, List.map_map, Function.comp_def, Nat.add_assoc]
  · simp only [List.map_append, List.map_map, Function.comp_def, Nat.add_assoc, Nat.add_comm n m]

/-! ## Entries with a stretch and without it -/

section

variable {above stretch : List α} {i : Nat}

theorem drop_above (hi : i ≤ above.length) (rest : List α) : (above ++ rest).drop i = above.drop i ++ rest :=
  List.drop_append_of_le_length hi

theorem drop_inside (hi : i ≤ stretch.length) (below : List α) :
    (above ++ (stretch ++ below)).drop (i + above.length) = stretch.drop i ++ below := by
  rw [Nat.add_comm, List.drop_length_add_append, List.drop_append_of_le_length hi]

theorem drop_below (above stretch below : List α) (i : Nat) :
    (above ++ (stretch ++ below)).drop (i + (above.length + stretch.length)) =
      (above ++ below).drop (i + above.length) := by
  rw [← List.append_assoc, ← List.length_append, Nat.add_comm, List.drop_length_add_append, Nat.add_comm,
    List.drop_length_add_append]

theorem drop_ne_nil (hi : i < above.length) : above.drop i ≠ [] := by
  rw [ne_eq, List.drop_eq_nil_iff]
  omega

end

/-! ## What is found at the stops -/

namespace Spliced

variable {k n : Nat} {inside frame whole : List Nat} (h : Spliced k n inside frame whole)
include h

theorem filter {p q r : Nat → Bool} (habove : ∀ i < k, p i = q i) (hinside : ∀ i ∈ inside, p (i + k) = r i)
    (hbelow : ∀ i, p (i + (k + n)) = q (i + k)) :
    Spliced k n (inside.filter r) (frame.filter q) (whole.filter p) := by
  obtain ⟨before, after, hbefore, rfl, rfl⟩ := h
  refine ⟨before.filter q, after.filter fun i => q (i + k), ?_, ?_, ?_⟩
  · intro i hi
    exact hbefore i (List.mem_of_mem_filter hi)
  · rw [List.filter_append, List.filter_map]
    rfl
  · have hsame : before.filter p = before.filter q :=
      List.filter_congr fun i hi => habove i (hbefore i hi)
    have hmid : inside.filter (p ∘ (· + k)) = inside.filter r :=
      List.filter_congr fun i hi => hinside i hi
    have hlow : after.filter (p ∘ (· + (k + n))) = after.filter fun i => q (i + k) :=
      List.filter_congr fun i _ => hbelow i
    rw [List.filter_append, List.filter_append, List.filter_map, List.filter_map, hsame, hmid, hlow]

/-- If nothing is found on the stretch, all is found in the frame. -/
theorem filterMap_eq {β : Type} {f g : Nat → Option β} (habove : ∀ i ∈ frame, i < k → f i = g i)
    (hinside : ∀ i ∈ inside, f (i + k) = none) (hbelow : ∀ i, f (i + (k + n)) = g (i + k)) :
    whole.filterMap f = frame.filterMap g := by
  obtain ⟨before, after, hbefore, rfl, rfl⟩ := h
  have hsame : before.filterMap f = before.filterMap g :=
    List.filterMap_congr fun i hi => habove i (List.mem_append_left _ hi) (hbefore i hi)
  have hmid : inside.filterMap (f ∘ (· + k)) = [] := List.filterMap_eq_nil_iff.2 hinside
  have hlow : after.filterMap (f ∘ (· + (k + n))) = after.filterMap (g ∘ (· + k)) :=
    List.filterMap_congr fun i _ => hbelow i
  rw [List.filterMap_append, List.filterMap_append, List.filterMap_append, List.filterMap_map,
    List.filterMap_map, List.filterMap_map, hsame, hmid, hlow, List.nil_append]

theorem mem_above {i : Nat} (hi : i < k) : i ∈ whole ↔ i ∈ frame := by
  obtain ⟨before, after, hbefore, rfl, rfl⟩ := h
  simp only [List.mem_append, List.mem_map]
  refine or_congr_right ?_
  constructor
  · rintro (⟨j, -, rfl⟩ | ⟨j, -, rfl⟩) <;> omega
  · rintro ⟨j, -, rfl⟩
    omega

theorem mem_inside {i : Nat} (hi : i < n) : i + k ∈ whole ↔ i ∈ inside := by
  obtain ⟨before, after, hbefore, rfl, rfl⟩ := h
  simp only [List.mem_append, List.mem_map]
  constructor
  · rintro (hmem | ⟨j, hmem, heq⟩ | ⟨j, -, heq⟩)
    · have := hbefore _ hmem
      omega
    · obtain rfl : j = i := by omega
      exact hmem
    · omega
  · intro hmem
    exact .inr (.inl ⟨i, hmem, rfl⟩)

theorem mem_below (hinside : ∀ j ∈ inside, j < n) {i : Nat} : i + (k + n) ∈ whole ↔ i + k ∈ frame := by
  obtain ⟨before, after, hbefore, rfl, rfl⟩ := h
  simp only [List.mem_append, List.mem_map]
  constructor
  · rintro (hmem | ⟨j, hmem, heq⟩ | ⟨j, hmem, heq⟩)
    · have := hbefore _ hmem
      omega
    · have := hinside j hmem
      omega
    · exact .inr ⟨j, hmem, by omega⟩
  · rintro (hmem | ⟨j, hmem, heq⟩)
    · have := hbefore _ hmem
      omega
    · exact .inr (.inr ⟨j, hmem, by omega⟩)

end Spliced

end SchemaLift.Walk
