import Mathlib.Algebra.Ring.Int.Defs
import Mathlib.Order.Bounds.Basic
import SchemaLift.Proofs.Token.Items

/-!
# Cutting at the outermost commas

Tokens are balanced if their bracket depth, counted from the first one, never goes below zero and comes
to zero at the end. Just these can be split, into the stretches around the commas at depth zero, which
`commaPlaces` finds by counting (`segments_eq_some_iff_cutAt`). A bracket is closed where the depth,
counted from it, first comes to zero again (`matchingClose_eq_some_iff`).
-/

namespace SchemaLift

/-! ## Closing by count -/

/-- The place of the first change that brings a count below zero. -/
def closesAt (count : Int) : List Int → Option Nat
  | [] => none
  | d :: ds => if count + d < 0 then some 0 else (closesAt (count + d) ds).map (· + 1)

theorem closesAt_eq_some_iff {count : Int} (hcount : 0 ≤ count) {ds : List Int} {n : Nat} :
    closesAt count ds = some n ↔
      (∀ k ≤ n, 0 ≤ count + (ds.take k).sum) ∧ count + (ds.take (n + 1)).sum < 0 := by
  induction ds generalizing count n with
  | nil =>
    refine iff_of_false nofun fun h => ?_
    have hlast := h.2
    simp only [List.take_nil, List.sum_nil] at hlast
    omega
  | cons d ds ih =>
    rw [closesAt]
    by_cases hneg : count + d < 0
    · rw [if_pos hneg, Option.some_inj]
      constructor
      · rintro rfl
        refine ⟨fun k hk => ?_, by simpa using hneg⟩
        rw [Nat.le_zero.1 hk]
        simpa using hcount
      · rintro ⟨hnonneg, -⟩
        by_contra hn
        have hfirst := hnonneg 1 (by omega)
        simp only [List.take_succ_cons, List.take_zero, List.sum_cons, List.sum_nil] at hfirst
        omega
    · rw [if_neg hneg]
      have hnonneg : 0 ≤ count + d := by omega
      have hsum : ∀ k, count + ((d :: ds).take (k + 1)).sum = count + d + (ds.take k).sum := by
        intro k
        rw [List.take_succ_cons, List.sum_cons, Int.add_assoc]
      cases n with
      | zero =>
        refine iff_of_false (fun h => ?_) fun h => ?_
        · obtain ⟨m, -, hm⟩ := Option.map_eq_some_iff.1 h
          exact Nat.succ_ne_zero m hm
        · have hlast := h.2
          rw [hsum, List.take_zero, List.sum_nil, Int.add_zero] at hlast
          exact hneg hlast
      | succ n =>
        rw [Option.map_eq_some_iff, hsum]
        simp only [Nat.add_right_cancel_iff, exists_eq_right, ih hnonneg]
        refine and_congr_left fun _ => ⟨fun h k hk => ?_, fun h k hk => ?_⟩
        · cases k with
          | zero => simpa using hcount
          | succ k =>
            rw [hsum]
            exact h k (Nat.le_of_succ_le_succ hk)
        · rw [← hsum]
          exact h (k + 1) (Nat.succ_le_succ hk)

namespace Token

/-! ## The depth along the way -/

/-- Counted on from `depth`, the bracket depth is zero or more in front of each token, and `last` at the
end. -/
structure DepthRun (depth last : Int) (ts : List Token) : Prop where
  nonneg : ∀ n, 0 ≤ depth + bracketDepth (ts.take n)
  last_eq : depth + bracketDepth ts = last

/-- The bracket depth never goes below zero and ends at zero. -/
abbrev Balanced (ts : List Token) : Prop := DepthRun 0 0 ts

theorem depthRun_nil_iff {depth last : Int} : DepthRun depth last [] ↔ 0 ≤ depth ∧ depth = last := by
  have hnil : depth + bracketDepth [] = depth := Int.add_zero depth
  constructor
  · intro h
    have hfirst := h.nonneg 0
    have hlast := h.last_eq
    rw [List.take_zero, hnil] at hfirst
    rw [hnil] at hlast
    exact ⟨hfirst, hlast⟩
  · rintro ⟨hdepth, hlast⟩
    refine ⟨fun n => ?_, by rw [hnil, hlast]⟩
    rw [List.take_nil, hnil]
    exact hdepth

theorem depthRun_cons_iff {depth last : Int} {t : Token} {ts : List Token} :
    DepthRun depth last (t :: ts) ↔ 0 ≤ depth ∧ DepthRun (depth + t.bracketDelta) last ts := by
  have hnil : depth + bracketDepth [] = depth := Int.add_zero depth
  have hcons : ∀ us, depth + bracketDepth (t :: us) = depth + t.bracketDelta + bracketDepth us := by
    intro us
    rw [bracketDepth, Int.add_assoc]
  constructor
  · intro h
    have hfirst := h.nonneg 0
    rw [List.take_zero, hnil] at hfirst
    refine ⟨hfirst, fun n => ?_, by rw [← hcons, h.last_eq]⟩
    rw [← hcons, ← List.take_succ_cons]
    exact h.nonneg (n + 1)
  · rintro ⟨hdepth, h⟩
    refine ⟨fun n => ?_, by rw [hcons, h.last_eq]⟩
    cases n with
    | zero => rwa [List.take_zero, hnil]
    | succ n =>
      rw [List.take_succ_cons, hcons]
      exact h.nonneg n

/-- A run goes on below its first token, unless that one closes more than was opened. -/
theorem depthRun_cons_natCast_iff {depth : Nat} {last : Int} {t : Token} {ts : List Token} :
    DepthRun depth last (t :: ts) ↔ ∃ d : Nat, depthBelow depth t = some d ∧ DepthRun d last ts := by
  rw [depthRun_cons_iff]
  cases hbelow : depthBelow depth t with
  | some d =>
    have hd := eq_of_depthBelow hbelow
    simp [← hd]
  | none =>
    have hneg := lt_zero_of_depthBelow hbelow
    refine iff_of_false (fun h => ?_) (by simp)
    have hfirst := (h.2.nonneg 0)
    rw [List.take_zero, bracketDepth] at hfirst
    omega

/-! ## Places of commas -/

/-- The places of the commas at depth zero, when the depth is `depth` in front of the tokens. -/
def commaPlaces (depth : Int) (ts : List Token) : List Nat :=
  (List.range ts.length).filter fun i =>
    ts[i]?.any (·.is .comma) && depth + bracketDepth (ts.take i) == 0

/-- The stretches of tokens around the given places, from the place `start` on. -/
def cutAt (ts : List Token) (start : Nat) : List Nat → List (List Token)
  | [] => [ts.drop start]
  | place :: places => (ts.take place).drop start :: cutAt ts (place + 1) places

/-- Stretches with one token between a stretch and the next. -/
def interleave : List (List Token) → List Token → List Token
  | stretch :: stretches, t :: ts => stretch ++ t :: interleave stretches ts
  | stretches, _ => stretches.flatten

theorem commaPlaces_pairwise (depth : Int) (ts : List Token) :
    (commaPlaces depth ts).Pairwise (· < ·) :=
  List.Pairwise.filter _ List.pairwise_lt_range

theorem lt_of_mem_commaPlaces {depth : Int} {ts : List Token} {i : Nat}
    (h : i ∈ commaPlaces depth ts) : i < ts.length :=
  List.mem_range.1 (List.mem_filter.1 h).1

theorem commaPlaces_cons (depth : Int) (t : Token) (ts : List Token) :
    commaPlaces depth (t :: ts) =
      (if t.kind = .comma ∧ depth = 0 then [0] else []) ++
        (commaPlaces (depth + t.bracketDelta) ts).map (· + 1) := by
  have hbelow : (fun i => (t :: ts)[i]?.any (·.is .comma) &&
      depth + bracketDepth ((t :: ts).take i) == 0) ∘ Nat.succ =
      fun i => ts[i]?.any (·.is .comma) && depth + t.bracketDelta + bracketDepth (ts.take i) == 0 := by
    funext i
    simp only [Function.comp_apply, Nat.succ_eq_add_one, List.getElem?_cons_succ, List.take_succ_cons,
      bracketDepth, Int.add_assoc]
  have hfirst : ((t :: ts)[0]?.any (·.is .comma) && depth + bracketDepth ((t :: ts).take 0) == 0) =
      decide (t.kind = .comma ∧ depth = 0) := by
    simp [bracketDepth, Token.is, Bool.decide_and, beq_eq_decide]
  unfold commaPlaces
  rw [List.length_cons, List.range_succ_eq_map, List.filter_cons, List.filter_map, hbelow, hfirst]
  by_cases h : t.kind = .comma ∧ depth = 0
  · rw [if_pos h, if_pos (decide_eq_true h)]
    rfl
  · rw [if_neg h, if_neg (by simpa using h)]
    rfl

/-! ## Segments -/

theorem cutAt_cons_succ (t : Token) (ts : List Token) (start : Nat) (places : List Nat) :
    cutAt (t :: ts) (start + 1) (places.map (· + 1)) = cutAt ts start places := by
  induction places generalizing start with
  | nil => rfl
  | cons place places ih =>
    rw [List.map_cons, cutAt, cutAt, List.take_succ_cons, List.drop_succ_cons, ih]

theorem cutAt_cons_zero (t : Token) (ts : List Token) (places : List Nat) :
    cutAt (t :: ts) 0 (places.map (· + 1)) = consFirst t (cutAt ts 0 places) := by
  cases places with
  | nil => rfl
  | cons place places =>
    rw [List.map_cons, cutAt, cutAt_cons_succ, cutAt, consFirst]
    rfl

/-- Cutting at commas gives the stretches around the commas at depth zero. -/
theorem segments_eq_some_iff_cutAt {depth : Nat} {ts : List Token} {segs : List (List Token)} :
    segments depth ts = some segs ↔
      DepthRun depth 0 ts ∧ segs = cutAt ts 0 (commaPlaces depth ts) := by
  induction ts generalizing depth segs with
  | nil =>
    rw [segments, depthRun_nil_iff]
    by_cases hdepth : depth = 0
    · subst hdepth
      simp [commaPlaces, cutAt, eq_comm]
    · simp [hdepth]
  | cons t ts ih =>
    have hmap : ∀ (d : Nat) (f : List (List Token) → List (List Token)),
        (segments d ts).map f = some segs ↔
          DepthRun d 0 ts ∧ segs = f (cutAt ts 0 (commaPlaces d ts)) := by
      intro d f
      rw [Option.map_eq_some_iff]
      simp only [ih, and_assoc, exists_and_left, exists_eq_left, eq_comm]
    rw [segments_cons, commaPlaces_cons, depthRun_cons_natCast_iff]
    by_cases hcomma : t.kind = .comma ∧ depth = 0
    · obtain ⟨hkind, rfl⟩ := hcomma
      have hbelow := depthBelow_comma hkind 0
      have hdelta : t.bracketDelta = 0 := by
        have := eq_of_depthBelow hbelow
        omega
      rw [if_pos ⟨hkind, rfl⟩, if_pos ⟨hkind, rfl⟩, hmap, hdelta, hbelow, Int.add_zero,
        List.singleton_append, cutAt, cutAt_cons_succ]
      simp only [Option.some.injEq, exists_eq_left', List.drop_zero, List.take_zero]
    · have hcast : ¬ (t.kind = .comma ∧ (depth : Int) = 0) := by
        simpa using hcomma
      rw [if_neg hcomma, if_neg hcast, List.nil_append, cutAt_cons_zero]
      cases hbelow : depthBelow depth t with
      | none => simp
      | some d =>
        rw [← eq_of_depthBelow hbelow, Option.bind_some, hmap]
        simp only [Option.some.injEq, exists_eq_left']

/-- An item is balanced, and all its commas stand inside brackets of its own. -/
theorem itemDepth_eq_some_iff {depth last : Nat} {ts : List Token} :
    itemDepth depth ts = some last ↔ DepthRun depth last ts ∧ commaPlaces depth ts = [] := by
  induction ts generalizing depth with
  | nil =>
    rw [itemDepth, depthRun_nil_iff, Option.some_inj, ← Int.ofNat_inj]
    exact ⟨fun h => ⟨⟨Int.natCast_nonneg depth, h⟩, rfl⟩, fun h => h.1.2⟩
  | cons t ts ih =>
    rw [itemDepth, commaPlaces_cons, depthRun_cons_natCast_iff]
    by_cases hcomma : t.kind = .comma ∧ depth = 0
    · have hcast : t.kind = .comma ∧ (depth : Int) = 0 := ⟨hcomma.1, by rw [hcomma.2]; rfl⟩
      rw [if_pos hcomma, if_pos hcast]
      simp
    · have hcast : ¬ (t.kind = .comma ∧ (depth : Int) = 0) := by
        simpa using hcomma
      rw [if_neg hcomma, if_neg hcast, List.nil_append, List.map_eq_nil_iff]
      cases hbelow : depthBelow depth t with
      | none => simp
      | some d =>
        rw [← eq_of_depthBelow hbelow, Option.bind_some, ih]
        simp only [Option.some.injEq, exists_eq_left']

/-- The stretches around the places and the tokens at the places are all that there is. -/
theorem interleave_cutAt {ts : List Token} {start : Nat} {places : List Nat}
    (hsorted : places.Pairwise (· < ·)) (hplaces : ∀ p ∈ places, start ≤ p ∧ p < ts.length) :
    interleave (cutAt ts start places) (places.filterMap (ts[·]?)) = ts.drop start := by
  induction places generalizing start with
  | nil => simp [cutAt, interleave]
  | cons place places ih =>
    obtain ⟨hfirst, hsorted⟩ := List.pairwise_cons.1 hsorted
    obtain ⟨⟨hstart, hlt⟩, hplaces⟩ := List.forall_mem_cons.1 hplaces
    have hrest := ih hsorted fun p hp => ⟨hfirst p hp, (hplaces p hp).2⟩
    have hcut : (ts.take place).drop start ++ ts.drop place = ts.drop start := by
      rw [← List.drop_append_of_le_length (by rw [List.length_take]; omega),
        List.take_append_drop]
    rw [cutAt, List.filterMap_cons_some (List.getElem?_eq_getElem hlt), interleave, hrest,
      ← List.drop_eq_getElem_cons hlt, hcut]

/-! ## Closing brackets -/

/-- A bracket is closed where the bracket depth falls below the depth in front of it. -/
theorem closeIndex_eq (depth : Nat) (ts : List Token) :
    closeIndex depth ts = closesAt depth (ts.map bracketDelta) := by
  induction ts generalizing depth with
  | nil => rfl
  | cons t ts ih =>
    rw [closeIndex_cons, List.map_cons, closesAt]
    cases hbelow : depthBelow depth t with
    | some d =>
      have hd := eq_of_depthBelow hbelow
      rw [if_neg (by omega), ← hd]
      simp only [ih]
    | none => rw [if_pos (lt_zero_of_depthBelow hbelow)]

theorem bracketDepth_eq_sum (ts : List Token) : bracketDepth ts = (ts.map bracketDelta).sum := by
  induction ts with
  | nil => rfl
  | cons t ts ih => rw [bracketDepth, List.map_cons, List.sum_cons, ih]

theorem neg_one_le_bracketDelta (t : Token) : -1 ≤ t.bracketDelta := by
  unfold bracketDelta
  split_ifs <;> decide

/-- One more token takes the depth down by one at most. -/
theorem bracketDepth_take_succ (ts : List Token) (n : Nat) :
    bracketDepth (ts.take n) - 1 ≤ bracketDepth (ts.take (n + 1)) ∧
      (ts.length ≤ n → bracketDepth (ts.take (n + 1)) = bracketDepth (ts.take n)) := by
  by_cases hn : n < ts.length
  · have hdelta := neg_one_le_bracketDelta ts[n]
    rw [List.take_succ_eq_append_getElem hn, bracketDepth_append, bracketDepth, bracketDepth]
    omega
  · have hle : ts.length ≤ n := by omega
    rw [List.take_of_length_le hle, List.take_of_length_le (by omega)]
    omega

/-- What is closed is closed by the first token that brings the depth below the one in front. -/
theorem closeIndex_eq_some_iff {ts : List Token} {n : Nat} :
    closeIndex 0 ts = some n ↔
      IsLeast {n | n < ts.length ∧ bracketDepth (ts.take (n + 1)) = -1} n := by
  have hcount : closeIndex 0 ts = some n ↔ (∀ k ≤ n, 0 ≤ bracketDepth (ts.take k)) ∧
      bracketDepth (ts.take (n + 1)) < 0 := by
    rw [closeIndex_eq, closesAt_eq_some_iff (by decide)]
    simp only [bracketDepth_eq_sum, List.map_take, Int.natCast_zero, Int.zero_add]
  rw [hcount]
  constructor
  · rintro ⟨hnonneg, hneg⟩
    obtain ⟨hstep, hend⟩ := bracketDepth_take_succ ts n
    have hlast := hnonneg n (Nat.le_refl n)
    refine ⟨⟨by omega, by omega⟩, ?_⟩
    rintro m ⟨-, hm⟩
    by_contra hlt
    have hbefore := hnonneg (m + 1) (by omega)
    omega
  · rintro ⟨⟨hlt, hneg⟩, hleast⟩
    refine ⟨fun k hk => ?_, by omega⟩
    induction k with
    | zero => exact Int.le_refl 0
    | succ k ih =>
      obtain ⟨hstep, -⟩ := bracketDepth_take_succ ts k
      have hbefore := ih (by omega)
      by_contra hbelow
      have hk' := hleast (a := k) ⟨by omega, by omega⟩
      omega

/-- The depth behind token `i`, counted from token `k` on. -/
def depthThrough (ts : List Token) (k i : Nat) : Int := bracketDepth ((ts.take (i + 1)).drop k)

theorem depthThrough_eq {ts : List Token} {k : Nat} {t : Token} (ht : ts[k]? = some t)
    (hopens : t.kind.opensBracket = true) (n : Nat) :
    depthThrough ts k (k + n) = 1 + bracketDepth ((ts.drop (k + 1)).take n) := by
  obtain ⟨hlt, rfl⟩ := List.getElem?_eq_some_iff.1 ht
  have hn : k + n + 1 - k = n + 1 := by omega
  rw [depthThrough, List.drop_take, hn, List.drop_eq_getElem_cons hlt, List.take_succ_cons,
    bracketDepth, bracketDelta, if_pos hopens]

/-- An open bracket is closed where the depth, counted from it, first comes back to zero. -/
theorem matchingClose_eq_some_iff {ts : List Token} {k : Nat} {t : Token} (ht : ts[k]? = some t)
    (hopens : t.kind.opensBracket = true) {i : Nat} :
    matchingClose ts k = some i ↔
      IsLeast {i | k < i ∧ i < ts.length ∧ depthThrough ts k i = 0} i := by
  have hback : ∀ n, n + (k + 1) ∈ {i | k < i ∧ i < ts.length ∧ depthThrough ts k i = 0} ↔
      n < (ts.drop (k + 1)).length ∧ bracketDepth ((ts.drop (k + 1)).take (n + 1)) = -1 := by
    intro n
    have hsum : n + (k + 1) = k + (n + 1) := by omega
    rw [Set.mem_ofPred_eq, hsum, depthThrough_eq ht hopens, List.length_drop]
    omega
  rw [matchingClose, Option.map_eq_some_iff]
  simp only [closeIndex_eq_some_iff]
  constructor
  · rintro ⟨n, ⟨hn, hleast⟩, rfl⟩
    refine ⟨(hback n).2 hn, ?_⟩
    rintro j ⟨hkj, hj⟩
    obtain ⟨m, rfl⟩ := Nat.exists_eq_add_of_le' hkj
    exact Nat.add_le_add_right (hleast ((hback m).1 ⟨hkj, hj⟩)) _
  · rintro ⟨⟨hki, hi⟩, hleast⟩
    obtain ⟨n, rfl⟩ := Nat.exists_eq_add_of_le' hki
    refine ⟨n, ⟨(hback n).1 ⟨hki, hi⟩, fun m hm => ?_⟩, rfl⟩
    exact Nat.le_of_add_le_add_right (hleast ((hback m).2 hm))

/-! ## Top-level items -/

/-- The stretches of tokens around the commas at depth zero, empty ones included. -/
def topStretches (ts : List Token) : List (List Token) := cutAt ts 0 (commaPlaces 0 ts)

theorem splitTopLevel_eq_some_iff {ts : List Token} {items : List (List Token)} :
    splitTopLevel ts = some items ↔
      Balanced ts ∧ items = (topStretches ts).filter (!·.isEmpty) := by
  rw [splitTopLevel, Option.map_eq_some_iff]
  constructor
  · rintro ⟨stretches, hstretches, rfl⟩
    obtain ⟨hbalanced, rfl⟩ := segments_eq_some_iff_cutAt.1 hstretches
    exact ⟨hbalanced, rfl⟩
  · rintro ⟨hbalanced, rfl⟩
    exact ⟨topStretches ts, segments_eq_some_iff_cutAt.2 ⟨hbalanced, rfl⟩, rfl⟩

/-- Each stretch between top-level commas of balanced tokens is balanced, without such a comma. -/
theorem Balanced.stretch {ts : List Token} (h : Balanced ts) :
    ∀ stretch ∈ topStretches ts, Balanced stretch ∧ commaPlaces 0 stretch = [] := by
  obtain ⟨commas, hitems⟩ := segments_eq_some_iff.1 (segments_eq_some_iff_cutAt.2 ⟨h, rfl⟩)
  intro stretch hmem
  exact itemDepth_eq_some_iff.1 (hitems.isItem stretch hmem)

theorem interleave_topStretches (ts : List Token) :
    interleave (topStretches ts) ((commaPlaces 0 ts).filterMap (ts[·]?)) = ts :=
  interleave_cutAt (commaPlaces_pairwise 0 ts) fun _ hp => ⟨Nat.zero_le _, lt_of_mem_commaPlaces hp⟩

/-- Tokens are split just if they are balanced. The items are the stretches around the commas at depth
zero that are not empty; each is balanced and has no such comma itself, and the stretches with these
commas between them are the tokens. A bracket is closed by the first token behind it where the depth,
counted from the bracket on, is zero again. -/
theorem splitTopLevel_exact (ts : List Token) :
    (∀ items, splitTopLevel ts = some items ↔
      Balanced ts ∧ items = (topStretches ts).filter (!·.isEmpty)) ∧
    (∀ items, splitTopLevel ts = some items →
      ∀ item ∈ items, Balanced item ∧ commaPlaces 0 item = []) ∧
    interleave (topStretches ts) ((commaPlaces 0 ts).filterMap (ts[·]?)) = ts ∧
    ∀ k t, ts[k]? = some t → t.kind.opensBracket = true → ∀ i, matchingClose ts k = some i ↔
      IsLeast {i | k < i ∧ i < ts.length ∧ depthThrough ts k i = 0} i := by
  refine ⟨fun items => splitTopLevel_eq_some_iff, fun items hitems item hitem => ?_,
    interleave_topStretches ts, fun k t ht hopens i => matchingClose_eq_some_iff ht hopens⟩
  obtain ⟨hbalanced, rfl⟩ := splitTopLevel_eq_some_iff.1 hitems
  exact hbalanced.stretch item (List.mem_filter.1 hitem).1

/-- An empty stretch between two commas, and commas inside brackets. -/
theorem splitTopLevel_exact_nested :
    let ts := tokenize "a, b[1, 2], , { c, d }".toList
    let items := [ts.take 1, (ts.drop 2).take 6, (ts.drop 10).take 5]
    splitTopLevel ts = some items ∧ Balanced (ts.drop 10) ∧ matchingClose ts 3 = some 7 ∧
      IsLeast {i | 3 < i ∧ i < ts.length ∧ depthThrough ts 3 i = 0} 7 := by
  intro ts items
  have hsplit : splitTopLevel ts = some items := by decide
  have hclose : matchingClose ts 3 = some 7 := by decide
  obtain ⟨-, hitems, -, hleast⟩ := splitTopLevel_exact ts
  exact ⟨hsplit, (hitems items hsplit (ts.drop 10) (by decide)).1, hclose,
    (hleast 3 ⟨[], .lbracket, ['[']⟩ (by decide) rfl 7).1 hclose⟩

end Token

end SchemaLift
