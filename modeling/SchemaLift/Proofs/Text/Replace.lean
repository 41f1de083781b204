import Mathlib.Algebra.BigOperators.Group.List.Basic
import Mathlib.Data.List.Induction
import Mathlib.Tactic.Abel
import SchemaLift.Proofs.Text.Lines

/-!
# Replacing several ranges at once

`replaceRanges` is the simultaneous edit of a text: every range gives way to the lines that are
given for it, and all other lines stay. When the ranges are handled one after the other, the lowest
one first, the result is the same (`splice_replaceRanges`), because a replacement moves no line
above it (`take_replaceRanges`).
-/

namespace SchemaLift.Lines

/-- A replacement for the lines of a range. -/
abbrev Change := LineRange × List Line

/-- What stands for the line at index `i`: its own text if no range holds it; the replacement if a
range begins there; nothing further down in a range. -/
def replaceLine (changes : List Change) (line : Line) (i : Nat) : List Line :=
  match changes.find? (·.1.contains i) with
  | none => [line]
  | some (r, new) => if i = r.first then new else []

/-- The text with all the ranges replaced, each by its own lines. -/
def replaceRanges (lines : List Line) (changes : List Change) : List Line :=
  lines.zipIdx.flatMap fun entry => replaceLine changes entry.1 entry.2

/-! ## One line -/

theorem replaceLine_of_lt {changes : List Change} {i : Nat} (h : ∀ c ∈ changes, i < c.1.first)
    (line : Line) : replaceLine changes line i = [line] := by
  have hnone : changes.find? (·.1.contains i) = none := by
    rw [List.find?_eq_none]
    intro c hc hi
    have := (LineRange.contains_iff.1 hi).1
    have := h c hc
    omega
  rw [replaceLine, hnone]

theorem replaceLine_cons_of_notMem {c : Change} {i : Nat} (h : c.1.contains i = false)
    (changes : List Change) (line : Line) :
    replaceLine (c :: changes) line i = replaceLine changes line i := by
  simp only [replaceLine, List.find?_cons, h]

theorem replaceLine_cons_of_mem {c : Change} {i : Nat} (h : c.1.contains i = true)
    (changes : List Change) (line : Line) :
    replaceLine (c :: changes) line i = if i = c.1.first then c.2 else [] := by
  simp only [replaceLine, List.find?_cons, h]

/-! ## Stretches of lines -/

/-- The simultaneous edit of the lines from index `k` on. -/
def replaceFrom (changes : List Change) (k : Nat) (lines : List Line) : List Line :=
  (lines.zipIdx k).flatMap fun entry => replaceLine changes entry.1 entry.2

theorem replaceFrom_cons (changes : List Change) (k : Nat) (line : Line) (rest : List Line) :
    replaceFrom changes k (line :: rest) =
      replaceLine changes line k ++ replaceFrom changes (k + 1) rest := by
  rw [replaceFrom, List.zipIdx_cons, List.flatMap_cons, replaceFrom]

theorem replaceFrom_append (changes : List Change) (k : Nat) (above below : List Line) :
    replaceFrom changes k (above ++ below) =
      replaceFrom changes k above ++ replaceFrom changes (k + above.length) below := by
  simp only [replaceFrom, List.zipIdx_append, List.flatMap_append]

/-- Above all ranges nothing changes. -/
theorem replaceFrom_of_le {changes : List Change} {k : Nat} {ls : List Line}
    (h : ∀ c ∈ changes, k + ls.length ≤ c.1.first) : replaceFrom changes k ls = ls := by
  induction ls generalizing k with
  | nil => rfl
  | cons line rest ih =>
    rw [replaceFrom_cons, replaceLine_of_lt, ih, List.singleton_append]
    · intro c hc
      have := h c hc
      simp only [List.length_cons] at this
      omega
    · intro c hc
      have := h c hc
      simp only [List.length_cons] at this
      omega

/-- A range that is passed over has no effect further down. -/
theorem replaceFrom_cons_of_lt {c : Change} {k : Nat} (h : c.1.last < k) (changes : List Change)
    (ls : List Line) : replaceFrom (c :: changes) k ls = replaceFrom changes k ls := by
  induction ls generalizing k with
  | nil => rfl
  | cons line rest ih =>
    rw [replaceFrom_cons, replaceFrom_cons, ih (by omega), replaceLine_cons_of_notMem]
    rw [← Bool.not_eq_true, LineRange.contains_iff]
    omega

/-- Below its first line a range holds nothing. -/
theorem replaceFrom_inside {c : Change} {k : Nat} {ls : List Line} (hk : c.1.first < k)
    (hlast : k + ls.length ≤ c.1.last + 1) (changes : List Change) :
    replaceFrom (c :: changes) k ls = [] := by
  induction ls generalizing k with
  | nil => rfl
  | cons line rest ih =>
    simp only [List.length_cons] at hlast
    rw [replaceFrom_cons, ih (by omega) (by omega), List.append_nil, replaceLine_cons_of_mem,
      if_neg (by omega)]
    rw [LineRange.contains_iff]
    omega

/-- A whole range gives way to its replacement. -/
theorem replaceFrom_range {c : Change} {ls : List Line} (hne : ls ≠ [])
    (hlast : c.1.first + ls.length = c.1.last + 1) (changes : List Change) :
    replaceFrom (c :: changes) c.1.first ls = c.2 := by
  cases ls with
  | nil => exact absurd rfl hne
  | cons line rest =>
    simp only [List.length_cons] at hlast
    have hc : c.1.contains c.1.first = true := LineRange.contains_iff.2 ⟨Nat.le_refl _, by omega⟩
    rw [replaceFrom_cons, replaceLine_cons_of_mem hc, if_pos rfl,
      replaceFrom_inside (by omega) (by omega), List.append_nil]

/-! ## Whole texts -/

/-- Above all ranges the text stays; `k` lines are above them. -/
theorem replaceRanges_eq_append {lines : List Line} {changes : List Change} {k : Nat}
    (h : ∀ c ∈ changes, k ≤ c.1.first) (hk : k ≤ lines.length) :
    replaceRanges lines changes = lines.take k ++ replaceFrom changes k (lines.drop k) := by
  have hlen : (lines.take k).length = k := by simp [hk]
  calc replaceRanges lines changes
      = replaceFrom changes 0 (lines.take k ++ lines.drop k) := by rw [List.take_append_drop]; rfl
    _ = replaceFrom changes 0 (lines.take k) ++ replaceFrom changes k (lines.drop k) := by
        rw [replaceFrom_append, hlen, Nat.zero_add]
    _ = lines.take k ++ replaceFrom changes k (lines.drop k) := by
        rw [replaceFrom_of_le]
        intro c hc
        rw [hlen, Nat.zero_add]
        exact h c hc

theorem replaceRanges_nil (lines : List Line) : replaceRanges lines [] = lines := by
  have h : replaceRanges lines [] =
      lines.take lines.length ++ replaceFrom [] lines.length (lines.drop lines.length) :=
    replaceRanges_eq_append (by simp) (Nat.le_refl _)
  rw [h, List.take_length, List.drop_length]
  exact List.append_nil lines

/-- A replacement moves no line above it. -/
theorem take_replaceRanges {lines : List Line} {changes : List Change} {k : Nat}
    (h : ∀ c ∈ changes, k ≤ c.1.first) (hk : k ≤ lines.length) :
    (replaceRanges lines changes).take k = lines.take k := by
  rw [replaceRanges_eq_append h hk, List.take_append_of_le_length (by simp [hk]), List.take_take,
    Nat.min_self]

/-- Right below the lines above all ranges stands what stood there, or a replacement. -/
theorem getElem?_replaceRanges {lines : List Line} {changes : List Change} {k : Nat}
    (h : ∀ c ∈ changes, k ≤ c.1.first ∧ c.2 ≠ []) (hk : k ≤ lines.length) :
    (replaceRanges lines changes)[k]? = lines[k]? ∨
      ∃ c ∈ changes, c.1.first = k ∧ (replaceRanges lines changes)[k]? = c.2.head? := by
  have hlen : (lines.take k).length = k := by simp [hk]
  have hget : (replaceRanges lines changes)[k]? = (replaceFrom changes k (lines.drop k)).head? := by
    rw [replaceRanges_eq_append (fun c hc => (h c hc).1) hk, List.getElem?_append_right (by omega),
      hlen, Nat.sub_self, List.head?_eq_getElem?]
  have hline : lines[k]? = (lines.drop k).head? := by
    rw [List.head?_drop]
  rw [hget, hline]
  cases hd : lines.drop k with
  | nil => exact Or.inl rfl
  | cons line rest =>
    rw [replaceFrom_cons, replaceLine]
    cases hf : changes.find? (·.1.contains k) with
    | none => exact Or.inl rfl
    | some c =>
      have hc := List.mem_of_find?_eq_some hf
      have hin : c.1.first ≤ k ∧ k ≤ c.1.last := by
        have := List.find?_some hf
        exact LineRange.contains_iff.1 this
      obtain ⟨hfirst, hne⟩ := h c hc
      have heq : c.1.first = k := by omega
      obtain ⟨l, ls, hnew⟩ := List.exists_cons_of_ne_nil hne
      refine Or.inr ⟨c, hc, heq, ?_⟩
      simp only [heq, ↓reduceIte, hnew, List.cons_append, List.head?_cons]

/-- Replacing a range after all those below it is replacing them all at once. -/
theorem splice_replaceRanges {lines : List Line} {changes : List Change} {r : LineRange}
    {new : List Line} (h : ∀ c ∈ changes, r.last < c.1.first) (hr : r.first ≤ r.last)
    (hlast : r.last < lines.length) :
    splice (replaceRanges lines changes) r new = .ok (replaceRanges lines ((r, new) :: changes)) := by
  have hle : ∀ c ∈ changes, r.last + 1 ≤ c.1.first := h
  have hsplit := replaceRanges_eq_append hle (Nat.succ_le_of_lt hlast)
  have hlen : (lines.take (r.last + 1)).length = r.last + 1 := by simp; omega
  have hfits : r.fits (replaceRanges lines changes).length = true := by
    rw [LineRange.fits_iff, hsplit, List.length_append, hlen]
    omega
  -- above the range, the range itself, and below it
  have htop : replaceRanges lines ((r, new) :: changes) =
      lines.take r.first ++ replaceFrom ((r, new) :: changes) r.first (lines.drop r.first) := by
    apply replaceRanges_eq_append
    · intro c hc
      rcases List.mem_cons.1 hc with rfl | hc
      · exact Nat.le_refl _
      · have := h c hc
        omega
    · omega
  have hmid : lines.drop r.first =
      (lines.drop r.first).take (r.last + 1 - r.first) ++ lines.drop (r.last + 1) := by
    have hd : lines.drop (r.last + 1) = (lines.drop r.first).drop (r.last + 1 - r.first) := by
      rw [List.drop_drop, Nat.add_sub_cancel' (by omega)]
    rw [hd, List.take_append_drop]
  have hcount : ((lines.drop r.first).take (r.last + 1 - r.first)).length = r.last + 1 - r.first := by
    simp only [List.length_take, List.length_drop]
    omega
  have hne : (lines.drop r.first).take (r.last + 1 - r.first) ≠ [] := by
    intro hnil
    rw [hnil] at hcount
    simp only [List.length_nil] at hcount
    omega
  have hbody : replaceFrom ((r, new) :: changes) r.first
      ((lines.drop r.first).take (r.last + 1 - r.first)) = new :=
    replaceFrom_range (c := (r, new)) hne (by rw [hcount]; show r.first + _ = r.last + 1; omega) _
  rw [splice_of_fits hfits, take_replaceRanges (fun c hc => by have := h c hc; omega) (by omega),
    htop, hmid, replaceFrom_append, hbody, hcount, Nat.add_sub_cancel' (by omega),
    replaceFrom_cons_of_lt (by simp), hsplit, List.drop_append_of_le_length (by omega),
    List.drop_of_length_le (by omega), List.nil_append, List.append_assoc]

theorem replaceLine_delete (ranges : List LineRange) (line : Line) (i : Nat) :
    replaceLine (ranges.map (·, [])) line i = if ranges.any (·.contains i) then [] else [line] := by
  unfold replaceLine
  rw [List.find?_map]
  cases hfind : ranges.find? ((fun c : Change => c.1.contains i) ∘ (·, [])) with
  | none =>
    have hnone : ranges.any (·.contains i) = false := List.any_eq_false.2 (List.find?_eq_none.1 hfind)
    rw [hnone]
    rfl
  | some r =>
    have hin : r.contains i = true := by simpa using List.find?_some hfind
    rw [List.any_eq_true.2 ⟨r, List.mem_of_find?_eq_some hfind, hin⟩, if_pos rfl]
    exact ite_self []

/-- Lines that are replaced by none go. -/
theorem replaceRanges_delete (ls : List Line) (ranges : List LineRange) :
    replaceRanges ls (ranges.map (·, [])) =
      ((List.range ls.length).filter fun i => !ranges.any (·.contains i)).filterMap (ls[·]?) := by
  unfold replaceRanges
  simp only [replaceLine_delete]
  induction ls using List.reverseRecOn with
  | nil => rfl
  | append_singleton init line ih =>
    have hinit : ((List.range init.length).filter fun i => !ranges.any (·.contains i)).filterMap
        ((init ++ [line])[·]?) =
        ((List.range init.length).filter fun i => !ranges.any (·.contains i)).filterMap (init[·]?) := by
      refine List.filterMap_congr fun i hi => ?_
      rw [List.getElem?_append_left (List.mem_range.1 (List.mem_of_mem_filter hi))]
    rw [List.zipIdx_append, List.flatMap_append, ih, List.length_append, List.length_singleton,
      List.range_succ, List.filter_append, List.filterMap_append, hinit]
    congr 1
    rw [List.zipIdx_singleton, List.flatMap_singleton, Nat.zero_add]
    cases hgone : ranges.any (·.contains init.length) with
    | true => simp [hgone]
    | false => simp [hgone]

/-! ## Ranges from top to bottom -/

/-- Ranges of a text that follow each other, with their replacements. -/
structure Sorted (lines : List Line) (changes : List Change) : Prop where
  inside : ∀ c ∈ changes, c.1.first ≤ c.1.last ∧ c.1.last < lines.length
  sorted : changes.Pairwise fun a b => a.1.last < b.1.first

namespace Sorted

variable {lines : List Line} {c : Change} {changes : List Change}

theorem head (h : Sorted lines (c :: changes)) :
    c.1.first ≤ c.1.last ∧ c.1.last < lines.length ∧ ∀ d ∈ changes, c.1.last < d.1.first :=
  ⟨(h.inside c List.mem_cons_self).1, (h.inside c List.mem_cons_self).2,
    (List.pairwise_cons.1 h.sorted).1⟩

theorem tail (h : Sorted lines (c :: changes)) : Sorted lines changes :=
  ⟨fun d hd => h.inside d (List.mem_cons_of_mem c hd), (List.pairwise_cons.1 h.sorted).2⟩

end Sorted

/-- Replacing the lowest range first is replacing them all at once. -/
theorem spliceUpwards_eq {lines : List Line} {changes : List Change} (h : Sorted lines changes) :
    spliceUpwards lines changes = .ok (replaceRanges lines changes) := by
  induction changes with
  | nil => rw [spliceUpwards, replaceRanges_nil]
  | cons c changes ih =>
    obtain ⟨hle, hlt, hbelow⟩ := h.head
    rw [spliceUpwards, ih h.tail]
    exact splice_replaceRanges hbelow hle hlt

/-- The lines of a range. -/
def oldLines (lines : List Line) (r : LineRange) : List Line :=
  (lines.drop r.first).take (r.last + 1 - r.first)

/-- The topmost change replaces its lines in the text in which all others have been made. -/
theorem Sorted.exists_below {lines : List Line} {c : Change} {changes : List Change}
    (h : Sorted lines (c :: changes)) : ∃ below,
      replaceRanges lines changes = lines.take c.1.first ++ (oldLines lines c.1 ++ below) ∧
        replaceRanges lines (c :: changes) = lines.take c.1.first ++ (c.2 ++ below) := by
  obtain ⟨hle, hlt, hbelow⟩ := h.head
  have hsplice : splice (replaceRanges lines changes) c.1 c.2 =
      .ok (replaceRanges lines (c :: changes)) := splice_replaceRanges hbelow hle hlt
  obtain ⟨-, hout⟩ := splice_eq_ok hsplice
  -- the other changes lie below, so the lines of `c` are still those of the text
  have htop : (replaceRanges lines changes).take (c.1.last + 1) = lines.take (c.1.last + 1) :=
    take_replaceRanges hbelow hlt
  have htake : (replaceRanges lines changes).take c.1.first = lines.take c.1.first := by
    have hmin : min c.1.first (c.1.last + 1) = c.1.first := by omega
    rw [← hmin, ← List.take_take, htop, List.take_take]
  refine ⟨(replaceRanges lines changes).drop (c.1.last + 1), ?_, ?_⟩
  · calc replaceRanges lines changes
        = lines.take (c.1.last + 1) ++ (replaceRanges lines changes).drop (c.1.last + 1) := by
          rw [← htop, List.take_append_drop]
      _ = (lines.take (c.1.last + 1)).take c.1.first ++ (lines.take (c.1.last + 1)).drop c.1.first ++
            (replaceRanges lines changes).drop (c.1.last + 1) := by rw [List.take_append_drop]
      _ = _ := by
        rw [List.take_take, Nat.min_eq_left (by omega), List.drop_take, List.append_assoc]
        rfl
  · rw [hout, htake, List.append_assoc]

theorem length_oldLines {lines : List Line} {r : LineRange} (hle : r.first ≤ r.last)
    (hlt : r.last < lines.length) : (oldLines lines r).length = r.last + 1 - r.first := by
  rw [oldLines, List.length_take, List.length_drop]
  omega

/-- What is counted line by line: the new text and the lines that went have as much as the old text and
the lines that came. -/
theorem sum_replaceRanges {M : Type} [AddCommMonoid M] (f : Line → M) {lines : List Line}
    {changes : List Change} (h : Sorted lines changes) :
    ((replaceRanges lines changes).map f).sum +
        (changes.map fun c => ((oldLines lines c.1).map f).sum).sum =
      (lines.map f).sum + (changes.map fun c => (c.2.map f).sum).sum := by
  induction changes with
  | nil => rw [replaceRanges_nil, List.map_nil, List.map_nil]
  | cons c changes ih =>
    obtain ⟨below, hsplit, hout⟩ := h.exists_below
    have hih := ih h.tail
    rw [hsplit] at hih
    simp only [List.map_append, List.sum_append] at hih
    rw [hout, List.map_cons, List.sum_cons, List.map_cons, List.sum_cons, List.map_append,
      List.map_append, List.sum_append, List.sum_append]
    calc _ = _ := by abel
      _ = _ := congrArg (· + (c.2.map f).sum) hih
      _ = _ := by abel

end SchemaLift.Lines
