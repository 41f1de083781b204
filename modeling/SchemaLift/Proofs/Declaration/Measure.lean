import Mathlib.Algebra.BigOperators.Group.List.Basic
import Mathlib.Tactic.Abel
import SchemaLift.Proofs.Declaration.Edit
import SchemaLift.Proofs.Declaration.Reading

/-!
# What a rewritten declaration is made of

A declaration is rewritten in parts: a new header comes for the old one, some statements of its block
go, the line that closes the block goes with the last of them, and a method may come below. The rest of
the block stays. So whatever is counted line by line and not on blank lines adds up: what came and went is
the difference between the new lines and the old ones (`sum_rebuilt`).
-/

namespace SchemaLift.Declaration

/-! ## The parts of a declaration -/

/-- The lines of the header. -/
def headLines (d : Declaration) (ls : List Line) : List Line :=
  (ls.drop d.start).take (d.headerEnd + 1 - d.start)

/-- The lines of the block's body that go. -/
def takenLines (d : Declaration) (ls : List Line) (removed : Removed) : List Line :=
  match d.block with
  | none => []
  | some b => (b.body.filter (removed.covers ·)).filterMap (ls[·]?)

/-- The line that closes the block, if the block goes and the line is not part of the header. -/
def dissolved (d : Declaration) (ls : List Line) (removed : Removed) : List Line :=
  match d.block with
  | none => []
  | some b => if b.start < b.stop ∧ d.staying ls removed = [] then ls[b.stop]?.toList else []

theorem take_eq_filterMap (ls : List Line) (a k : Nat) :
    (ls.drop a).take k = ((List.range k).map (a + ·)).filterMap (ls[·]?) := by
  induction k with
  | zero => rfl
  | succ k ih =>
    rw [List.take_add_one, ih, List.range_succ, List.map_append, List.filterMap_append,
      List.getElem?_drop]
    simp only [List.map_cons, List.map_nil, List.filterMap_cons, List.filterMap_nil]
    cases ls[a + k]? <;> rfl

theorem ownLines_none {d : Declaration} (hb : d.block = none) (ls : List Line) :
    d.ownLines ls = d.headLines ls := by
  unfold ownLines headLines stop
  rw [hb]

theorem ownLines_some {d : Declaration} {count : Nat} (h : d.Placed count) {b : Block}
    (hb : d.block = some b) (ls : List Line) :
    d.ownLines ls = d.headLines ls ++ b.body.filterMap (ls[·]?) ++
      (if b.start < b.stop then ls[b.stop]?.toList else []) := by
  obtain ⟨hstart, hle⟩ := h.block b hb
  have hs := h.start_le
  have hstop : d.stop = b.stop := by rw [stop, hb]
  unfold ownLines headLines
  rw [hstop, ← hstart]
  rw [← hstart] at hs
  have hsplit : b.stop + 1 - d.start = (b.start + 1 - d.start) + (b.stop - b.start) := by omega
  have hdrop : d.start + (b.start + 1 - d.start) = b.start + 1 := by omega
  rw [hsplit, List.take_add, List.drop_drop, hdrop, List.append_assoc]
  congr 1
  split
  · have hlen : b.stop - b.start = (b.stop - (b.start + 1)) + 1 := by omega
    have hlast : b.start + 1 + (b.stop - (b.start + 1)) = b.stop := by omega
    rw [hlen, List.take_add_one, take_eq_filterMap, List.getElem?_drop, hlast, Block.body]
  · have hzero : b.stop - b.start = 0 := by omega
    have hnone : b.stop - (b.start + 1) = 0 := by omega
    rw [hzero, Block.body, hnone]
    rfl

/-! ## Before and after -/

section

variable {M : Type} [AddCommMonoid M] {f : Line → M}

theorem sum_partition (f : Line → M) (indices : List Nat) (p : Nat → Bool) (g : Nat → Option Line) :
    (((indices.filter (!p ·)).filterMap g).map f).sum +
      (((indices.filter (p ·)).filterMap g).map f).sum = ((indices.filterMap g).map f).sum := by
  induction indices with
  | nil => simp
  | cons i rest ih =>
    cases hg : g i with
    | none => cases hp : p i <;> simp [hp, hg, ih]
    | some line =>
      rw [List.filterMap_cons_some hg, List.map_cons, List.sum_cons, ← ih]
      cases hp : p i with
      | true =>
        rw [List.filter_cons_of_pos hp, List.filter_cons_of_neg (by simp [hp]),
          List.filterMap_cons_some hg, List.map_cons, List.sum_cons]
        abel
      | false =>
        rw [List.filter_cons_of_pos (by simp [hp]), List.filter_cons_of_neg (by simp [hp]),
          List.filterMap_cons_some hg, List.map_cons, List.sum_cons]
        abel

theorem sum_dropWhile_isBlank {ls : List Line}
    (hblank : ∀ line ∈ ls, Text.isBlank line = true → f line = 0) :
    ((ls.dropWhile Text.isBlank).map f).sum = (ls.map f).sum := by
  induction ls with
  | nil => rfl
  | cons line rest ih =>
    rw [List.dropWhile_cons]
    split
    · rename_i hline
      rw [ih fun l hl => hblank l (List.mem_cons_of_mem line hl), List.map_cons, List.sum_cons,
        hblank line List.mem_cons_self hline, zero_add]
    · rfl

theorem sum_trimBlankEnds {ls : List Line}
    (hblank : ∀ line ∈ ls, Text.isBlank line = true → f line = 0) :
    ((trimBlankEnds ls).map f).sum = (ls.map f).sum := by
  unfold trimBlankEnds
  have hsub : ∀ line ∈ (ls.dropWhile Text.isBlank).reverse, Text.isBlank line = true → f line = 0 :=
    fun line hl => hblank line ((List.dropWhile_sublist _).subset (List.mem_reverse.1 hl))
  have hreverse : ∀ ls : List Line, ((ls.reverse).map f).sum = (ls.map f).sum := fun ls =>
    ((List.reverse_perm ls).map f).sum_eq
  rw [hreverse, sum_dropWhile_isBlank hsub, hreverse, sum_dropWhile_isBlank hblank]

theorem sum_separate (hempty : f [] = 0) (trailer : List Line) (below : Bool) :
    ((separate trailer below).map f).sum = (trailer.map f).sum := by
  unfold separate
  split
  · rename_i h
    rw [List.isEmpty_iff.1 h]
  · rw [List.cons_append, List.map_cons, List.sum_cons, hempty, zero_add, List.map_append,
      List.sum_append]
    split <;> simp [hempty]

variable {d : Declaration} {ls : List Line}

/-- The body adds what stays and what goes. -/
theorem sum_body (hblank : ∀ line ∈ ls, Text.isBlank line = true → f line = 0) {b : Block}
    (hb : d.block = some b) (removed : Removed) :
    ((b.body.filterMap (ls[·]?)).map f).sum =
      ((d.staying ls removed).map f).sum + ((d.takenLines ls removed).map f).sum := by
  have hstay : ((d.staying ls removed).map f).sum =
      (((b.body.filter (!removed.covers ·)).filterMap (ls[·]?)).map f).sum := by
    unfold staying
    rw [hb]
    apply sum_trimBlankEnds
    intro line hline
    obtain ⟨i, -, hi⟩ := List.mem_filterMap.1 hline
    exact hblank line (List.mem_of_getElem? hi)
  rw [hstay, takenLines, hb]
  exact (sum_partition f b.body removed.covers (ls[·]?)).symm

/-- New lines and what went add what the old lines and what came add. -/
theorem sum_rebuilt (hempty : f [] = 0)
    (hblank : ∀ line ∈ ls, Text.isBlank line = true → f line = 0) (h : d.Placed ls.length)
    (s : Signature) (removed : Removed) (trailer : List Line) :
    ((d.rebuilt ls s removed trailer).map f).sum +
        (((d.headLines ls).map f).sum + ((d.takenLines ls removed).map f).sum +
          ((d.dissolved ls removed).map f).sum) =
      ((d.ownLines ls).map f).sum +
        (f (newHeader s (d.staying ls removed)).render + (trailer.map f).sum) := by
  unfold rebuilt
  rw [List.cons_append, List.map_cons, List.sum_cons, List.map_append, List.sum_append,
    sum_separate hempty]
  cases hb : d.block with
  | none =>
    have hstay : d.staying ls removed = [] := by rw [staying, hb]
    rw [ownLines_none hb, hstay, takenLines, dissolved, hb]
    simp only [List.isEmpty_nil, ↓reduceIte, List.map_nil, List.sum_nil]
    abel
  | some b =>
    rw [ownLines_some h hb, List.map_append, List.sum_append, List.map_append, List.sum_append,
      sum_body hblank hb removed, dissolved, closer, hb]
    simp only
    -- a block of which nothing stays goes with its last line
    by_cases hstay : d.staying ls removed = []
    · simp only [hstay, List.isEmpty_nil, and_true, ↓reduceIte, List.map_nil, List.sum_nil]
      abel
    · have hnonempty : (d.staying ls removed).isEmpty = false := by simpa using hstay
      have hlt : b.start < b.stop := by
        by_contra hge
        have hnone : b.stop - (b.start + 1) = 0 := by omega
        apply hstay
        rw [staying, hb]
        simp only [Block.body, hnone]
        rfl
      simp only [hstay, hnonempty, hlt, and_false, Bool.false_eq_true, ↓reduceIte, List.map_append,
        List.sum_append, List.map_nil, List.sum_nil]
      abel

end

end SchemaLift.Declaration
