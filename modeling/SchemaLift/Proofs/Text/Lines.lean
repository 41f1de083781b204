import Mathlib.Data.List.Basic
import Mathlib.Data.List.TakeWhile
import SchemaLift.Text.Lines

/-!
# Lines, cut and joined

`unlines_lines` says that cutting a text loses nothing. The other way round, joining lines and
cutting again gives the lines back as far as they hold no line feed of their own
(`lines_unlines`); a replacement line that holds some comes back as several lines
(`lines_unlines_flatMap`).
-/

namespace SchemaLift

/-- A computation in steps gives a result if each step gives one. -/
theorem bind_eq_ok_iff {ε α β : Type} {x : Except ε α} {f : α → Except ε β} {b : β} :
    (x >>= f) = .ok b ↔ ∃ a, x = .ok a ∧ f a = .ok b := by
  cases x <;> simp [bind, Except.bind]

theorem map_eq_ok_iff {ε α β : Type} {x : Except ε α} {f : α → β} {b : β} :
    x.map f = .ok b ↔ ∃ a, x = .ok a ∧ f a = b := by
  cases x <;> simp [Except.map]

theorem map_eq_error_iff {ε α β : Type} {x : Except ε α} {f : α → β} {e : ε} :
    x.map f = .error e ↔ x = .error e := by
  cases x <;> simp [Except.map]

/-- All steps succeed exactly if each does. -/
theorem mapM_eq_ok_iff {ε α β : Type} {f : α → Except ε β} {as : List α} {bs : List β} :
    as.mapM f = .ok bs ↔ as.map f = bs.map .ok := by
  induction as generalizing bs with
  | nil => simp [pure, Except.pure, eq_comm]
  | cons a as ih =>
    rw [List.mapM_cons, List.map_cons, eq_comm (b := bs.map _), List.map_eq_cons_iff]
    simp only [bind_eq_ok_iff, ih, pure, Except.pure, Except.ok.injEq]
    grind

theorem toOption_eq_some_iff {ε α : Type} {x : Except ε α} {a : α} :
    x.toOption = some a ↔ x = .ok a := by
  cases x <;> simp [Except.toOption]

/-! ## Going through a list by index -/

section

variable {α : Type} {l rest : List α} {a : α} {i : Nat} (h : l.drop i = a :: rest)
include h

theorem getElem?_of_drop_eq_cons : l[i]? = some a := by
  rw [← List.head?_drop, h, List.head?_cons]

theorem drop_succ_of_drop_eq_cons : l.drop (i + 1) = rest := by
  rw [← List.drop_drop, h, List.drop_one, List.tail_cons]

end

/-! ## Lists without their ends -/

section

variable {α : Type} {p : α → Bool}

/-- A list without the members with a property at its ends. -/
def trimEnds (p : α → Bool) (l : List α) : List α :=
  ((l.dropWhile p).reverse.dropWhile p).reverse

theorem trimEnds_sublist (l : List α) : (trimEnds p l).Sublist l := by
  have hinner : ((l.dropWhile p).reverse.dropWhile p).reverse.Sublist (l.dropWhile p) := by
    rw [← List.reverse_reverse (l.dropWhile p), List.reverse_sublist, List.reverse_reverse]
    exact List.dropWhile_sublist p
  exact hinner.trans (List.dropWhile_sublist p)

/-- What is cut off at the ends has the property. -/
theorem exists_trimEnds_append (p : α → Bool) (l : List α) :
    ∃ before after, (∀ a ∈ before, p a = true) ∧ (∀ a ∈ after, p a = true) ∧
      l = before ++ trimEnds p l ++ after := by
  refine ⟨l.takeWhile p, ((l.dropWhile p).reverse.takeWhile p).reverse,
    fun _ => List.mem_takeWhile_imp,
    fun _ ha => List.mem_takeWhile_imp (List.mem_reverse.1 ha), ?_⟩
  rw [List.append_assoc, trimEnds, ← List.reverse_append, List.takeWhile_append_dropWhile,
    List.reverse_reverse, List.takeWhile_append_dropWhile]

theorem eq_false_of_mem_head?_dropWhile {l : List α} {a : α} (h : a ∈ (l.dropWhile p).head?) :
    p a = false := by
  have hall := List.head?_dropWhile_not p l
  rwa [Option.mem_def.1 h] at hall

/-- The last member that is left does not have the property. -/
theorem eq_false_of_mem_getLast?_trimEnds {l : List α} {a : α} (h : a ∈ (trimEnds p l).getLast?) :
    p a = false := by
  rw [trimEnds, List.getLast?_reverse] at h
  exact eq_false_of_mem_head?_dropWhile h

/-- The first member that is left does not have the property. -/
theorem eq_false_of_mem_head?_trimEnds {l : List α} {a : α} (h : a ∈ (trimEnds p l).head?) :
    p a = false := by
  have hprefix : trimEnds p l <+: l.dropWhile p := by
    rw [← List.reverse_reverse (l.dropWhile p), trimEnds, List.reverse_prefix]
    exact List.dropWhile_suffix p
  obtain ⟨after, hafter⟩ := hprefix
  refine eq_false_of_mem_head?_dropWhile (l := l) ?_
  rw [← hafter, List.head?_append, Option.mem_def.1 h]
  rfl

theorem mem_dropWhile {l : List α} {a : α} (h : a ∈ l) (ha : p a = false) : a ∈ l.dropWhile p := by
  rw [← List.takeWhile_append_dropWhile (p := p) (l := l)] at h
  rcases List.mem_append.1 h with h | h
  · rw [List.mem_takeWhile_imp h] at ha
    cases ha
  · exact h

theorem mem_trimEnds {l : List α} {a : α} (h : a ∈ l) (ha : p a = false) : a ∈ trimEnds p l :=
  List.mem_reverse.2 (mem_dropWhile (List.mem_reverse.2 (mem_dropWhile h ha)) ha)

theorem dropWhile_filterMap {β : Type} (g : α → Option β) (q : β → Bool) (l : List α) :
    (l.filterMap g).dropWhile q = (l.dropWhile fun a => (g a).all q).filterMap g := by
  induction l with
  | nil => rfl
  | cons a rest ih =>
    cases hg : g a with
    | none => simp [hg, ih]
    | some b => cases hq : q b <;> simp [hg, hq, ih]

theorem trimEnds_filterMap {β : Type} (g : α → Option β) (q : β → Bool) (l : List α) :
    trimEnds q (l.filterMap g) = (trimEnds (fun a => (g a).all q) l).filterMap g := by
  unfold trimEnds
  rw [dropWhile_filterMap, ← List.filterMap_reverse, dropWhile_filterMap, ← List.filterMap_reverse]

end

namespace Text

/-! ## Cutting -/

theorem splitOn_append_separator (separator : Char) (s t : Text) :
    splitOn separator (s ++ separator :: t) = splitOn separator s ++ splitOn separator t := by
  induction s with
  | nil => simp [splitOn]
  | cons c cs ih =>
    rw [List.cons_append, splitOn, ih, splitOn]
    by_cases hc : c = separator
    · simp only [hc, ↓reduceIte, List.cons_append]
    · simp only [hc, ↓reduceIte]
      cases hl : splitOn separator cs with
      | nil => exact absurd hl (splitOn_ne_nil separator cs)
      | cons first rest => rfl

/-- A text without the separator is one stretch. -/
theorem splitOn_of_notMem {separator : Char} {s : Text} (h : separator ∉ s) :
    splitOn separator s = [s] := by
  induction s with
  | nil => rfl
  | cons c cs ih =>
    simp only [List.mem_cons, not_or] at h
    rw [splitOn, if_neg (Ne.symm h.1), ih h.2]

theorem notMem_of_mem_splitOn {separator : Char} {s piece : Text}
    (h : piece ∈ splitOn separator s) : separator ∉ piece := by
  induction s generalizing piece with
  | nil => simp only [splitOn, List.mem_singleton] at h; subst h; simp
  | cons c cs ih =>
    rw [splitOn] at h
    split at h
    · rcases List.mem_cons.1 h with rfl | h
      · simp
      · exact ih h
    · rename_i hc
      cases hl : splitOn separator cs with
      | nil => exact absurd hl (splitOn_ne_nil separator cs)
      | cons first rest =>
        rw [hl] at h ih
        rcases List.mem_cons.1 h with rfl | h
        · have hf := ih List.mem_cons_self
          simp only [List.mem_cons, not_or]
          exact ⟨Ne.symm hc, hf⟩
        · exact ih (List.mem_cons_of_mem first h)

theorem lines_ne_nil (s : Text) : lines s ≠ [] := splitOn_ne_nil '\n' s

theorem notMem_of_mem_lines {s : Text} {line : Line} (h : line ∈ lines s) : '\n' ∉ line :=
  notMem_of_mem_splitOn h

/-- A line that holds no line feed is its only line. -/
theorem lines_of_notMem {line : Line} (h : '\n' ∉ line) : lines line = [line] :=
  splitOn_of_notMem h

/-! ## Joining -/

theorem joinWith_cons (separator : Char) (part : Text) (parts : List Text) :
    joinWith separator (part :: parts) = part ++ parts.flatMap (separator :: ·) := by
  induction parts generalizing part with
  | nil => simp [joinWith]
  | cons next parts ih =>
    rw [joinWith, ih next, List.flatMap_cons, List.cons_append]
    exact List.cons_ne_nil next parts

/-- Joined lines are cut where they were joined, and where they hold line feeds themselves. -/
theorem lines_unlines_flatMap {ls : List Line} (h : ls ≠ []) :
    lines (unlines ls) = ls.flatMap lines := by
  induction ls with
  | nil => exact absurd rfl h
  | cons first rest ih =>
    cases rest with
    | nil => simp [unlines, joinWith]
    | cons second rest =>
      have step : unlines (first :: second :: rest) = first ++ '\n' :: unlines (second :: rest) :=
        rfl
      rw [step, lines, splitOn_append_separator, List.flatMap_cons, ← ih (List.cons_ne_nil _ _)]
      rfl

theorem flatMap_lines {ls : List Line} (h : ∀ line ∈ ls, '\n' ∉ line) : ls.flatMap lines = ls := by
  induction ls with
  | nil => rfl
  | cons first rest ih =>
    rw [List.flatMap_cons, lines_of_notMem (h first List.mem_cons_self),
      ih fun line hl => h line (List.mem_cons_of_mem first hl)]
    rfl

/-- Lines without line feeds come back from the text that they make. -/
theorem lines_unlines {ls : List Line} (hne : ls ≠ []) (h : ∀ line ∈ ls, '\n' ∉ line) :
    lines (unlines ls) = ls := by
  rw [lines_unlines_flatMap hne, flatMap_lines h]

end Text

/-! ## Ranges of lines -/

namespace LineRange

theorem contains_iff {r : LineRange} {i : Nat} : r.contains i = true ↔ r.first ≤ i ∧ i ≤ r.last := by
  simp [contains]

theorem fits_iff {r : LineRange} {count : Nat} :
    r.fits count = true ↔ r.first ≤ r.last + 1 ∧ r.last < count := by
  simp [fits]

end LineRange

namespace Lines

theorem line_ok_iff {ls : List Line} {i : Nat} {l : Line} : line ls i = .ok l ↔ ls[i]? = some l := by
  unfold line
  cases ls[i]? <;> simp

theorem line_of_lt {ls : List Line} {i : Nat} (h : i < ls.length) : line ls i = .ok ls[i] :=
  line_ok_iff.2 (List.getElem?_eq_getElem h)

theorem slice_of_fits {ls : List Line} {r : LineRange} (h : r.fits ls.length = true) :
    slice ls r = .ok ((ls.drop r.first).take (r.last + 1 - r.first)) := if_pos h

theorem splice_of_fits {ls new : List Line} {r : LineRange} (h : r.fits ls.length = true) :
    splice ls r new = .ok (ls.take r.first ++ new ++ ls.drop (r.last + 1)) := if_pos h

/-- A replacement that can be carried out lies inside the text. -/
theorem splice_eq_ok {ls new out : List Line} {r : LineRange} (h : splice ls r new = .ok out) :
    r.fits ls.length = true ∧ out = ls.take r.first ++ new ++ ls.drop (r.last + 1) := by
  unfold splice at h
  split at h
  · rename_i hr
    exact ⟨hr, (Except.ok.inj h).symm⟩
  · cases h

/-- Replacing the lines between two stretches. -/
theorem splice_append {first last : Nat} (above old below new : List Line)
    (hfirst : first = above.length) (hlast : last + 1 = above.length + old.length) :
    splice (above ++ (old ++ below)) ⟨first, last⟩ new = .ok (above ++ (new ++ below)) := by
  have hlength : (above ++ old).length = last + 1 := by rw [List.length_append, hlast]
  have hfits : (⟨first, last⟩ : LineRange).fits (above ++ (old ++ below)).length = true := by
    rw [LineRange.fits_iff, ← List.append_assoc, List.length_append, hlength]
    show first ≤ last + 1 ∧ last < last + 1 + below.length
    omega
  rw [splice_of_fits hfits]
  show Except.ok ((above ++ (old ++ below)).take first ++ new ++
    (above ++ (old ++ below)).drop (last + 1)) = _
  rw [List.take_left' hfirst.symm, ← List.append_assoc above old, List.drop_left' hlength,
    List.append_assoc]

/-- Putting the lines of a range back in their place changes nothing. -/
theorem splice_slice {ls old : List Line} {r : LineRange} (h : slice ls r = .ok old) :
    splice ls r old = .ok ls := by
  unfold slice at h
  split at h
  · rename_i hr
    have hle := (LineRange.fits_iff.1 hr).1
    rw [splice_of_fits hr, ← Except.ok.inj h, List.append_assoc]
    have hd : ls.drop (r.last + 1) = (ls.drop r.first).drop (r.last + 1 - r.first) := by
      rw [List.drop_drop, Nat.add_sub_cancel' hle]
    rw [hd, List.take_append_drop, List.take_append_drop]
  · cases h

/-- Lines may be counted from one of them. -/
theorem extent_add (ls : List Line) (first last : Nat) :
    extent ls first (last + first) = extent (ls.drop first) 0 last := by
  unfold extent
  rw [List.drop_zero, Nat.sub_zero, Nat.add_right_comm, Nat.add_sub_cancel]

theorem extent_append {above : List Line} {last : Nat} (hlast : last < above.length) (below : List Line) :
    extent (above ++ below) 0 last = extent above 0 last := by
  unfold extent
  rw [List.drop_zero, List.drop_zero, Nat.sub_zero, List.take_append_of_le_length hlast]

/-- Texts with the same first lines have the same lines in a range of these. -/
theorem take_drop_of_take {ls ls' : List Line} {count first last : Nat}
    (htake : ls'.take count = ls.take count) (hlast : last < count) :
    (ls'.drop first).take (last + 1 - first) = (ls.drop first).take (last + 1 - first) := by
  have hmin : min (last + 1) count = last + 1 := by omega
  have heq : ls'.take (last + 1) = ls.take (last + 1) := by
    rw [← hmin, ← List.take_take, htake, List.take_take]
  rw [← List.drop_take, heq, List.drop_take]

/-- Lines above a replaced range stay. -/
theorem take_splice {ls new out : List Line} {r : LineRange} (h : splice ls r new = .ok out)
    {k : Nat} (hk : k ≤ r.first) : out.take k = ls.take k := by
  obtain ⟨hr, rfl⟩ := splice_eq_ok h
  have hfit := LineRange.fits_iff.1 hr
  rw [List.append_assoc, List.take_append_of_le_length (by simp; omega), List.take_take,
    Nat.min_eq_left hk]

end Lines

end SchemaLift
