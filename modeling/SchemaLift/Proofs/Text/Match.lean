import Mathlib.Data.List.TakeWhile
import SchemaLift.Text.Match

/-!
# What the readers of a line take

Each small reader takes something off the head of a text; these lemmas put it back. A text that is
trimmed at its end keeps its last character that is not blank (`endsWith_trimEnd_append`).
-/

namespace SchemaLift.Text

/-! ## Readers -/

theorem eq_append_of_afterWord? {word : String} {s rest : Text}
    (h : afterWord? word s = some rest) : s = word.toList ++ rest := by
  unfold afterWord? at h
  split at h
  · rename_i hprefix
    obtain ⟨t, rfl⟩ := hprefix
    obtain rfl := Option.some.inj h
    rw [← String.length_toList, List.drop_left]
  · cases h

/-- White space and the text after it. -/
theorem exists_blank_append (s : Text) :
    ∃ ws, (∀ c ∈ ws, isBlankChar c = true) ∧ s = ws ++ afterBlank s :=
  ⟨s.takeWhile isBlankChar, fun _ => List.mem_takeWhile_imp,
    (List.takeWhile_append_dropWhile).symm⟩

theorem exists_blank_cons_append {s rest : Text} (h : afterSomeBlank? s = some rest) :
    ∃ w ws, isBlankChar w = true ∧ (∀ c ∈ ws, isBlankChar c = true) ∧ s = w :: (ws ++ rest) := by
  unfold afterSomeBlank? at h
  split at h
  · rename_i hhead
    obtain rfl := Option.some.inj h
    cases s with
    | nil => cases hhead
    | cons w s =>
      have hw : isBlankChar w = true := hhead
      obtain ⟨ws, hws, hs⟩ := exists_blank_append s
      refine ⟨w, ws, hw, hws, ?_⟩
      rw [trimStart, List.dropWhile_cons_of_pos hw]
      exact congrArg (w :: ·) hs
  · cases h

theorem eq_append_of_spanOf {p : Char → Bool} {s first rest : Text} (h : spanOf p s = (first, rest)) :
    (∀ c ∈ first, p c = true) ∧ s = first ++ rest := by
  obtain ⟨rfl, rfl⟩ := Prod.mk.inj h
  exact ⟨fun _ => List.mem_takeWhile_imp, (List.takeWhile_append_dropWhile).symm⟩

/-! ## Trimmed texts -/

theorem exists_trimEnd_append (s : Text) :
    ∃ ws, (∀ c ∈ ws, isBlankChar c = true) ∧ s = trimEnd s ++ ws := by
  refine ⟨(s.reverse.takeWhile isBlankChar).reverse, ?_, ?_⟩
  · intro c hc
    exact List.mem_takeWhile_imp (List.mem_reverse.1 hc)
  · rw [trimEnd, ← List.reverse_append, List.takeWhile_append_dropWhile, List.reverse_reverse]

/-- Trimming takes white space from both ends and nothing else. -/
theorem exists_trim_append (s : Text) :
    ∃ ws, (∀ c ∈ ws, isBlankChar c = true) ∧ s = s.takeWhile isBlankChar ++ trim s ++ ws := by
  obtain ⟨ws, hws, hs⟩ := exists_trimEnd_append (trimStart s)
  refine ⟨ws, hws, ?_⟩
  rw [trim, List.append_assoc, ← hs, trimStart, List.takeWhile_append_dropWhile]

theorem trimStart_blank_append {ws : Text} (h : ∀ c ∈ ws, isBlankChar c = true) (s : Text) :
    trimStart (ws ++ s) = trimStart s :=
  List.dropWhile_append_of_pos h

theorem trimStart_of_head? {s : Text} (h : ∀ c ∈ s.head?, isBlankChar c = false) : trimStart s = s := by
  cases s with
  | nil => rfl
  | cons c cs => exact List.dropWhile_cons_of_neg (by simp [h c rfl])

theorem trimEnd_append_blank (s : Text) {ws : Text} (h : ∀ c ∈ ws, isBlankChar c = true) :
    trimEnd (s ++ ws) = trimEnd s := by
  rw [trimEnd, List.reverse_append,
    List.dropWhile_append_of_pos fun c hc => h c (List.mem_reverse.1 hc), trimEnd]

theorem trimEnd_of_getLast? {s : Text} (h : ∀ c ∈ s.getLast?, isBlankChar c = false) :
    trimEnd s = s := by
  rw [← List.head?_reverse] at h
  have hreverse : s.reverse.dropWhile isBlankChar = s.reverse := trimStart_of_head? h
  rw [trimEnd, hreverse, List.reverse_reverse]

/-- Trimming leaves a word without white space of its own. -/
theorem trim_append {lead word trail : Text} (hlead : ∀ c ∈ lead, isBlankChar c = true)
    (hword : ∀ c ∈ word, isBlankChar c = false) (htrail : ∀ c ∈ trail, isBlankChar c = true) :
    trim (lead ++ word ++ trail) = word := by
  rw [trim, List.append_assoc, trimStart_blank_append hlead]
  cases word with
  | nil =>
    have hnil : trimStart trail = [] := List.dropWhile_eq_nil_iff.2 htrail
    rw [List.nil_append, hnil]
    rfl
  | cons c cs =>
    have hhead : ∀ d ∈ (c :: cs ++ trail).head?, isBlankChar d = false := by
      rintro d ⟨⟩
      exact hword c List.mem_cons_self
    rw [trimStart_of_head? hhead, trimEnd_append_blank _ htrail]
    exact trimEnd_of_getLast? fun d hd => hword d (List.mem_of_mem_getLast? hd)

/-! ## The end of a trimmed text -/

/-- What is left at the end is the last character that is not blank. -/
theorem getLast?_trimEnd (s : Text) :
    (trimEnd s).getLast? = s.reverse.find? fun c => !isBlankChar c := by
  rw [trimEnd, List.getLast?_reverse, List.find?_eq_head?_dropWhile_not]
  simp only [Bool.not_not]

theorem mem_of_endsWith_trimEnd {s : Text} {c : Char} (h : endsWith (trimEnd s) c = true) :
    c ∈ s := by
  rw [endsWith, getLast?_trimEnd, beq_iff_eq] at h
  exact List.mem_reverse.1 (List.mem_of_find?_eq_some h)

/-- Only the last part that is not blank decides how a trimmed text ends. -/
theorem endsWith_trimEnd_append (s : Text) {t : Text} (ht : isBlank t = false) (c : Char) :
    endsWith (trimEnd (s ++ t)) c = endsWith (trimEnd t) c := by
  have hfind : (t.reverse.find? fun d => !isBlankChar d).isSome = true := by
    rw [List.find?_isSome]
    obtain ⟨d, hd, hnot⟩ := List.all_eq_false.1 ht
    exact ⟨d, List.mem_reverse.2 hd, by simpa using hnot⟩
  rw [endsWith, endsWith, getLast?_trimEnd, getLast?_trimEnd, List.reverse_append,
    List.find?_append, Option.or_of_isSome hfind]

theorem endsWith_trimEnd_blank {ws : Text} (h : ∀ c ∈ ws, isBlankChar c = true) (s : Text)
    (c : Char) : endsWith (trimEnd (s ++ ws)) c = endsWith (trimEnd s) c := by
  rw [trimEnd_append_blank s h]

end SchemaLift.Text
