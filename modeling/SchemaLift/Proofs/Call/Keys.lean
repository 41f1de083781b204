import Mathlib.Data.List.Nodup
import SchemaLift.Call.Signature

/-!
# Keys of keyword arguments

What the operations on a signature do to the keys of its keyword arguments: they remove, replace or
append one key (`keys_removeKeyword`, `keys_renameKeyword`, `keys_pushKeyword`).
-/

namespace SchemaLift

section

variable {α : Type} [BEq α] [LawfulBEq α] {a b : α} {l : List α}

theorem replace_cons_of_ne {c : α} (h : a ≠ c) : (c :: l).replace a b = c :: l.replace a b := by
  rw [List.replace_cons, beq_eq_false_iff_ne.2 h]

theorem perm_replace (h : a ∈ l) : (l.replace a b).Perm (b :: l.erase a) := by
  induction l with
  | nil => cases h
  | cons c rest ih =>
    by_cases hc : a = c
    · rw [hc, List.replace_cons_self, List.erase_cons_head]
    · have hrest : a ∈ rest := (List.mem_cons.1 h).resolve_left hc
      rw [replace_cons_of_ne hc, List.erase_cons_tail (by simpa using Ne.symm hc)]
      exact ((ih hrest).cons c).trans (.swap b c _)

end

namespace Signature

/-- The keys of the keyword arguments, in order. -/
def keys (s : Signature) : List Text := s.keywords.map KeywordArgument.key

theorem hasKeyword_iff {s : Signature} {key : Text} : s.hasKeyword key = true ↔ key ∈ s.keys := by
  unfold hasKeyword keyword? keys
  rw [Option.isSome_map, List.find?_isSome, List.mem_map]
  simp only [beq_iff_eq]

theorem keys_pushKeyword (s : Signature) (key value : Text) :
    (s.pushKeyword key value).keys = s.keys ++ [key] := by
  unfold keys pushKeyword
  rw [List.map_append]
  rfl

theorem keys_removeKeyword (s : Signature) (key : Text) :
    (s.removeKeyword key).keys = s.keys.erase key := by
  unfold keys removeKeyword
  rw [List.erase_eq_eraseP', List.eraseP_map]
  rfl

theorem map_key_renameFirst (old new : Text) (arguments : List KeywordArgument) :
    (renameFirst old new arguments).map KeywordArgument.key =
      (arguments.map KeywordArgument.key).replace old new := by
  induction arguments with
  | nil => rfl
  | cons a rest ih =>
    rw [renameFirst, List.map_cons]
    by_cases h : a.key = old
    · rw [if_pos h, h, List.replace_cons_self]
      rfl
    · rw [if_neg h, replace_cons_of_ne (Ne.symm h), List.map_cons, ih]

theorem keys_renameKeyword (s : Signature) (old new : Text) :
    (s.renameKeyword old new).keys = s.keys.replace old new :=
  map_key_renameFirst old new s.keywords

end Signature

end SchemaLift
