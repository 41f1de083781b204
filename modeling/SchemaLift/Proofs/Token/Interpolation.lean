import SchemaLift.Proofs.Token.Quoted

/-!
# Interpolations

The interpolations of a double-quoted string as the scanner of strings finds them, each with the
character in front of it. A backslash takes the character behind it, so that it opens none.
-/

namespace SchemaLift.Quoted

/-- Code that a string interpolates. -/
structure Interpolation where
  /-- The character before the `#{`. -/
  previous : Char
  code : Text
  deriving DecidableEq, Repr

/-- The interpolations in the text of a string after the character `previous`, of which the first `taken`
characters belong to the one before. -/
def interpolationsFrom (previous : Char) : (taken : Nat) → Text → List Interpolation
  | _, [] => []
  | taken + 1, c :: cs => interpolationsFrom c taken cs
  | 0, '\\' :: cs => interpolationsFrom '\\' 1 cs
  | 0, '#' :: '{' :: cs =>
    match interpolationClose cs with
    | some n => ⟨previous, cs.take n⟩ :: interpolationsFrom '{' (n + 1) cs
    | none => [⟨previous, cs⟩]
  | 0, c :: cs => interpolationsFrom c 0 cs

/-- The interpolations of a double-quoted string with its quotes. -/
def interpolations (literal : Text) : List Interpolation :=
  interpolationsFrom '"' 0 literal.tail

theorem interpolationsFrom_nil (previous : Char) (taken : Nat) :
    interpolationsFrom previous taken [] = [] := by
  cases taken <;> rfl

theorem interpolationsFrom_plain {previous c : Char} {cs : Text} (hc : c ≠ '\\')
    (hopen : ¬(c = '#' ∧ cs.head? = some '{')) :
    interpolationsFrom previous 0 (c :: cs) = interpolationsFrom c 0 cs := by
  rw [interpolationsFrom]
  · exact fun h => hc h
  · rintro ds h rfl
    exact hopen ⟨h, rfl⟩

/-- Behind the characters that are taken the string goes on. -/
theorem interpolationsFrom_length (previous : Char) (w rest : Text) :
    interpolationsFrom previous w.length (w ++ rest) =
      interpolationsFrom (w.getLastD previous) 0 rest := by
  induction w generalizing previous with
  | nil => rfl
  | cons c w ih =>
    rw [List.getLastD_cons]
    exact ih c

/-- A complete interpolation is one of the string, and the string goes on behind it. -/
theorem interpolationsFrom_open {previous last : Char} {code rest : Text}
    (h : interpolationClose (code ++ last :: rest) = some code.length) :
    interpolationsFrom previous 0 ('#' :: '{' :: (code ++ last :: rest)) =
      ⟨previous, code⟩ :: interpolationsFrom last 0 rest := by
  have hlength : code.length + 1 = (code ++ [last]).length := by simp
  rw [interpolationsFrom, h]
  simp only [List.take_left]
  rw [List.append_cons, hlength, interpolationsFrom_length, List.getLastD_concat]

/-- A string without hash signs and backslashes interpolates nothing. -/
theorem interpolationsFrom_eq_nil {s : Text} (h : ∀ c ∈ s, c ≠ '\\' ∧ c ≠ '#') (previous : Char) :
    interpolationsFrom previous 0 s = [] := by
  induction s generalizing previous with
  | nil => rfl
  | cons c cs ih =>
    have hc := h c List.mem_cons_self
    rw [interpolationsFrom_plain hc.1 fun hopen => hc.2 hopen.1]
    exact ih (fun d hd => h d (List.mem_cons_of_mem c hd)) c

end SchemaLift.Quoted
