import SchemaLift.Text.Blank

/-!
# Lines of a text

A text is cut at its line feeds and put together again with line feeds: `unlines_lines` says that
nothing is lost on the way. Lines are addressed by inclusive ranges; reading or replacing a range
that the text does not have is a `Misplaced` edit.
-/

namespace SchemaLift

/-- One line, without the line feed that ends it. A replacement line may itself hold line feeds. -/
abbrev Line := Text

namespace Text

/-- The stretches of a text between the places where `separator` stands. -/
def splitOn (separator : Char) : Text → List Text
  | [] => [[]]
  | c :: cs =>
    if c = separator then [] :: splitOn separator cs
    else match splitOn separator cs with
      | [] => [[c]]
      | first :: rest => (c :: first) :: rest

def joinWith (separator : Char) : List Text → Text
  | [] => []
  | [last] => last
  | first :: rest => first ++ separator :: joinWith separator rest

/-- The lines of a text; a text without line feeds is one line. -/
def lines (s : Text) : List Line := splitOn '\n' s

/-- The lines joined with line feeds. -/
def unlines (lines : List Line) : Text := joinWith '\n' lines

theorem splitOn_ne_nil (separator : Char) (s : Text) : splitOn separator s ≠ [] := by
  cases s with
  | nil => simp [splitOn]
  | cons c cs =>
    unfold splitOn
    split
    · simp
    · split <;> simp

theorem joinWith_cons_cons (separator c : Char) (first : Text) (rest : List Text) :
    joinWith separator ((c :: first) :: rest) = c :: joinWith separator (first :: rest) := by
  cases rest <;> rfl

theorem joinWith_splitOn (separator : Char) (s : Text) :
    joinWith separator (splitOn separator s) = s := by
  induction s with
  | nil => rfl
  | cons c cs ih =>
    unfold splitOn
    split
    · rename_i h
      cases hl : splitOn separator cs with
      | nil => exact absurd hl (splitOn_ne_nil separator cs)
      | cons first rest => rw [← ih, hl, h]; rfl
    · split
      · rename_i hl
        exact absurd hl (splitOn_ne_nil separator cs)
      · rename_i first rest hl
        rw [joinWith_cons_cons, ← hl, ih]

/-- Cutting a text into lines loses nothing. -/
theorem unlines_lines (s : Text) : unlines (lines s) = s := joinWith_splitOn '\n' s

end Text

/-- The lines from `first` through `last`, counted from zero. The range is empty when `last` is the
line before `first`. -/
structure LineRange where
  first : Nat
  last : Nat
  deriving DecidableEq, Repr, Inhabited

namespace LineRange

def contains (r : LineRange) (index : Nat) : Bool := r.first ≤ index && index ≤ r.last

def indices (r : LineRange) : List Nat :=
  (List.range (r.last + 1 - r.first)).map (r.first + ·)

/-- Whether a text of `count` lines has this range. -/
def fits (r : LineRange) (count : Nat) : Bool := r.first ≤ r.last + 1 && r.last < count

end LineRange

/-- A line or a range of lines was asked for that the text, as it stands by then, does not have. -/
inductive Misplaced where
  | line (index count : Nat)
  | range (range : LineRange) (count : Nat)
  deriving DecidableEq, Repr

namespace Lines

def line (lines : List Line) (index : Nat) : Except Misplaced Line :=
  match lines[index]? with
  | some l => .ok l
  | none => .error (.line index lines.length)

def slice (lines : List Line) (r : LineRange) : Except Misplaced (List Line) :=
  if r.fits lines.length then .ok ((lines.drop r.first).take (r.last + 1 - r.first))
  else .error (.range r lines.length)

/-- The text with the lines of a range replaced by others. -/
def splice (lines : List Line) (r : LineRange) (replacement : List Line) :
    Except Misplaced (List Line) :=
  if r.fits lines.length then
    .ok (lines.take r.first ++ replacement ++ lines.drop (r.last + 1))
  else .error (.range r lines.length)

/-- The text with new lines after the line at `index`. -/
def insertAfter (lines : List Line) (index : Nat) (added : List Line) :
    Except Misplaced (List Line) :=
  if index < lines.length then
    .ok (lines.take (index + 1) ++ added ++ lines.drop (index + 1))
  else .error (.line index lines.length)

def join (lines : List Line) (r : LineRange) : Except Misplaced Text :=
  (slice lines r).map Text.unlines

/-- The lines `first` through `last` as one text, as far as the text has them. -/
def extent (lines : List Line) (first last : Nat) : Text :=
  Text.unlines ((lines.drop first).take (last + 1 - first))

/-- Replaces several ranges, the lowest one first, so that the ranges above keep their places. The
ranges are given from top to bottom. -/
def spliceUpwards (lines : List Line) : List (LineRange × List Line) → Except Misplaced (List Line)
  | [] => .ok lines
  | (r, replacement) :: rest => do
    let lines ← spliceUpwards lines rest
    splice lines r replacement

end Lines

end SchemaLift
