import SchemaLift.Diff.Script
import SchemaLift.Text.Blank

/-!
# Unified diffs

A unified diff shows the changed lines of a text with some unchanged lines around them. Lines keep
their ends, which are a line feed, a carriage return, or both; a last line without an end is marked.
Changes whose surroundings touch or overlap share a hunk.
-/

namespace SchemaLift.Diff

/-- The lines of a text with their ends. -/
def terminatedLines : Text → List Text
  | [] => []
  | c :: cs =>
    if c = '\n' ∨ (c = '\r' ∧ cs.head? ≠ some '\n') then [c] :: terminatedLines cs
    else
      match terminatedLines cs with
      | [] => [[c]]
      | line :: rest => (c :: line) :: rest

/-- Marks the lines of a script that are shown: the changed ones, and `context` unchanged ones around
each. `reach` is how many more unchanged lines the last change shows; the number with the result is
how many lines before the script its first change shows. -/
def markShown (context reach : Nat) : List (Change Text) → List (Change Text × Bool) × Nat
  | [] => ([], 0)
  | c :: cs =>
    if c.isKept then
      let (rest, ahead) := markShown context (reach - 1) cs
      ((c, 0 < reach || 0 < ahead) :: rest, ahead - 1)
    else
      let (rest, _) := markShown context context cs
      ((c, true) :: rest, context)

structure Hunk where
  oldStart : Nat
  newStart : Nat
  lines : List (Change Text)
  deriving Repr

/-- Adds a shown line in front of the hunks after it. -/
def extendHunks (oldIndex newIndex : Nat) (c : Change Text) (touching : Bool) (hunks : List Hunk) :
    List Hunk :=
  match touching, hunks with
  | true, h :: rest => ⟨oldIndex, newIndex, c :: h.lines⟩ :: rest
  | _, hunks => ⟨oldIndex, newIndex, [c]⟩ :: hunks

/-- The runs of shown lines, where `oldIndex` and `newIndex` lines come before. -/
def hunksFrom (oldIndex newIndex : Nat) : List (Change Text × Bool) → List Hunk
  | [] => []
  | (c, shown) :: rest =>
    let hunks := hunksFrom (oldIndex + c.inOld.toNat) (newIndex + c.inNew.toNat) rest
    if shown then
      extendHunks oldIndex newIndex c (rest.head?.any Prod.snd) hunks
    else hunks

/-- A range in a hunk header: its first line, counted from one, and its length, unless that is one.
An empty range names the line before it. -/
def rangeText (start length : Nat) : String :=
  if length = 1 then toString (start + 1)
  else if length = 0 then toString start ++ ",0"
  else toString (start + 1) ++ "," ++ toString length

namespace Hunk

def header (h : Hunk) : Text :=
  ("@@ -" ++ rangeText h.oldStart (Change.old h.lines).length ++ " +" ++
    rangeText h.newStart (Change.new h.lines).length ++ " @@\n").toList

def lineText (c : Change Text) : Text :=
  let sign := match c with
    | .keep _ => ' '
    | .delete _ => '-'
    | .insert _ => '+'
  let ended := Text.endsWith c.value '\n' || Text.endsWith c.value '\r'
  sign :: c.value ++ (if ended then [] else "\n\\ No newline at end of file\n".toList)

def render (h : Hunk) : Text := h.header ++ h.lines.flatMap lineText

end Hunk

/-- The script from the lines of one text to those of another. -/
def lineScript (old new : Text) : List (Change Text) :=
  script (terminatedLines old) (terminatedLines new)

/-- The unified diff of two texts with their names; nothing if they are equal. -/
def unifiedAround (context : Nat) (oldName newName old new : Text) : Text :=
  let hunks := hunksFrom 0 0 (markShown context 0 (lineScript old new)).1
  if hunks.isEmpty then []
  else
    "--- ".toList ++ oldName ++ "\n+++ ".toList ++ newName ++ "\n".toList ++
      hunks.flatMap Hunk.render

/-- The unified diff of two versions of a file, with three unchanged lines around each change. -/
def unified (path old new : Text) : Text :=
  unifiedAround 3 ("a/".toList ++ path) ("b/".toList ++ path) old new

def lineChanges (old new : Text) : Nat × Nat :=
  let changes := lineScript old new
  (changes.countP (!·.inOld), changes.countP (!·.inNew))

end SchemaLift.Diff
