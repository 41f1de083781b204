import SchemaLift.Block.Outline
import SchemaLift.Call.ListCall
import SchemaLift.Upgrade.Skip

/-!
# Lists of types

A definition lists its interfaces with `interfaces [A, B]` and the members of a union with
`possible_types [A, B]`. The first becomes one `implements` line for each item, the second loses its
brackets. A statement whose argument is no array literal stays.
-/

namespace SchemaLift

/-- A list call on the lines of a text. -/
structure TypeList where
  range : LineRange
  indent : Text
  call : ListCall
  deriving DecidableEq, Repr

namespace TypeList

def startsOn (keyword : String) (line : Line) : Bool :=
  (tokenizeCode line).head?.any (·.isWord keyword)

/-- What a scan finds: a list, or a statement that the text does not end. -/
inductive Found where
  | list (found : TypeList)
  | unterminated (skip : Skip)
  deriving DecidableEq, Repr

/-- Scans the lines `rest`, the first of which is line `index`, when the next `taken` lines belong
to a statement. -/
def scanFrom (rule : Rule) (keyword : String) (lines : List Line) (outline : Outline)
    (taken index : Nat) : List Line → List Found
  | [] => []
  | line :: rest =>
    match taken with
    | taken + 1 => scanFrom rule keyword lines outline taken (index + 1) rest
    | 0 =>
      if startsOn keyword line then
        match outline.statementEnd index with
        | none =>
          .unterminated (Skip.atLine rule index line (.unterminatedStatement keyword.toList)) ::
            scanFrom rule keyword lines outline 0 (index + 1) rest
        | some last =>
          let further := scanFrom rule keyword lines outline (last - index) (index + 1) rest
          match ListCall.parse? keyword (Lines.extent lines index last) with
          | some call => .list ⟨⟨index, last⟩, Text.indentation line, call⟩ :: further
          | none => further
      else scanFrom rule keyword lines outline 0 (index + 1) rest

def scan (rule : Rule) (keyword : String) (lines : List Line) : List Found :=
  scanFrom rule keyword lines (Outline.ofLines lines) 0 0 lines

/-- The lines with the comments at the end of the last one. -/
def withComments (lines : List Line) (comments : List Text) : List Line :=
  match lines.getLast? with
  | none => []
  | some last => lines.dropLast ++ [last ++ comments.flatMap (' ' :: ·)]

/-- One `implements` line for each item. -/
def implementsLines (l : TypeList) : List Line :=
  withComments (l.call.items.map fun item => l.indent ++ "implements ".toList ++ item)
    l.call.comments

/-- The items without brackets, on one line. -/
def possibleTypesLines (l : TypeList) : List Line :=
  withComments [l.indent ++ "possible_types ".toList ++ ", ".toList.intercalate l.call.items]
    l.call.comments

/-- Replaces the lists that are found for a keyword, those of them that `wanted` holds of. -/
def upgradeAll (rule : Rule) (keyword : String) (wanted : TypeList → Bool)
    (newLines : TypeList → List Line) (source : Text) : Except Misplaced Outcome := do
  let lines := Text.lines source
  let found := scan rule keyword lines
  let lists := (found.filterMap fun f => match f with
    | .list l => some l
    | .unterminated _ => none).filter wanted
  let edited ← Lines.spliceUpwards lines (lists.map fun l => (l.range, newLines l))
  let skipped := found.filterMap fun f => match f with
    | .list _ => none
    | .unterminated skip => some skip
  return ⟨Text.unlines edited, lists.length, skipped⟩

/-- Turns every list of interfaces into `implements` lines; an empty list goes away. -/
def expandInterfaces (source : Text) : Except Misplaced Outcome :=
  upgradeAll .implements "interfaces" (fun _ => true) implementsLines source

/-- Unwraps every list of possible types; an empty list stays. -/
def unwrapPossibleTypes (source : Text) : Except Misplaced Outcome :=
  upgradeAll .possibleTypes "possible_types" (fun l => !l.call.items.isEmpty) possibleTypesLines
    source

end TypeList

end SchemaLift
