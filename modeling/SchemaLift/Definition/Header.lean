import SchemaLift.Block.Outline
import SchemaLift.Definition.Kind
import SchemaLift.Text.Match
import SchemaLift.Upgrade.Skip

/-!
# Headers of definitions

The line `Name = GraphQL::ObjectType.define do` becomes `class Name < Types::BaseObject`, with its
indentation and its comment, if the block that it opens is closed. The block itself stays.
-/

namespace SchemaLift

/-- The parts of a line that opens a legacy definition. -/
structure DefinitionHeader where
  indent : Text
  name : Text
  kind : Text
  /-- The comment at the end of the line, if any. -/
  comment : Text
  deriving DecidableEq, Repr

namespace DefinitionHeader

/-- A constant path at the head of a text, and the text after it. -/
def constantPath? (s : Text) : Option (Text × Text) :=
  match s with
  | [] => none
  | c :: cs =>
    if c.isUpper then
      let n := Scan.constantTail cs
      some (c :: cs.take n, cs.drop n)
    else none

def parse? (line : Line) : Option DefinitionHeader := do
  let (indent, s) := Text.spanOf (fun c => c == ' ' || c == '\t') line
  let (name, s) ← constantPath? s
  let s ← Text.afterWord? "=" (Text.afterBlank s)
  let s ← Text.afterWord? "GraphQL::" (Text.afterBlank s)
  let (kind, s) := Text.spanOf Char.isAlpha s
  if kind.isEmpty then none
  let s ← Text.afterWord? ".define" s
  let s ← Text.afterSomeBlank? s
  let s ← Text.afterWord? "do" s
  let comment ← Text.finalComment? (Text.afterBlank s)
  return ⟨indent, name, kind, comment⟩

/-- The class header for a definition of a kind. -/
def classLine (baseNamespace : Text) (h : DefinitionHeader) (kind : DefinitionKind) : Line :=
  h.indent ++ "class ".toList ++ h.name ++ " < ".toList ++ kind.superclass baseNamespace ++
    (if h.comment.isEmpty then [] else ' ' :: h.comment)

/-- What becomes of one line. -/
inductive LineResult where
  | kept
  | replaced (line : Line)
  | skipped (skip : Skip)
  deriving DecidableEq, Repr

def upgradeLine (baseNamespace : Text) (outline : Outline) (index : Nat) (line : Line) :
    LineResult :=
  match parse? line with
  | none => .kept
  | some h =>
    match DefinitionKind.ofLegacyName? h.kind with
    | none => .kept
    | some kind =>
      if (outline.matchBlock index).isSome then .replaced (h.classLine baseNamespace kind)
      else .skipped (Skip.atLine .typeDefinition index line (.unbalancedBlock (Text.trim line)))

/-- Upgrades every header of a legacy definition. -/
def upgradeAll (baseNamespace source : Text) : Outcome :=
  let lines := Text.lines source
  let outline := Outline.ofLines lines
  let results := lines.zipIdx.map fun (line, index) => upgradeLine baseNamespace outline index line
  let edited := List.zipWith (fun line result =>
    match result with
    | .replaced new => new
    | _ => line) lines results
  { text := Text.unlines edited
    changes := results.countP fun r => match r with
      | .replaced _ => true
      | _ => false
    skipped := results.filterMap fun r => match r with
      | .skipped skip => some skip
      | _ => none }

end DefinitionHeader

end SchemaLift
