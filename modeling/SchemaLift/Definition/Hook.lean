import SchemaLift.Block.Outline
import SchemaLift.Call.Statement
import SchemaLift.Proc.Literal

/-!
# Type-level hooks

A legacy definition sets `resolve_type`, `coerce_input` and `coerce_result` to procs. Each becomes a
class method of the same name; parameters and body stay as written.
-/

namespace SchemaLift.Hook

def names : List String := ["resolve_type", "coerce_input", "coerce_result"]

/-- Whether a token can start the proc of a hook. -/
def startsProc (t : Token) : Bool :=
  t.is .arrow || t.isWord "lambda" || t.isWord "proc" || (t.is .lparen && t.gap.isEmpty)

def on? (line : Line) : Option String :=
  match tokenizeCode line with
  | first :: next :: _ =>
    (names.find? first.isWord).bind fun hook => if startsProc next then some hook else none
  | _ => none

/-- The class method for the hook statement on the lines `index` through `last`. -/
def method (lines : List Line) (hook : String) (index last : Nat) (line : Line) :
    Except SkipReason (List Line) := do
  let statement ←
    match Statement.parse (Lines.extent lines index last) with
    | some s => .ok s
    | none => .error (.unsupportedResolver (Text.trim line))
  let proc ← ProcLiteral.parse statement.value
  let header := "self.".toList ++ hook.toList ++ '(' :: ", ".toList.intercalate proc.parameters ++
    ')' :: statement.comments.flatMap (' ' :: ·)
  return ProcLiteral.methodLines (Text.indentation line) header (ProcLiteral.bodyLines proc.body)

/-- What a scan finds: a method in place of a range of lines, or a skipped statement. -/
inductive Found where
  | method (range : LineRange) (lines : List Line)
  | skipped (skip : Skip)
  deriving DecidableEq, Repr

/-- Scans the lines `rest`, the first of which is line `index`, when the next `taken` lines belong
to a statement. -/
def scanFrom (lines : List Line) (outline : Outline) (taken index : Nat) : List Line → List Found
  | [] => []
  | line :: rest =>
    match taken with
    | taken + 1 => scanFrom lines outline taken (index + 1) rest
    | 0 =>
      match on? line with
      | none => scanFrom lines outline 0 (index + 1) rest
      | some hook =>
        match outline.statementEnd index with
        | none =>
          .skipped (Skip.atLine .classProc index line (.unbalancedBlock (Text.trim line))) ::
            scanFrom lines outline 0 (index + 1) rest
        | some last =>
          (match method lines hook index last line with
            | .ok new => .method ⟨index, last⟩ new
            | .error reason => .skipped (Skip.atLine .classProc index line reason)) ::
            scanFrom lines outline (last - index) (index + 1) rest

def scan (lines : List Line) : List Found := scanFrom lines (Outline.ofLines lines) 0 0 lines

/-- Turns every hook that is a proc into a class method. -/
def upgradeAll (source : Text) : Except Misplaced Outcome := do
  let lines := Text.lines source
  let found := scan lines
  let methods := found.filterMap fun f => match f with
    | .method range new => some (range, new)
    | .skipped _ => none
  let edited ← Lines.spliceUpwards lines methods
  let skipped := found.filterMap fun f => match f with
    | .method _ _ => none
    | .skipped skip => some skip
  return ⟨Text.unlines edited, methods.length, skipped⟩

end SchemaLift.Hook
