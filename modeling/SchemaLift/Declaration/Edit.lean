import SchemaLift.Declaration.Scan

/-!
# Editing the declarations of a text

The declarations of one keyword are found once and then edited from the bottom up, so that a new
declaration never moves those above it. A declaration inside the block of another one comes first,
and the outer one is then read with the line numbers it was found with; where these no longer fit
the text, the edit ends with `Misplaced`.
-/

namespace SchemaLift

structure Edit where
  /-- The lines that replace it, if any. -/
  replacement : Option (List Line)
  skipped : List SkipReason
  deriving DecidableEq, Repr

namespace Edit

def keep : Edit := ⟨none, []⟩

def replace (lines : List Line) : Edit := ⟨some lines, []⟩

def skip (reason : SkipReason) : Edit := ⟨none, [reason]⟩

end Edit

namespace Declaration

/-- What a rule does with a declaration in the lines of a text. -/
abbrev Revision := Declaration → List Line → Except Misplaced Edit

structure Progress where
  lines : List Line
  changes : Nat
  skipped : List Skip
  deriving DecidableEq, Repr

/-- Carries out one edit. A replacement that equals the lines it replaces is no change. -/
def applyEdit (rule : Rule) (p : Progress) (d : Declaration) (edit : Edit) :
    Except Misplaced Progress := do
  let skipped ← edit.skipped.mapM fun reason => do
    return Skip.atLine rule d.start (← Lines.line p.lines d.start) reason
  let p := { p with skipped := skipped.reverse ++ p.skipped }
  match edit.replacement with
  | none => return p
  | some replacement =>
    if replacement = (← Lines.slice p.lines d.range) then return p
    else
      return { p with
        lines := ← Lines.splice p.lines d.range replacement
        changes := p.changes + 1 }

/-- Handles what was found at one place, in the text as it stands. -/
def handle (rule : Rule) (revise : Revision) (p : Progress) : Found → Except Misplaced Progress
  | .failed index reason => do
    let line ← Lines.line p.lines index
    return { p with skipped := Skip.atLine rule index line reason :: p.skipped }
  | .declaration d => do applyEdit rule p d (← revise d p.lines)

/-- Handles everything that was found, the last first. -/
def handleAll (rule : Rule) (revise : Revision) (lines : List Line) :
    List Found → Except Misplaced Progress
  | [] => .ok ⟨lines, 0, []⟩
  | found :: rest => do handle rule revise (← handleAll rule revise lines rest) found

/-- Edits every declaration of a keyword. -/
def upgradeAll (rule : Rule) (keyword : String) (revise : Revision) (source : Text) :
    Except Misplaced Outcome := do
  let lines := Text.lines source
  let p ← handleAll rule revise lines (scan lines keyword)
  return ⟨Text.unlines p.lines, p.changes, p.skipped⟩

end Declaration

end SchemaLift
