import SchemaLift.Block.Outline
import SchemaLift.Call.Signature
import SchemaLift.Call.Statement
import SchemaLift.Upgrade.Skip

/-!
# Declarations

A declaration is a call with a name, such as `field :name, types.String do ... end`, located in the
lines of a text: its header, its block if it opens one, and the statements directly inside. Its
statements are read from the text as it stands when it is edited; `reassemble` builds the lines
that replace it.
-/

namespace SchemaLift

structure Declaration where
  start : Nat
  /-- The last line of the header. -/
  headerEnd : Nat
  block : Option Block
  /-- The statements directly inside the block. -/
  children : List LineRange
  signature : Signature
  deriving DecidableEq, Repr

/-- Lines that leave a declaration: all that lie in one of the ranges. -/
abbrev Removed := List LineRange

def Removed.covers (removed : Removed) (index : Nat) : Bool := removed.any (·.contains index)

namespace Declaration

/-- The last line of the declaration with its block. -/
def stop (d : Declaration) : Nat :=
  match d.block with
  | some b => b.stop
  | none => d.headerEnd

def range (d : Declaration) : LineRange := ⟨d.start, d.stop⟩

def statementAt (lines : List Line) (r : LineRange) : Except Misplaced (Option Statement) :=
  (Lines.join lines r).map Statement.parse

def statementsAt (lines : List Line) :
    List LineRange → Except Misplaced (List (LineRange × Statement))
  | [] => .ok []
  | r :: rest => do
    let statement ← statementAt lines r
    let statements ← statementsAt lines rest
    return (statement.map fun s => (r, s)).toList ++ statements

def statements (d : Declaration) (lines : List Line) :
    Except Misplaced (List (LineRange × Statement)) :=
  statementsAt lines d.children

/-- The first statement with a property; the ranges after it are not read. -/
def findAt (lines : List Line) (p : LineRange → Statement → Bool) :
    List LineRange → Except Misplaced (Option (LineRange × Statement))
  | [] => .ok none
  | r :: rest => do
    match ← statementAt lines r with
    | some s => if p r s then return some (r, s) else findAt lines p rest
    | none => findAt lines p rest

/-- The first statement of the block that has a value and one of the keywords. -/
def findStatement (d : Declaration) (lines : List Line) (keywords : List String) :
    Except Misplaced (Option (LineRange × Statement)) :=
  findAt lines
    (fun _ s => keywords.any (fun k => k.toList == s.keyword) && !s.value.isEmpty) d.children

/-- Whether the block has a statement with this keyword whose first line stays. -/
def retains (d : Declaration) (lines : List Line) (keyword : String) (removed : Removed) :
    Except Misplaced Bool :=
  (findAt lines (fun r s => s.keyword == keyword.toList && !removed.covers r.first)
    d.children).map Option.isSome

def trimBlankEnds (lines : List Line) : List Line :=
  ((lines.dropWhile Text.isBlank).reverse.dropWhile Text.isBlank).reverse

/-- Whether a line starts with an `end`. -/
def closesBlock (line : Line) : Bool := (tokenizeCode line).head?.any (·.is .endWord)

/-- The lines of the block's body that stay, blank ones at its ends aside. -/
def remainingBody (d : Declaration) (lines : List Line) (removed : Removed) :
    Except Misplaced (List Line) :=
  match d.block with
  | none => .ok []
  | some b => do
    let body ← (b.body.filter (!removed.covers ·)).mapM (Lines.line lines)
    return trimBlankEnds body

/-- The lines that replace a declaration: its new header, what remains of its block, and a trailer
after a blank line. A blank line also follows the trailer, unless the text ends there or goes on
with a blank line or an `end`. A block of which nothing remains goes away. -/
def reassemble (d : Declaration) (lines : List Line) (signature : Signature) (removed : Removed)
    (trailer : List Line) : Except Misplaced (List Line) := do
  let body ← d.remainingBody lines removed
  let rest : List Line ←
    match d.block with
    | none => .ok []
    | some b =>
      if body.isEmpty then .ok [] else (Lines.line lines b.stop).map fun closer => body ++ [closer]
  let signature := if body.isEmpty then { signature with block := none } else signature
  let separated :=
    if trailer.isEmpty then []
    else
      let next := lines[d.stop + 1]?
      let spaced := next.any fun l => !Text.isBlank l && !closesBlock l
      [] :: trailer ++ (if spaced then [[]] else [])
  return signature.render :: rest ++ separated

end Declaration

end SchemaLift
