import SchemaLift.Block.Shape

/-!
# Blocks and statements over lines

The outline of a text is the list of its line shapes. A block runs from a line whose first event
opens one to the line that brings the depth back to zero; a statement runs on through commas,
brackets and blocks; a header is the part of a statement before the body of its block.
-/

namespace SchemaLift

/-- The lines from the one that opens a block through the one that closes it. -/
structure Block where
  start : Nat
  stop : Nat
  deriving DecidableEq, Repr

namespace Block

/-- The indices of the lines strictly between the opener and the closer. -/
def body (b : Block) : List Nat := (List.range (b.stop - (b.start + 1))).map (b.start + 1 + ·)

def isSingleLine (b : Block) : Bool := b.start == b.stop

end Block

abbrev Outline := List LineShape

namespace Outline

def ofLines (lines : List Line) : Outline := lines.map LineShape.ofLine

/-- Whether the line at `index` opens more blocks than it closes. -/
def opensBlock (o : Outline) (index : Nat) : Bool := o[index]?.any fun shape => 0 < shape.depth

/-- The depth after the events, if none of them brings it to zero or below. -/
def depthAfter (depth : Nat) : List BlockEvent → Option Nat
  | [] => some depth
  | .opens :: es => depthAfter (depth + 1) es
  | .closes :: es => if depth ≤ 1 then none else depthAfter (depth - 1) es

/-- The first of the lines, counted from `index`, on which the depth comes to zero. -/
def closingLine (depth index : Nat) : List (List BlockEvent) → Option Nat
  | [] => none
  | events :: rest =>
    match depthAfter depth events with
    | none => some index
    | some depth => closingLine depth (index + 1) rest

/-- The block whose opener is the first event on line `start`. -/
def matchBlock (o : Outline) (start : Nat) : Option Block :=
  match (o.drop start).map LineShape.events with
  | (.opens :: es) :: rest => (closingLine 1 start (es :: rest)).map fun stop => ⟨start, stop⟩
  | _ => none

/-- The last line of a statement, counted from `index`, with the depths before it. -/
def statementEndFrom (blocks brackets : Int) (index : Nat) : List LineShape → Option Nat
  | [] => none
  | s :: rest =>
    let blocks := blocks + s.depth
    let brackets := brackets + s.brackets
    if blocks < 0 ∨ brackets < 0 ∨ (blocks = 0 ∧ brackets = 0 ∧ !s.continues) then some index
    else statementEndFrom blocks brackets (index + 1) rest

def statementEnd (o : Outline) (start : Nat) : Option Nat :=
  statementEndFrom 0 0 start (o.drop start)

/-- The last line of a call header, counted from `index`, with the bracket depth before it. -/
def headerEndFrom (brackets : Int) (index : Nat) : List LineShape → Option Nat
  | [] => none
  | s :: rest =>
    let brackets := brackets + s.brackets
    if brackets < 0 ∨ (brackets = 0 ∧ !s.continues) then some index
    else headerEndFrom brackets (index + 1) rest

/-- The last line of the call header that begins on line `start`; the body of a trailing block is no
part of it. -/
def headerEnd (o : Outline) (start : Nat) : Option Nat := headerEndFrom 0 start (o.drop start)

/-- The statements on the lines `body`, the first of which is line `index`, when the next `taken`
lines belong to the statement before. A statement ends with line `last` at the latest. -/
def childrenFrom (o : Outline) (last taken index : Nat) : List LineShape → List LineRange
  | [] => []
  | s :: rest =>
    match taken with
    | taken + 1 => childrenFrom o last taken (index + 1) rest
    | 0 =>
      if s.isEmpty then childrenFrom o last 0 (index + 1) rest
      else
        let stop := min ((statementEnd o index).getD last) last
        ⟨index, stop⟩ :: childrenFrom o last (stop - index) (index + 1) rest

/-- The statements directly inside a block. Lines without code start none. -/
def children (o : Outline) (b : Block) : List LineRange :=
  childrenFrom o (b.stop - 1) 0 (b.start + 1)
    ((o.drop (b.start + 1)).take (b.stop - (b.start + 1)))

end Outline

end SchemaLift
