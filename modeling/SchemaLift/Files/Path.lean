import SchemaLift.Text.Lines

/-!
# Paths

A path is a text whose segments are divided by slashes. Empty segments and inner dots mean nothing;
what is left are the parts of the path, which decide when two paths are the same and how they are
ordered: the root before a leading dot, that before a step to the parent, that before a name, and
names by their characters.
-/

namespace SchemaLift

/-- A path as it was written. -/
abbrev Path := Text

inductive PathPart where
  | root
  /-- A dot at the start of a path. -/
  | here
  | parent
  | name (n : Text)
  deriving DecidableEq, Repr

namespace PathPart

/-- Parts are ordered as these sequences are. -/
def orderKey : PathPart → List Nat
  | root => [0]
  | here => [1]
  | parent => [2]
  | name n => 3 :: n.map Char.toNat

end PathPart

namespace Path

def segments (p : Path) : List Text := Text.splitOn '/' p

def isAbsolute (p : Path) : Bool := p.head? == some '/'

/-- Whether a segment leads nowhere. -/
def staysPut (segment : Text) : Bool := segment == [] || segment == ['.']

def isParent (segment : Text) : Bool := segment == ['.', '.']

/-- The part for a segment, unless it leads nowhere. -/
def part? (segment : Text) : Option PathPart :=
  if staysPut segment then none
  else if isParent segment then some .parent
  else some (.name segment)

def parts (p : Path) : List PathPart :=
  match segments p with
  | [] => []
  | first :: rest =>
    let start :=
      if isAbsolute p then some .root else if first = ['.'] then some .here else part? first
    start.toList ++ rest.filterMap part?

/-- The path `q` seen from the directory `p`. An absolute path stays as it is. -/
def join (p q : Path) : Path :=
  if isAbsolute q then q
  else if p.isEmpty || Text.endsWith p '/' then p ++ q
  else p ++ '/' :: q

/-- The path as it is shown: without a dot at its start. -/
def shown (p : Path) : Path :=
  match segments p with
  | ['.'] :: rest => Text.joinWith '/' (rest.dropWhile staysPut)
  | _ => p

def orderKey (p : Path) : List (List Nat) := (parts p).map PathPart.orderKey

/-- Whether `p` comes before `q` or has the same parts. -/
def precedes (p q : Path) : Bool :=
  (List.compareLex (List.compareLex compare) (orderKey p) (orderKey q)).isLE

/-- Puts a path in front of others, in place of the first of them if that is the same path. -/
def consDistinct (p : Path) : List Path → List Path
  | [] => [p]
  | q :: rest => if parts p = parts q then p :: rest else p :: q :: rest

/-- The paths in order, each once; of several spellings the first one is kept. -/
def inOrder (ps : List Path) : List Path := (ps.mergeSort precedes).foldr consDistinct []

end Path

end SchemaLift
