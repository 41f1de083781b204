/-!
# Edit scripts

A script tells how one list becomes another by keeping, deleting and inserting entries. `script`
keeps as many entries as possible, and within a stretch of changes it deletes before it inserts. Its
two sides are `old` and `new`.
-/

namespace SchemaLift.Diff

inductive Change (α : Type) where
  | keep (a : α)
  | delete (a : α)
  | insert (a : α)
  deriving DecidableEq, Repr

namespace Change

variable {α : Type}

def value : Change α → α
  | keep a | delete a | insert a => a

def isKept : Change α → Bool
  | keep _ => true
  | _ => false

def inOld : Change α → Bool
  | insert _ => false
  | _ => true

def inNew : Change α → Bool
  | delete _ => false
  | _ => true

def old (script : List (Change α)) : List α := (script.filter inOld).map value

def new (script : List (Change α)) : List α := (script.filter inNew).map value

end Change

variable {α : Type} [DecidableEq α]

/-- For every end of `new`, the longest first, the most entries that `a :: old` can keep on the way
to it; `below` holds the same numbers for `old`. -/
def keptRow (a : α) : List α → List Nat → List Nat
  | b :: bs, next :: diagonal :: further =>
    let row := keptRow a bs (diagonal :: further)
    (if a = b then diagonal + 1 else max next (row.headD 0)) :: row
  | _, _ => [0]

/-- The rows of `keptRow` for every end of `old`, the longest first. -/
def keptTable (old new : List α) : List (List Nat) :=
  old.foldr (fun a table => keptRow a new (table.headD []) :: table)
    [List.replicate (new.length + 1) 0]

/-- Follows a table from its corner. The first two rows are those of `old` and of its tail. -/
def follow : (old new : List α) → (table : List (List Nat)) → List (Change α)
  | [], new, _ => new.map .insert
  | old, [], _ => old.map .delete
  | a :: as, b :: bs, table =>
    if a = b then .keep a :: follow as bs (table.tail.map List.tail)
    else
      let right := (table.headD []).tail.headD 0
      let down := (table.tail.headD []).headD 0
      if right ≤ down then .delete a :: follow as (b :: bs) table.tail
      else .insert b :: follow (a :: as) bs (table.map List.tail)
  termination_by old new => old.length + new.length

/-- The script with the deletions of every stretch of changes before its insertions. The insertions
`waiting` come next. -/
def deletionsFirst (waiting : List α) : List (Change α) → List (Change α)
  | [] => waiting.map .insert
  | .keep a :: rest => waiting.map .insert ++ .keep a :: deletionsFirst [] rest
  | .delete a :: rest => .delete a :: deletionsFirst waiting rest
  | .insert a :: rest => deletionsFirst (waiting ++ [a]) rest

/-- A script from one list to another that keeps as much as possible. -/
def script (old new : List α) : List (Change α) :=
  deletionsFirst [] (follow old new (keptTable old new))

end SchemaLift.Diff
