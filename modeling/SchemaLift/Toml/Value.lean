import SchemaLift.Text.Blank

/-!
# TOML tables

A document is one table. A table remembers how it came about, because that decides what may still be
added to it: a table with a header is defined once, one that only stands in the path of a header may
still get a header of its own, one made by dotted keys grows by dotted keys only, and an inline
table is closed.
-/

namespace SchemaLift.Toml

/-- How a table came about. -/
inductive Origin where
  /-- It has a header, or is the document. -/
  | header
  /-- It stands in the path of a header. -/
  | implied
  /-- Dotted keys made it. -/
  | dotted
  /-- It is written inline. -/
  | inline
  /-- Dotted keys inside an inline table made it. -/
  | inlineDotted
  deriving DecidableEq, Repr

inductive Value where
  | string (s : Text)
  | integer (n : Int)
  | float (written : Text)
  | boolean (b : Bool)
  | dateTime (written : Text)
  | array (items : List Value)
  | table (origin : Origin) (entries : List (Text × Value))
  /-- The tables of `[[name]]` headers, the last one first. -/
  | tables (items : List (List (Text × Value)))

/-- The entries of a table in the order in which they were added. -/
abbrev Entries := List (Text × Value)

/-- Why a text is no document. -/
inductive Problem where
  | unexpected
  | unclosed
  | badEscape
  | badNumber
  | badDate
  | tooDeep
  | duplicateKey (key : Text)
  | notATable (key : Text)
  deriving DecidableEq, Repr

def Problem.message : Problem → Text
  | unexpected => "unexpected character".toList
  | unclosed => "unclosed value".toList
  | badEscape => "invalid escape sequence".toList
  | badNumber => "invalid number".toList
  | badDate => "invalid date or time".toList
  | tooDeep => "nested too deeply".toList
  | duplicateKey key => "duplicate key '".toList ++ key ++ ['\'']
  | notATable key => "key '".toList ++ key ++ "' is no table".toList

namespace Entries

def find? (es : Entries) (key : Text) : Option Value := (List.find? (·.1 == key) es).map Prod.snd

/-- Replaces the value of a key, or adds the key at the end. -/
def set (es : Entries) (key : Text) (v : Value) : Entries :=
  match es with
  | [] => [(key, v)]
  | e :: rest => if e.1 = key then (key, v) :: rest else e :: set rest key v

/-- Adds a key that the table does not have yet. -/
def add (es : Entries) (key : Text) (v : Value) : Except Problem Entries :=
  if (es.find? key).isSome then .error (.duplicateKey key) else .ok (es ++ [(key, v)])

/-- Changes the table at the end of a path of dotted keys. Missing tables get the origin `made`;
only tables that dotted keys made or that a header implies may be entered, and only one that dotted
keys made may be changed. -/
def atDotted (made : Origin) (change : Entries → Except Problem Entries) :
    (path : List Text) → Entries → Except Problem Entries
  | [], es => change es
  | key :: path, es => do
    match es.find? key with
    | none => return es.set key (.table made (← atDotted made change path []))
    | some (.table origin inner) =>
      let enterable := origin = made ∨ (origin = .implied ∧ made = .dotted)
      if ¬ enterable ∨ (path.isEmpty ∧ origin ≠ made) then .error (.duplicateKey key)
      else return es.set key (.table origin (← atDotted made change path inner))
    | some (.tables (last :: before)) =>
      if made = .dotted ∧ ¬ path.isEmpty then
        return es.set key (.tables ((← atDotted made change path last) :: before))
      else .error (.duplicateKey key)
    | some _ => .error (.notATable key)

/-- Changes the table at the end of a header's path. Missing tables are implied; of the tables of
`[[name]]` headers the last one is meant. -/
def atHeader (change : Entries → Except Problem Entries) :
    (path : List Text) → Entries → Except Problem Entries
  | [], es => change es
  | key :: path, es => do
    match es.find? key with
    | none => return es.set key (.table .implied (← atHeader change path []))
    | some (.table origin inner) =>
      if origin = .inline ∨ origin = .inlineDotted then .error (.notATable key)
      else return es.set key (.table origin (← atHeader change path inner))
    | some (.tables (last :: before)) =>
      return es.set key (.tables ((← atHeader change path last) :: before))
    | some _ => .error (.notATable key)

/-- Opens the table `key` by a header of its own. -/
def openTable (key : Text) (es : Entries) : Except Problem Entries :=
  match es.find? key with
  | none => .ok (es.set key (.table .header []))
  | some (.table .implied inner) => .ok (es.set key (.table .header inner))
  | some _ => .error (.duplicateKey key)

/-- Opens one more table `key` by a header in double brackets. -/
def openElement (key : Text) (es : Entries) : Except Problem Entries :=
  match es.find? key with
  | none => .ok (es.set key (.tables [[]]))
  | some (.tables items) => .ok (es.set key (.tables ([] :: items)))
  | some _ => .error (.duplicateKey key)

/-- Adds `value` under a path of dotted keys. -/
def insert (made : Origin) (path : List Text) (key : Text) (value : Value) (es : Entries) :
    Except Problem Entries :=
  atDotted made (fun es => es.add key value) path es

end Entries

end SchemaLift.Toml
