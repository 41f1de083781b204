import SchemaLift.Block.Outline
import SchemaLift.Definition.Kind
import SchemaLift.Text.Match
import SchemaLift.Upgrade.Skip

/-!
# Name statements

A class over one of the base classes needs no `name "X"` when its own name, with or without a `Type`
at the end, already gives `X`; the statement is then deleted, together with a blank line that it
would leave under the class header. Otherwise it becomes `graphql_name "X"`.
-/

namespace SchemaLift

/-- The parts of a line that opens a class with a superclass. -/
structure ClassHeader where
  name : Text
  superclass : Text
  deriving DecidableEq, Repr

def ClassHeader.parse? (line : Line) : Option ClassHeader := do
  let isPathChar (c : Char) : Bool := Scan.isWordChar c || c == ':'
  let s ← Text.afterWord? "class" (Text.afterBlank line)
  let s ← Text.afterSomeBlank? s
  let (name, s) ← Text.capitalized? isPathChar s
  let s ← Text.afterWord? "<" (Text.afterBlank s)
  let (superclass, _) ← Text.capitalized? isPathChar (Text.afterBlank s)
  return ⟨name, superclass⟩

namespace NameStatement

/-- A quoted name at the head of a text, and the text after it. In double quotes it holds neither
backslash nor interpolation, in single quotes no backslash. -/
def quoted? (s : Text) : Option (Text × Text) :=
  match s with
  | '"' :: cs =>
    let (name, rest) := Text.spanOf (fun c => c != '"' && c != '\\' && c != '#') cs
    (Text.afterWord? "\"" rest).map fun rest => (name, rest)
  | '\'' :: cs =>
    let (name, rest) := Text.spanOf (fun c => c != '\'' && c != '\\') cs
    (Text.afterWord? "'" rest).map fun rest => (name, rest)
  | _ => none

/-- The name that a line `name "X"` declares. -/
def parse? (line : Line) : Option Text := do
  let s ← Text.afterWord? "name" (Text.afterBlank line)
  let s := Text.afterBlank s
  let s := Text.afterBlank ((Text.afterWord? "(" s).getD s)
  let (name, s) ← quoted? s
  let s := Text.afterBlank s
  let s := Text.afterBlank ((Text.afterWord? ")" s).getD s)
  let _ ← Text.finalComment? s
  return name

/-- Whether a class name gives the declared name by itself. -/
def isInferable (declared className : Text) : Bool :=
  let camel := Name.camelize declared
  let last := Name.unqualified className
  camel == last || camel ++ "Type".toList == last

/-- What to do with the statement on a line. -/
inductive NameEdit where
  | delete (index : Nat)
  | rename (index : Nat)
  deriving DecidableEq, Repr

def NameEdit.index : NameEdit → Nat
  | delete i | rename i => i

/-- The edit that the class on line `index` asks for, if any. Only the first name statement directly
inside counts. -/
def editAt (lines : List Line) (outline : Outline) (index : Nat) (line : Line) :
    Option NameEdit := do
  let header ← ClassHeader.parse? line
  if !DefinitionKind.isBaseClass header.superclass then none
  let block ← outline.matchBlock index
  let (target, declared) ← (outline.children block).findSome? fun child =>
    (lines[child.first]?.bind parse?).map fun declared => (child.first, declared)
  return if isInferable declared header.name then .delete target else .rename target

/-- The line with its first token `name` renamed. -/
def renamed (line : Line) : Line :=
  replaceTokens (fun before t _ =>
    if before.isEmpty && t.isWord "name" then some "graphql_name".toList else none) line

/-- Carries out one edit on the text as it stands. -/
def apply (lines : List Line) : NameEdit → Except Misplaced (List Line)
  | .rename index => do
    let line ← Lines.line lines index
    Lines.splice lines ⟨index, index⟩ [renamed line]
  | .delete index => do
    let headerAbove ←
      if index = 0 then .ok false
      else (Lines.line lines (index - 1)).map fun l => (ClassHeader.parse? l).isSome
    let blankBelow := lines[index + 1]?.any Text.isBlank
    Lines.splice lines ⟨index, if headerAbove && blankBelow then index + 1 else index⟩ []

/-- Deletes or renames the name statement of every class, from the bottom up. -/
def upgradeAll (source : Text) : Except Misplaced Outcome := do
  let lines := Text.lines source
  let outline := Outline.ofLines lines
  let edits := lines.zipIdx.filterMap fun (line, index) => editAt lines outline index line
  let upwards := edits.mergeSort fun a b => b.index ≤ a.index
  let edited ← upwards.foldlM apply lines
  return ⟨Text.unlines edited, edits.length, []⟩

end NameStatement

end SchemaLift
