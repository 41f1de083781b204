import SchemaLift.Declaration.Basic

/-!
# Finding declarations

A text is scanned from top to bottom for the calls of one keyword. After a declaration the scan goes
on below its header, so declarations inside its block are found as well. A call whose block or
brackets stay open is reported with the reason, and the scan goes on with the next line.
-/

namespace SchemaLift.Declaration

/-- Whether a line starts a call `keyword :name`, `keyword "name"` or `keyword(`. -/
def startsOn (keyword : String) (line : Line) : Bool :=
  match tokenizeCode line with
  | first :: next :: _ =>
    first.isWord keyword &&
      (next.is .symbol || next.is .doubleQuoted || next.is .singleQuoted ||
        (next.is .lparen && next.gap.isEmpty))
  | _ => false

/-- The declaration that starts on line `start`. When its header opens a block that is not the
call's own, as in `resolve: ->(obj, args, ctx) do`, the header reaches to the end of the
statement. -/
def locate (lines : List Line) (outline : Outline) (keyword : String) (start : Nat) :
    Except SkipReason Declaration := do
  let unterminated := SkipReason.unterminatedStatement keyword.toList
  let unbalanced := SkipReason.unbalancedBlock (Text.trim (lines[start]?.getD []))
  let parse (last : Nat) : Except SkipReason Signature :=
    match Signature.parse (Lines.extent lines start last) with
    | some s => .ok s
    | none => .error unterminated
  match outline.headerEnd start with
  | none => .error unterminated
  | some headerEnd =>
    let signature ← parse headerEnd
    if !outline.opensBlock headerEnd then return ⟨start, headerEnd, none, [], signature⟩
    else if signature.block.isSome then
      match outline.matchBlock headerEnd with
      | some b => return ⟨start, headerEnd, some b, outline.children b, signature⟩
      | none => .error unbalanced
    else
      match outline.statementEnd start with
      | none => .error unbalanced
      | some last =>
        let signature ← parse last
        return ⟨start, last, none, [], signature⟩

/-- A declaration, or the line of a call that is none and the reason. -/
inductive Found where
  | declaration (d : Declaration)
  | failed (index : Nat) (reason : SkipReason)
  deriving DecidableEq, Repr

/-- Scans the lines `rest`, the first of which is line `index`, when the next `taken` lines belong
to a header. -/
def scanFrom (lines : List Line) (outline : Outline) (keyword : String) (taken index : Nat) :
    List Line → List Found
  | [] => []
  | line :: rest =>
    match taken with
    | taken + 1 => scanFrom lines outline keyword taken (index + 1) rest
    | 0 =>
      if startsOn keyword line then
        match locate lines outline keyword index with
        | .ok d =>
          .declaration d :: scanFrom lines outline keyword (d.headerEnd - index) (index + 1) rest
        | .error reason => .failed index reason :: scanFrom lines outline keyword 0 (index + 1) rest
      else scanFrom lines outline keyword 0 (index + 1) rest

def scan (lines : List Line) (keyword : String) : List Found :=
  scanFrom lines (Outline.ofLines lines) keyword 0 0 lines

end SchemaLift.Declaration
