import SchemaLift.Token.Stream
import SchemaLift.Upgrade.Skip

/-!
# Diagnostics

A diagnostic explains a skipped construct and points into the source that was upgraded. The line
number of a skip belongs to the text that the rule saw, which earlier rules may have shifted; so the
line is found by its text, and the number only decides between equal lines.
-/

namespace SchemaLift

structure Diagnostic where
  message : Text
  label : String
  span : Span
  help : String
  deriving DecidableEq, Repr

namespace Diagnostic

/-- The text at the marked place. -/
def labelOf : SkipReason → String
  | .unbalancedBlock _ => "block never closed"
  | .unterminatedStatement _ => "statement never closed"
  | .unrecognizedType _ => "type left as written"
  | .missingType _ => "no type given"
  | .unsupportedResolver _ => "resolver kept in the block"

/-- What can be done about it. -/
def helpOf : SkipReason → String
  | .unbalancedBlock _ => "Check that every `do` has a matching `end`."
  | .unterminatedStatement _ => "Close the open bracket or parenthesis."
  | .unrecognizedType _ =>
    "Use a constant, `types.X`, `types[X]` or `!X`, or upgrade this declaration by hand."
  | .missingType _ =>
    "Add a `type` statement to the block or a type argument to the declaration."
  | .unsupportedResolver _ => "Move the resolver into a method by hand."

/-- The span of a line's text without surrounding white space; the line starts at `offset`. -/
def lineSpan (offset : Nat) (line : Line) : Span :=
  let start := offset + Text.utf8Size (line.takeWhile Text.isBlankChar)
  ⟨start, start + Text.utf8Size (Text.trim line)⟩

/-- The lines of a text that starts at byte `offset`, with their spans. -/
def spansFrom (offset : Nat) : List Line → List (Line × Span)
  | [] => []
  | line :: rest =>
    (line, lineSpan offset line) :: spansFrom (offset + Text.utf8Size line + 1) rest

def distance (a b : Nat) : Nat := (a - b) + (b - a)

/-- The nearer of two places, the first one if they are equally near. -/
def nearer (reported : Nat) (best : Option (Nat × Span)) (place : Nat × Span) :
    Option (Nat × Span) :=
  match best with
  | none => some place
  | some b => if distance place.1 reported < distance b.1 reported then some place else some b

/-- Where a skipped construct stands in a source: the line with its text that is nearest to the
reported one, or else the reported line, or else the start. -/
def locate (source : Text) (skip : Skip) : Span :=
  let reported := skip.line - 1
  let lines := spansFrom 0 (Text.lines source)
  let matching := lines.zipIdx.filterMap fun ((line, span), index) =>
    if !skip.snippet.isEmpty && Text.trim line == skip.snippet then some (index, span) else none
  match matching.foldl (nearer reported) none with
  | some (_, span) => span
  | none => (lines[reported]?.map Prod.snd).getD ⟨0, 0⟩

def ofSkip (source : Text) (skip : Skip) : Diagnostic :=
  { message := (skip.rule.id ++ " rule skipped: ").toList ++ skip.reason.message
    label := labelOf skip.reason
    span := locate source skip
    help := helpOf skip.reason }

end Diagnostic

end SchemaLift
