import SchemaLift.Text.Lines

/-!
# Indentation

The indentation of a line is its run of leading spaces and tabs, and nothing else that is blank.
`dedent` takes the narrowest indentation of the lines that are not blank away from all of them.
-/

namespace SchemaLift.Text

/-- The leading spaces and tabs of a line. -/
def indentation (line : Line) : Text := line.takeWhile fun c => c == ' ' || c == '\t'

/-- The width of the narrowest indentation among the lines that are not blank. -/
def commonIndent (lines : List Line) : Nat :=
  ((lines.filter fun l => !isBlank l).map fun l => (indentation l).length).min?.getD 0

/-- The lines without their common indentation and without trailing white space; blank lines become
empty. -/
def dedent (lines : List Line) : List Line :=
  lines.map fun l => if isBlank l then [] else trimEnd (l.drop (commonIndent lines))

theorem length_dedent (lines : List Line) : (dedent lines).length = lines.length := by
  simp [dedent]

end SchemaLift.Text
