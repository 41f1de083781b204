import SchemaLift.Console.Environment
import SchemaLift.Console.Invocation
import SchemaLift.Diagnostic
import SchemaLift.Diff.Script
import SchemaLift.Files.Tree
import SchemaLift.Json

/-!
# What a run leaves to libraries

Reading a command line or a settings file, finding the files that match a pattern, comparing texts
line by line, and the look of what is printed are not the program's own work. `Libraries` has a
function for each of them, and a run takes it as a parameter: nothing is assumed of these functions
but that each is one.
-/

namespace SchemaLift.Console

/-- What is printed in place of any work, such as help, with the exit code. -/
structure Ending where
  output : Text
  messages : Text
  exitCode : Nat
  deriving DecidableEq, Repr

/-- How a piece of text is shown where colors are. -/
inductive Style where
  | success
  | failure
  | fileName
  | inserted
  | deleted
  | hunk
  | plain
  deriving DecidableEq, Repr

structure Libraries where
  /-- Reads a command line, or tells how the run ends without it. -/
  readArguments : Environment → List Text → Except Ending Invocation
  /-- Reads a settings file, or tells what is wrong with it. -/
  readSettings : Text → Except Text Settings
  /-- What matches a pattern, or what is wrong with the pattern. Where something cannot be looked
  at, a message takes its place. -/
  glob : FileTree → Text → Except Text (List (Except Text Path))
  /-- How the lines of one text become those of another. -/
  lineScript : Text → Text → List (Diff.Change Text)
  /-- The differences of two texts under their names, with unchanged lines around each. -/
  unifiedDiff : (context : Nat) → (oldName newName old new : Text) → Text
  compactJson : JsonValue → Text
  prettyJson : JsonValue → Text
  /-- Explains a diagnostic on a source. -/
  explain : (name source : Text) → Diagnostic → Text
  /-- Tells of a task in which a rule lost its way. -/
  panicMessage : Path → Misplaced → Text
  /-- What a question at the terminal leaves there, with its answer. -/
  dialog : (question : Text) → Answer → Text
  paint : Style → Text → Text
  completions : Shell → Text

end SchemaLift.Console
