import SchemaLift.Files.Path

/-!
# The environment of a run

What a run finds beside its files and its command line: some variables, and whether somebody is
there to be asked. Standard error is a terminal exactly if there is an answer.
-/

namespace SchemaLift.Console

/-- What becomes of a question that is asked at a terminal. -/
inductive Answer where
  | yes
  | no
  /-- It is broken off. -/
  | interrupted
  deriving DecidableEq, Repr

structure Environment where
  /-- The file with the settings. -/
  config : Option Path
  /-- The directory of the user's configuration files. -/
  configHome : Option Path
  home : Option Path
  /-- The kind of the terminal. -/
  terminalKind : Option Text := none
  noColor : Option Text := none
  /-- The answer that is given at the terminal, if standard error is one. -/
  answer : Option Answer := none
  deriving Repr

namespace Environment

/-- Whether standard error is a terminal that shows colors. -/
def showsColors (env : Environment) : Bool :=
  env.answer.isSome && env.terminalKind != some "dumb".toList

end Environment

end SchemaLift.Console
