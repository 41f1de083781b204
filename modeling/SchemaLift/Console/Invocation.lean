import SchemaLift.Files.Path
import SchemaLift.Upgrade.Settings

/-!
# Invocations

An invocation is a command line that has been read: a command with its options, and the options of
the whole program.
-/

namespace SchemaLift.Console

/-- How results and errors are printed. -/
inductive Format where
  | human
  | json
  | plain
  deriving DecidableEq, Repr

namespace Format

def named? (w : Text) : Option Format :=
  [("human", human), ("json", json), ("plain", plain)].findSome? fun (word, f) =>
    if word.toList == w then some f else none

end Format

/-- The shells that completions are written for. -/
inductive Shell where
  | bash
  | zsh
  | fish
  | powershell
  | elvish
  deriving DecidableEq, Repr

namespace Shell

def all : List Shell := [bash, zsh, fish, powershell, elvish]

def word : Shell → String
  | bash => "bash"
  | zsh => "zsh"
  | fish => "fish"
  | powershell => "powershell"
  | elvish => "elvish"

def named? (w : Text) : Option Shell := all.find? fun s => s.word.toList == w

end Shell

inductive Command where
  | upgrade (paths : List Path) (write force diff : Bool) (overrides : Overrides)
  | check (paths : List Path) (overrides : Overrides)
  | rules (overrides : Overrides)
  | completions (shell : Shell)
  deriving DecidableEq, Repr

structure Invocation where
  /-- The file with the settings that is asked for. -/
  config : Option Path
  format : Format
  quiet : Bool
  noColor : Bool
  command : Command
  deriving DecidableEq, Repr

end SchemaLift.Console
