import SchemaLift.Console.Environment
import SchemaLift.Console.Invocation

/-!
# Commands and options

The words of a command line name one command and set options. Some options stand before or after the
command, the others belong to certain commands and stand after them. An option is given at most once
on either side of the command, unless its occurrences add up.
-/

namespace SchemaLift.Console

inductive CommandName where
  | upgrade
  | check
  | rules
  | completions
  deriving DecidableEq, Repr

namespace CommandName

def all : List CommandName := [upgrade, check, rules, completions]

def word : CommandName → String
  | upgrade => "upgrade"
  | check => "check"
  | rules => "rules"
  | completions => "completions"

def about : CommandName → String
  | upgrade => "Upgrade legacy definitions in Ruby files"
  | check => "Fail when any file still contains legacy definitions"
  | rules => "List the rewrite rules in pipeline order"
  | completions => "Generate shell completion scripts"

def named? (w : Text) : Option CommandName := all.find? fun c => c.word.toList == w

/-- Whether the command upgrades texts, in fact or for show. -/
def usesRules : CommandName → Bool
  | completions => false
  | _ => true

end CommandName

inductive Switch where
  | config
  | format
  | verbose
  | quiet
  | noColor
  | write
  | force
  | diff
  | baseNamespace
  | disable
  | help
  | version
  deriving DecidableEq, Repr

namespace Switch

def all : List Switch :=
  [config, format, verbose, quiet, noColor, write, force, diff, baseNamespace, disable, help,
    version]

def long : Switch → String
  | config => "config"
  | format => "format"
  | verbose => "verbose"
  | quiet => "quiet"
  | noColor => "no-color"
  | write => "write"
  | force => "force"
  | diff => "diff"
  | baseNamespace => "base-namespace"
  | disable => "disable"
  | help => "help"
  | version => "version"

def short? : Switch → Option Char
  | config => some 'c'
  | verbose => some 'v'
  | quiet => some 'q'
  | write => some 'w'
  | force => some 'f'
  | diff => some 'd'
  | help => some 'h'
  | version => some 'V'
  | _ => none

def about : Switch → String
  | config => "Configuration file path"
  | format => "Output format: human (default), json, plain"
  | verbose => "Increase verbosity (-v, -vv, -vvv)"
  | quiet => "Suppress all non-error output"
  | noColor => "Disable colored output"
  | write => "Rewrite the files in place (default is a dry run)"
  | force => "Write without asking for confirmation"
  | diff => "Print a diff for each changed file, also when writing"
  | baseNamespace => "Namespace of the base classes (default: Types)"
  | disable => "Leave a rule out of the pipeline (repeatable)"
  | help => "Print help"
  | version => "Print version"

def takesValue : Switch → Bool
  | config | format | baseNamespace | disable => true
  | _ => false

/-- Whether the option may be given several times at one place. -/
def addsUp : Switch → Bool
  | verbose | disable => true
  | _ => false

/-- Whether the option may stand before the command or, for a command, after it. -/
def allowedAt (s : Switch) : Option CommandName → Bool
  | none =>
    match s with
    | write | force | diff | baseNamespace | disable => false
    | _ => true
  | some command =>
    match s with
    | write | force | diff => command = .upgrade
    | baseNamespace | disable => command.usesRules
    | _ => true

def accepts (s : Switch) (value : Text) : Bool :=
  match s with
  | config => !value.isEmpty
  | format => (Format.named? value).isSome
  | _ => true

end Switch

end SchemaLift.Console
