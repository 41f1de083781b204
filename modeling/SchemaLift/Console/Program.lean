import SchemaLift.Console.Arguments
import SchemaLift.Console.Command
import SchemaLift.Diff.Unified
import SchemaLift.Files.Glob
import SchemaLift.Toml.Settings

/-!
# The program

The program is a run with libraries of its own: readers of command lines, of settings in TOML and of
file patterns, and printers of diffs, of JSON and of colors.
-/

namespace SchemaLift.Console

def programName : String := "schema-upgrade"

def programVersion : String := "0.1.0"

/-- The line that names the program, or one of its commands, and the version. -/
def versionLine (command : Option CommandName) : Text :=
  let name := match command with
    | none => programName
    | some c => programName ++ "-" ++ c.word
  Presentation.lineText (name ++ " " ++ programVersion).toList

def switchHelp (s : Switch) : String :=
  let short := match s.short? with
    | some c => String.ofList ['-', c] ++ ", "
    | none => "    "
  padRight 32 ("  " ++ short ++ "--" ++ s.long) ++ s.about

def helpText : Text :=
  let commands := CommandName.all.map fun c => padRight 16 ("  " ++ c.word) ++ c.about
  let lines := ["Upgrade legacy GraphQL-Ruby type definitions to class-based syntax", "",
    "Usage: " ++ programName ++ " [OPTIONS] <COMMAND>", "", "Commands:"] ++ commands ++
    ["", "Options:"] ++ Switch.all.map switchHelp
  lines.flatMap fun l => Presentation.lineText l.toList

/-- A script with which a shell completes the names of the commands. -/
def completionScript (shell : Shell) : Text :=
  let words := " ".intercalate (CommandName.all.map CommandName.word ++ ["help"])
  Presentation.lineText (match shell with
    | .bash => "complete -W '" ++ words ++ "' " ++ programName
    | .zsh => "compdef '_arguments \"1:command:(" ++ words ++ ")\"' " ++ programName
    | .fish => "complete -c " ++ programName ++ " -n __fish_use_subcommand -f -a '" ++ words ++ "'"
    | .powershell =>
      "Register-ArgumentCompleter -Native -CommandName " ++ programName ++ " -ScriptBlock \x7b '" ++
        words ++ "'.Split(' ') \x7d"
    | .elvish =>
      "set edit:completion:arg-completer[" ++ programName ++ "] = \x7b|@_| put " ++ words ++
        " \x7d").toList

/-- How a run ends whose command line starts no command. -/
def Stop.ending : Stop → Ending
  | help => ⟨helpText, [], 0⟩
  | version command => ⟨versionLine command, [], 0⟩
  | misuse cause => ⟨[], Presentation.lineText ("error: ".toList ++ cause.message), 2⟩

/-- A diagnostic in three lines. -/
def explanation (name _source : Text) (d : Diagnostic) : Text :=
  name ++ ": ".toList ++ d.message ++
    ("\n  at byte " ++ toString d.span.start ++ ": " ++ d.label ++ "\n  help: " ++ d.help).toList

namespace Style

/-- The numbers that switch a style on. -/
def codes : Style → List Nat
  | success => [32, 1]
  | failure => [31, 1]
  | fileName => [1]
  | inserted => [32]
  | deleted => [31]
  | hunk => [36]
  | plain => []

def escape (code : Nat) : Text := '\x1b' :: ("[" ++ toString code ++ "m").toList

def paint (style : Style) (s : Text) : Text :=
  style.codes.flatMap escape ++ s ++ (if style.codes.isEmpty then [] else escape 0)

end Style

def dialogText (question : Text) (answer : Answer) : Text :=
  question ++ (match answer with
    | .yes => " yes\n"
    | .no => " no\n"
    | .interrupted => " [y/N] \n").toList

def Libraries.standard : Libraries where
  readArguments env words := (Invocation.parse env words).mapError Stop.ending
  readSettings s := (Settings.parse s).mapError Settings.Problem.message
  glob files pattern :=
    match Glob.files files pattern with
    | .ok found => .ok (found.map .ok)
    | .error problem => .error problem.message.toList
  lineScript := Diff.lineScript
  unifiedDiff := Diff.unifiedAround
  compactJson := JsonValue.compact
  prettyJson := JsonValue.pretty
  explain := explanation
  panicMessage path _ := "a line is missing in ".toList ++ path
  dialog := dialogText
  paint := Style.paint
  completions := completionScript

def run : FileTree → Environment → List Text → Transcript × Nat := runWith .standard

end SchemaLift.Console
