import SchemaLift.Console.Transcript

/-!
# The commands

`upgrade` shows what would become of the files or writes it, `check` fails if a file is not up to
date, and `rules` lists the rules. Each prints for a reader, as JSON or as plain fields.
-/

namespace SchemaLift.Console

variable (lib : Libraries)

namespace UpgradedFile

def diff (f : UpgradedFile) : Text :=
  lib.unifiedDiff 3 ("a/".toList ++ Path.shown f.path) ("b/".toList ++ Path.shown f.path) f.source
    f.report.output

/-- The numbers of inserted and of deleted lines. -/
def lineChanges (f : UpgradedFile) : Nat × Nat :=
  let changes := lib.lineScript f.source f.report.output
  (changes.countP (!·.inOld), changes.countP (!·.inNew))

def skipJson (s : Skip) : JsonValue :=
  .ofFields [("rule", .ofString s.rule.id), ("line", .number s.line),
    ("reason", .string s.reason.message)]

def summaryFields (f : UpgradedFile) : List (String × JsonValue) :=
  [("file", .string (Path.shown f.path)), ("changed", .bool f.changed),
    ("rewrites", .ofFields (f.report.applied.map fun (r, n) => (r.id, .number n))),
    ("skipped", .array (f.report.skipped.map skipJson))]

end UpgradedFile

def jsonLine (fields : List (String × JsonValue)) : Text :=
  Presentation.lineText (lib.prettyJson (.ofFields fields))

def total (number : UpgradedFile → Nat) : List UpgradedFile → Nat
  | [] => 0
  | f :: rest => number f + total number rest

/-- What an upgrade is to do with the changed files. -/
structure UpgradeRequest where
  write : Bool
  /-- Whether to write without asking. -/
  force : Bool
  /-- Whether to show changes that are written too. -/
  diff : Bool
  deriving DecidableEq, Repr

namespace UpgradeRequest

def showsDiffs (r : UpgradeRequest) : Bool := r.diff || !r.write

/-- The last line of an upgrade, with a hint if something is left to write. -/
def closing (r : UpgradeRequest) (p : Presentation) (results : List UpgradedFile) : Text :=
  let changed := results.filter UpgradedFile.changed
  let count (n : Nat) : String := toString n
  p.success lib (count changed.length ++ " of " ++ count results.length ++ " files " ++
      (if r.write then "upgraded" else "would be upgraded") ++ " (" ++
      count (total (·.report.totalChanges) results) ++ " rewrites, +" ++
      count (total (fun f => (f.lineChanges lib).1) changed) ++ " -" ++
      count (total (fun f => (f.lineChanges lib).2) changed) ++ " lines, " ++
      count (total (·.report.skipped.length) results) ++ " skipped)").toList ++
    (if r.write || changed.isEmpty then []
      else p.status "Run again with --write to apply.".toList)

/-- The fields of the document that tells the result of an upgrade. -/
def resultFields (r : UpgradeRequest) (results : List UpgradedFile) (written : Nat) :
    List (String × JsonValue) :=
  let entry (f : UpgradedFile) : JsonValue :=
    .ofFields (f.summaryFields ++
      if f.changed && r.showsDiffs then [("diff", .string (f.diff lib))] else [])
  [("files", .number results.length),
    ("changed", .number (results.countP UpgradedFile.changed)), ("written", .number written),
    ("rewrites", .number (total (·.report.totalChanges) results)),
    ("skipped", .number (total (·.report.skipped.length) results)),
    ("results", .array (results.map entry))]

def fieldsLine (results : List UpgradedFile) (written : Nat) : Text :=
  let counts := [results.length, results.countP UpgradedFile.changed, written,
    total (·.report.skipped.length) results]
  Presentation.lineText ("\t".intercalate (counts.map toString)).toList

/-- Whether files may be overwritten, and what asking leaves at the terminal. Nobody is asked where
standard error is no terminal. -/
def confirm (r : UpgradeRequest) (answer : Option Answer) (p : Presentation)
    (changed : List UpgradedFile) : Text × Option Failure :=
  if r.force then ([], none)
  else
    match answer with
    | none => ([], some .requiresForce)
    | some answer =>
      let number := (toString changed.length).toList
      let question := "Rewrite ".toList ++ number ++ " files in place?".toList
      (p.status (number ++ " files will be rewritten:".toList) ++
          changed.flatMap (fun f => p.status ("  ".toList ++ Path.shown f.path)) ++
          lib.dialog question answer,
        if answer = .yes then none else some .cancelled)

/-- Asks for leave if changes are to be written. -/
def ask (r : UpgradeRequest) (answer : Option Answer) (p : Presentation)
    (changed : List UpgradedFile) : Text × Option Failure :=
  if r.write && !changed.isEmpty then r.confirm lib answer p changed else ([], none)

/-- Shows the changes, or writes them. An upgrade that may not write fails once the diffs are
printed, and writes nothing. -/
def run (r : UpgradeRequest) (answer : Option Answer) (p : Presentation)
    (results : List UpgradedFile) : Transcript :=
  let changed := results.filter UpgradedFile.changed
  let diffs :=
    if r.showsDiffs then changed.flatMap fun f => p.diffText lib (f.diff lib) else []
  let messages := results.flatMap (p.skips lib)
  let (asked, refused) := r.ask lib answer p changed
  match refused with
  | some f => ⟨diffs, messages ++ asked, [], some f⟩
  | none =>
    let written := if r.write then changed.map fun f => (f.path, f.report.output) else []
    let summary := match p.format with
      | .human => []
      | .json => jsonLine lib (r.resultFields lib results written.length)
      | .plain => fieldsLine results written.length
    ⟨diffs ++ summary, messages ++ asked ++ r.closing lib p results, written, none⟩

end UpgradeRequest

/-- Lists the files that are not up to date, and fails if there are any. -/
def runCheck (p : Presentation) (results : List UpgradedFile) : Transcript :=
  let pending := results.filter UpgradedFile.changed
  let fileStatus (f : UpgradedFile) : Text :=
    if f.changed then
      p.status ("  ".toList ++ Path.shown f.path ++
        (" .... needs upgrade (" ++ toString f.report.totalChanges ++ " rewrites)").toList)
    else []
  let output := match p.format with
    | .human => []
    | .plain => pending.flatMap fun f => Presentation.lineText (Path.shown f.path)
    | .json =>
      jsonLine lib [("files", .number results.length), ("needs_upgrade", .number pending.length),
        ("results", .array (results.map fun f => .ofFields f.summaryFields))]
  let messages := results.flatMap fun f => p.skips lib f ++ fileStatus f
  if pending.isEmpty then
    let done := p.success lib (toString results.length ++ " files are up to date").toList
    ⟨output, messages ++ done, [], none⟩
  else ⟨output, messages, [], some (.needsUpgrade pending.length)⟩

/-- Fills a text with blanks up to a width, on the left or on the right. -/
def padLeft (width : Nat) (s : String) : String :=
  String.ofList (List.replicate (width - s.length) ' ') ++ s

def padRight (width : Nat) (s : String) : String :=
  s ++ String.ofList (List.replicate (width - s.length) ' ')

def numberedRules : List (Rule × Nat) := Rule.all.zipIdx 1

/-- Lists all rules in order and says which are left out. -/
def runRules (p : Presentation) (options : UpgradeOptions) : Transcript :=
  let enabled (r : Rule) : Bool := options.rules.contains r
  let output := match p.format with
    | .human => numberedRules.flatMap fun (r, n) =>
      Presentation.lineText (padLeft 2 (toString n) ++ ". " ++ padRight 20 r.id ++ " " ++
        r.description ++ (if enabled r then "" else " (disabled)")).toList
    | .plain => Rule.all.flatMap fun r =>
      Presentation.lineText (r.id ++ "\t" ++ if enabled r then "enabled" else "disabled").toList
    | .json => jsonLine lib [("rules", .array (numberedRules.map fun (r, n) =>
      .ofFields [("position", .number n), ("name", .ofString r.id),
        ("description", .ofString r.description), ("enabled", .bool (enabled r))]))]
  ⟨output, [], [], none⟩

/-! ## A whole run -/

namespace Command

/-- The settings, if the command needs any, and its work. -/
def run (files : FileTree) (env : Environment) (p : Presentation) (config : Option Path) :
    Command → Except Failure Transcript
  | upgrade paths write force diff overrides => do
    let settings ← loadSettings lib files env config
    return UpgradeRequest.run lib ⟨write, force, diff⟩ env.answer p
      (← upgradeFiles lib files settings overrides paths)
  | check paths overrides => do
    let settings ← loadSettings lib files env config
    return runCheck lib p (← upgradeFiles lib files settings overrides paths)
  | rules overrides => do
    let settings ← loadSettings lib files env config
    let options ← (settings.resolve overrides).mapError fun rule =>
      .misconfigured (.unknownRule rule)
    return runRules lib p options
  | completions shell => .ok ⟨lib.completions shell, [], [], none⟩

def searchedPaths (settings : Settings) : Command → List Path
  | upgrade paths _ _ _ _ => Console.searchedPaths settings paths
  | check paths _ => Console.searchedPaths settings paths
  | rules _ | completions _ => []

end Command

/-- A run of the program is a function of the files, the environment and the command line. It yields
what is printed, what is written, and the exit code. -/
def runWith (files : FileTree) (env : Environment) (words : List Text) : Transcript × Nat :=
  match lib.readArguments env words with
  | .error ending => (⟨ending.output, ending.messages, [], none⟩, ending.exitCode)
  | .ok inv =>
    let p := inv.presentation env
    let transcript := match inv.command.run lib files env p inv.config with
      | .ok t => t
      | .error f => .failed f
    (p.close lib transcript, transcript.exitCode)

end SchemaLift.Console
