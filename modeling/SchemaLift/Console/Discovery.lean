import SchemaLift.Console.Failure

/-!
# Finding settings and files

The settings come from the file that is asked for, or else from the first of the usual files that
exists; without any, all take their defaults. The files to upgrade are the files that are named and
those that match the pattern in the directories that are named, in order and each once.
-/

namespace SchemaLift.Console

/-- The files that may hold settings if none is asked for, in order. -/
def usualConfigs (env : Environment) : List Path :=
  env.config.toList ++ "config.toml".toList ::
    (env.configHome.map (Path.join · "schema-upgrade/config.toml".toList)).toList ++
    (env.home.map (Path.join · ".config/schema-upgrade/config.toml".toList)).toList

/-- The files that settings are looked for in; `config` is the file that is asked for. -/
def configPaths (env : Environment) (config : Option Path) : List Path :=
  (config.map List.singleton).getD (usualConfigs env)

/-- A file with what an upgrade makes of it. -/
structure UpgradedFile where
  path : Path
  source : Text
  report : Report
  deriving DecidableEq, Repr

namespace UpgradedFile

def changed (f : UpgradedFile) : Bool := f.report.output != f.source

end UpgradedFile

/-- The paths that are searched: those that are named, or else the one of the settings. -/
def searchedPaths (settings : Settings) (paths : List Path) : List Path :=
  if paths.isEmpty then [settings.defaultDir] else paths

section

variable (lib : Libraries)

def readSettings (files : FileTree) (path : Path) : Except Failure Settings := do
  let s ← (files.read path).mapError (.inaccessible path)
  (lib.readSettings s).mapError fun problem => .misconfigured (.unreadable path problem)

/-- The settings of a run; `config` is the file that is asked for. -/
def loadSettings (files : FileTree) (env : Environment) (config : Option Path) :
    Except Failure Settings :=
  match config.or ((usualConfigs env).find? fun path => (files.node? path).isSome) with
  | some path => readSettings lib files path
  | none => .ok .standard

/-- The files in a directory that match a pattern. -/
def matchingFiles (files : FileTree) (pattern : Text) (directory : Path) :
    Except Failure (List Path) := do
  let entries ← (lib.glob files (Path.join directory pattern)).mapError fun problem =>
    .misconfigured (.invalidPattern pattern problem)
  let found ← entries.mapM fun entry => entry.mapError .other
  return found.filter files.isFile

/-- The files that a path stands for. -/
def filesAt (files : FileTree) (pattern : Text) (path : Path) : Except Failure (List Path) := do
  if files.isFile path then return [path]
  if !files.isDirectory path then .error (.noRubyFiles path)
  let found ← matchingFiles lib files pattern path
  if found.isEmpty then .error (.noRubyFiles path)
  return found

def discover (files : FileTree) (settings : Settings) (paths : List Path) :
    Except Failure (List Path) := do
  let found ← (searchedPaths settings paths).mapM (filesAt lib files settings.filePattern)
  return Path.inOrder found.flatten

def upgradeFile (files : FileTree) (options : UpgradeOptions) (path : Path) :
    Except Failure UpgradedFile := do
  let source ← (files.read path).mapError (.inaccessible path)
  let report ← (SchemaLift.upgrade options source).mapError fun m =>
    .other ("upgrade task failed: ".toList ++ lib.panicMessage path m)
  return ⟨path, source, report⟩

/-- The files to upgrade with what becomes of them. -/
def upgradeFiles (files : FileTree) (settings : Settings) (overrides : Overrides)
    (paths : List Path) : Except Failure (List UpgradedFile) := do
  let options ← (settings.resolve overrides).mapError fun rule =>
    .misconfigured (.unknownRule rule)
  (← discover lib files settings paths).mapM (upgradeFile lib files options)

end

end SchemaLift.Console
