import SchemaLift.Upgrade.Pipeline

/-!
# Settings

Settings come from a configuration file and from the command line. They name the namespace of the
base classes and the disabled rules, the directory that is searched and the pattern of the file names
in it. A namespace on the command line wins over the file's, and disabled rules add up.
-/

namespace SchemaLift

structure Settings where
  baseNamespace : Text
  /-- Names of rules, as written. -/
  disabledRules : List Text
  defaultDir : Text
  filePattern : Text
  deriving DecidableEq, Repr

/-- The settings where a configuration file says nothing. -/
def Settings.standard : Settings :=
  { baseNamespace := UpgradeOptions.standard.baseNamespace
    disabledRules := []
    defaultDir := "app/graphql/".toList
    filePattern := "**/*.rb".toList }

/-- What the command line says about an upgrade. -/
structure Overrides where
  baseNamespace : Option Text
  /-- Names of further disabled rules, as written. -/
  disable : List Text
  deriving DecidableEq, Repr

namespace Overrides

def nothing : Overrides := ⟨none, []⟩

end Overrides

/-- The rules without repetitions, each where it stands first. -/
def distinctRules : List Rule → List Rule
  | [] => []
  | r :: rest => r :: (distinctRules rest).filter (· != r)

/-- The options of an upgrade, or the first disabled rule that is none: those of the settings come
before those of the command line. -/
def Settings.resolve (settings : Settings) (overrides : Overrides) :
    Except Rule.Unknown UpgradeOptions :=
  (Rule.allNamed (settings.disabledRules ++ overrides.disable)).map fun rules =>
    ⟨overrides.baseNamespace.getD settings.baseNamespace, distinctRules rules⟩

end SchemaLift
