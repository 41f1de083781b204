import SchemaLift.Toml.Parser
import SchemaLift.Upgrade.Settings

/-!
# Settings in TOML

A configuration file has a table `upgrade` with the namespace of the base classes and the disabled
rules, and a table `cli` with the directory that is searched and the pattern of the file names in it.
Whatever is missing takes its default.
-/

namespace SchemaLift.Settings

/-- Why a configuration file cannot be used. -/
inductive Problem where
  | malformed (problem : Toml.Problem)
  /-- A value that is not of the type it should have. -/
  | wrongType (key : String) (expected : String)
  deriving DecidableEq, Repr

def Problem.message : Problem → Text
  | malformed problem => problem.message
  | wrongType key expected => ("invalid type for '" ++ key ++ "', expected " ++ expected).toList

open Toml (Value Entries)

def asString (key : String) : Value → Except Problem Text
  | .string s => .ok s
  | _ => .error (.wrongType key "a string")

def asStrings (key : String) : Value → Except Problem (List Text)
  | .array items => items.mapM (asString key)
  | _ => .error (.wrongType key "an array of strings")

/-- The values of the given keys in a section. A section may also be an array of these values in
order; one that is missing has no values. -/
def section? (name : String) (keys : List String) (document : Entries) :
    Except Problem (List (Option Value)) :=
  match document.find? name.toList with
  | none => .ok (keys.map fun _ => none)
  | some (.table _ es) => .ok (keys.map fun key => Entries.find? es key.toList)
  | some (.dateTime _) => .ok (keys.map fun _ => none)
  | some (.array items) => .ok ((List.range keys.length).map fun i => items[i]?)
  | some (.tables items) =>
    .ok ((List.range keys.length).map fun i => items.reverse[i]?.map (.table .header))
  | some _ => .error (.wrongType name "a table")

/-- The value, read by `read`, or the default if it is missing. -/
def orDefault (read : Value → Except Problem α) (default : α) : Option Value → Except Problem α
  | none => .ok default
  | some v => read v

def ofDocument (document : Entries) : Except Problem Settings := do
  let upgrade ← section? "upgrade" ["base_namespace", "disabled_rules"] document
  let baseNamespace ←
    orDefault (asString "base_namespace") standard.baseNamespace (upgrade[0]?.getD none)
  let disabledRules ←
    orDefault (asStrings "disabled_rules") standard.disabledRules (upgrade[1]?.getD none)
  let cli ← section? "cli" ["default_dir", "file_pattern"] document
  let defaultDir ← orDefault (asString "default_dir") standard.defaultDir (cli[0]?.getD none)
  let filePattern ← orDefault (asString "file_pattern") standard.filePattern (cli[1]?.getD none)
  return { baseNamespace, disabledRules, defaultDir, filePattern }

def parse (s : Text) : Except Problem Settings :=
  match Toml.parse s with
  | .ok document => ofDocument document
  | .error problem => .error (.malformed problem)

end SchemaLift.Settings
