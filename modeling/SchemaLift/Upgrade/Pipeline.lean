import SchemaLift.Declaration.Flatten
import SchemaLift.Definition.GraphqlName
import SchemaLift.Definition.Header
import SchemaLift.Definition.Hook
import SchemaLift.Definition.TypeList
import SchemaLift.Text.Newline

/-!
# Upgrading a text

An upgrade applies the enabled rules once, in their fixed order, each to what the one before it
left. The rules see plain line feeds; a text with carriage returns before all its line feeds gets
them back. The report counts the changes of each rule and lists what was skipped.
-/

namespace SchemaLift

/-- Applies one rule to a text with plain line feeds. -/
def Rule.apply (baseNamespace : Text) : Rule → Text → Except Misplaced Outcome
  | .typeDefinition, s => .ok (DefinitionHeader.upgradeAll baseNamespace s)
  | .name, s => NameStatement.upgradeAll s
  | .field, s => Declaration.upgradeAll .field "field" (Declaration.flatten .field) s
  | .argument, s => Declaration.upgradeAll .argument "argument" (Declaration.flatten .argument) s
  | .inputField, s =>
    Declaration.upgradeAll .inputField "input_field" (Declaration.flatten .inputField) s
  | .connection, s =>
    Declaration.upgradeAll .connection "connection" (Declaration.flatten .connection) s
  | .propertyToMethod, s =>
    Declaration.upgradeAll .propertyToMethod "field" Declaration.renameProperty s
  | .resolveProc, s => Declaration.upgradeAll .resolveProc "field" Declaration.moveResolver s
  | .implements, s => TypeList.expandInterfaces s
  | .possibleTypes, s => TypeList.unwrapPossibleTypes s
  | .classProc, s => Hook.upgradeAll s

structure UpgradeOptions where
  /-- The namespace of the base classes; an empty one adds nothing. -/
  baseNamespace : Text
  /-- The rules that are left out. -/
  disabled : List Rule
  deriving DecidableEq, Repr

namespace UpgradeOptions

def standard : UpgradeOptions := ⟨"Types".toList, []⟩

def rules (o : UpgradeOptions) : List Rule := Rule.all.filter (!o.disabled.contains ·)

end UpgradeOptions

/-- What an upgrade makes of a text. -/
structure Report where
  output : Text
  /-- The rules that changed something, in order, with the number of their changes. -/
  applied : List (Rule × Nat)
  /-- What the rules skipped, in order. Lines are counted in the text that the rule saw. -/
  skipped : List Skip
  deriving DecidableEq, Repr

namespace Report

def totalChanges (r : Report) : Nat := r.applied.foldr (fun entry total => entry.2 + total) 0

def step (baseNamespace : Text) (r : Report) (rule : Rule) : Except Misplaced Report := do
  let outcome ← rule.apply baseNamespace r.output
  return {
    output := outcome.text
    applied := r.applied ++ (if outcome.changes = 0 then [] else [(rule, outcome.changes)])
    skipped := r.skipped ++ outcome.skipped }

end Report

def upgrade (options : UpgradeOptions) (source : Text) : Except Misplaced Report := do
  let newline := Newline.detect source
  let report ← options.rules.foldlM (Report.step options.baseNamespace)
    ⟨newline.normalize source, [], []⟩
  return { report with output := newline.restore report.output }

end SchemaLift
