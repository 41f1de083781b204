import SchemaLift.Text.Lines
import SchemaLift.Upgrade.Rule

/-!
# Skipped constructs

A rule leaves a construct as it is when it cannot upgrade it safely, and records where it stands and
why. Skipping one construct never stops the others.
-/

namespace SchemaLift

/-- Why a construct was left as it is. -/
inductive SkipReason where
  /-- A block has no `end` before the text ends. -/
  | unbalancedBlock (opener : Text)
  /-- A statement has open brackets when the text ends. -/
  | unterminatedStatement (keyword : Text)
  /-- A type expression is none of the legacy grammar. -/
  | unrecognizedType (expression : Text)
  /-- A declaration has no type, neither as argument nor in its block. -/
  | missingType (name : Text)
  /-- A resolver is no proc literal. -/
  | unsupportedResolver (resolver : Text)
  deriving DecidableEq, Repr

namespace SkipReason

def message : SkipReason → Text
  | unbalancedBlock opener =>
    "block opened by '".toList ++ opener ++ "' has no matching 'end'".toList
  | unterminatedStatement keyword =>
    '\'' :: keyword ++ "' statement never closes its brackets".toList
  | unrecognizedType expression =>
    "unrecognized type expression '".toList ++ expression ++ ['\'']
  | missingType name => "declaration of '".toList ++ name ++ "' has no type".toList
  | unsupportedResolver resolver =>
    "resolver '".toList ++ resolver ++ "' is not a proc literal; convert it by hand".toList

end SkipReason

/-- A construct that a rule recognized and left as it is. -/
structure Skip where
  rule : Rule
  /-- The line in the text that the rule was applied to, counted from one. -/
  line : Nat
  /-- That line without surrounding white space. -/
  snippet : Text
  reason : SkipReason
  deriving DecidableEq, Repr

namespace Skip

/-- The record for the line at `index`. -/
def atLine (rule : Rule) (index : Nat) (line : Line) (reason : SkipReason) : Skip :=
  ⟨rule, index + 1, Text.trim line, reason⟩

def message (s : Skip) : Text :=
  (s.rule.id ++ " rule skipped line " ++ toString s.line ++ ": ").toList ++ s.reason.message

end Skip

/-- What one rule makes of a text. -/
structure Outcome where
  text : Text
  /-- The number of constructs that were changed. -/
  changes : Nat
  skipped : List Skip
  deriving DecidableEq, Repr

end SchemaLift
