import SchemaLift.Text.Blank

/-!
# The rules

There are eleven rules, always applied in the order of `Rule.all`. A rule is named in snake case;
reading a name forgives surrounding white space, case, and hyphens for underscores.
-/

namespace SchemaLift

inductive Rule where
  | typeDefinition
  | name
  | field
  | argument
  | inputField
  | connection
  | propertyToMethod
  | resolveProc
  | implements
  | possibleTypes
  | classProc
  deriving DecidableEq, Repr, Inhabited

namespace Rule

/-- Every rule, in the order in which the rules are applied. -/
def all : List Rule :=
  [typeDefinition, name, field, argument, inputField, connection, propertyToMethod, resolveProc,
    implements, possibleTypes, classProc]

theorem mem_all (r : Rule) : r ∈ all := by cases r <;> decide

/-- The name of a rule in settings and reports. -/
def id : Rule → String
  | typeDefinition => "type_definition"
  | name => "name"
  | field => "field"
  | argument => "argument"
  | inputField => "input_field"
  | connection => "connection"
  | propertyToMethod => "property_to_method"
  | resolveProc => "resolve_proc"
  | implements => "implements"
  | possibleTypes => "possible_types"
  | classProc => "class_proc"

def description : Rule → String
  | typeDefinition => "`X = GraphQL::ObjectType.define do` becomes `class X < Types::BaseObject`"
  | name => "drops an inferable `name \"X\"` or renames it to `graphql_name`"
  | field => "flattens `field` declarations and emits `null:`"
  | argument => "rewrites `argument` types and emits `required:`"
  | inputField => "turns `input_field` into `argument`"
  | connection => "turns `connection` into `field ..., connection: true`"
  | propertyToMethod => "renames `property:` to `method:`"
  | resolveProc => "moves `resolve` procs into resolver methods"
  | implements => "expands `interfaces [A, B]` into `implements` lines"
  | possibleTypes => "unwraps `possible_types [A, B]`"
  | classProc => "turns `resolve_type` and coercion procs into class methods"

/-- The spelling under which a rule name is looked up. -/
def normalizeName (written : Text) : Text :=
  (Text.trim written).map fun c => if c = '-' then '_' else c.toLower

/-- The rule with a name. -/
def named? (written : Text) : Option Rule :=
  all.find? fun r => r.id.toList == normalizeName written

/-- A rule name that is none, as it was written. -/
structure Unknown where
  written : Text
  deriving DecidableEq, Repr

def Unknown.message (u : Unknown) : Text :=
  "unknown rule '".toList ++ u.written ++
    ("' (expected one of: " ++ ", ".intercalate (all.map id) ++ ")").toList

/-- The rules with the given names, or the first name that is none. -/
def allNamed : List Text → Except Unknown (List Rule)
  | [] => .ok []
  | written :: rest =>
    match named? written with
    | none => .error ⟨written⟩
    | some r => (allNamed rest).map (r :: ·)

end Rule

end SchemaLift
