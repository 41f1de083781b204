import SchemaLift.Text.Blank

/-!
# Builtin scalars

The builtin scalars have old spellings. Every old spelling stands for one name, and no name that it
stands for is an old spelling itself.
-/

namespace SchemaLift.Scalar

/-- The old spellings with the names they stand for. -/
def aliases : List (String × String) :=
  [("Int", "Integer"), ("Bool", "Boolean"), ("GraphQL::STRING_TYPE", "String"),
    ("GraphQL::INT_TYPE", "Integer"), ("GraphQL::FLOAT_TYPE", "Float"),
    ("GraphQL::BOOLEAN_TYPE", "Boolean"), ("GraphQL::ID_TYPE", "ID")]

/-- The name that a spelling stands for; any other name stands for itself. -/
def canonical (name : Text) : Text :=
  match aliases.find? fun entry => entry.1.toList == name with
  | some entry => entry.2.toList
  | none => name

end SchemaLift.Scalar
