import SchemaLift.Name

/-!
# Kinds of type definitions

There are six kinds of legacy definitions, each with a constant under `GraphQL::` and with a base
class for the classes that replace them.
-/

namespace SchemaLift

inductive DefinitionKind where
  | object
  | interface
  | union
  | enum
  | inputObject
  | scalar
  deriving DecidableEq, Repr

namespace DefinitionKind

def all : List DefinitionKind := [object, interface, union, enum, inputObject, scalar]

/-- The legacy constant, as in `GraphQL::ObjectType`. -/
def legacyName : DefinitionKind → String
  | object => "ObjectType"
  | interface => "InterfaceType"
  | union => "UnionType"
  | enum => "EnumType"
  | inputObject => "InputObjectType"
  | scalar => "ScalarType"

/-- The base class, without its namespace. -/
def baseClass : DefinitionKind → String
  | object => "BaseObject"
  | interface => "BaseInterface"
  | union => "BaseUnion"
  | enum => "BaseEnum"
  | inputObject => "BaseInputObject"
  | scalar => "BaseScalar"

def ofLegacyName? (name : Text) : Option DefinitionKind := all.find? (·.legacyName.toList == name)

/-- Whether a class path ends in one of the base classes, in any namespace. -/
def isBaseClass (path : Text) : Bool := all.any (·.baseClass.toList == Name.unqualified path)

/-- The path of the base class in a namespace; an empty namespace adds nothing. -/
def superclass (baseNamespace : Text) (k : DefinitionKind) : Text :=
  if baseNamespace.isEmpty then k.baseClass.toList
  else baseNamespace ++ "::".toList ++ k.baseClass.toList

end DefinitionKind

end SchemaLift
