import SchemaLift.Declaration.Resolver
import SchemaLift.Type.Expression

/-!
# Flattening declarations

A legacy declaration gives its type as second argument or in its block, along with a description, a
method name, a resolver and settings. Flattening moves all of this into the header, in a fixed
order: name, type, description, other positional arguments, keyword arguments as written, settings
of the block, nullability, method, connection mark. A resolver proc becomes a method below the
declaration.
-/

namespace SchemaLift

inductive DeclarationKind where
  | field
  | argument
  | inputField
  | connection
  deriving DecidableEq, Repr

namespace DeclarationKind

def keyword : DeclarationKind → String
  | field => "field"
  | argument => "argument"
  | inputField => "input_field"
  | connection => "connection"

def isField : DeclarationKind → Bool
  | field | connection => true
  | argument | inputField => false

def flatKeyword (k : DeclarationKind) : String := if k.isField then "field" else "argument"

def rule : DeclarationKind → Rule
  | field => .field
  | argument => .argument
  | inputField => .inputField
  | connection => .connection

/-- The keyword argument that tells nullability; a declaration that has it is flat already. -/
def nullabilityKey (k : DeclarationKind) : String := if k.isField then "null" else "required"

/-- The value of that argument for a type. -/
def nullabilityValue (k : DeclarationKind) (t : TypeExpression) : Text :=
  (toString (if k.isField then t.nullable else !t.nullable)).toList

/-- The block statements that become keyword arguments as they are. -/
def settingWords (k : DeclarationKind) : List String :=
  if k.isField then ["hash_key", "deprecation_reason", "complexity"]
  else ["default_value", "as", "prepare"]

end DeclarationKind

namespace Declaration

/-- Keyword arguments that hand a field over to another object, which then gives the type. -/
def delegatingWords : List String :=
  ["function", "resolver", "mutation", "subscription", "field"]

def isStringLiteral (s : Text) : Bool :=
  match tokenize s with
  | [t] => t.kind.isString
  | _ => false

/-- What the statements of a block contribute to the header. -/
structure Pulled where
  type : Option Text
  description : Option Text
  method : Option Text
  /-- The first resolver; it stays in the block until it has become a method. -/
  resolver : Option (LineRange × Statement)
  settings : List KeywordArgument
  /-- The statements that were taken out of the block. -/
  removed : Removed
  /-- Their comments. -/
  comments : List Text
  deriving DecidableEq, Repr

namespace Pulled

def nothing : Pulled := ⟨none, none, none, none, [], [], []⟩

/-- Takes a statement out of the block. -/
def take (p : Pulled) (r : LineRange) (s : Statement) : Pulled :=
  { p with removed := p.removed ++ [r], comments := p.comments ++ s.comments }

/-- Adds one statement. A type is not taken when the header has one (`typed`), nor a description
when the header has one (`described`); of either, and of a method, the first counts. -/
def add (kind : DeclarationKind) (typed described : Bool) (p : Pulled) (r : LineRange)
    (s : Statement) : Pulled :=
  let isWord (word : String) : Bool := s.keyword == word.toList
  if s.value.isEmpty then p
  else if isWord "type" && !typed && p.type.isNone then { p with type := some s.value }.take r s
  else if isWord "description" && !described && p.description.isNone then
    { p with description := some s.value }.take r s
  else if kind.isField && methodWords.any isWord && p.method.isNone then
    { p with method := some s.value }.take r s
  else if isWord "resolve" && kind.isField && p.resolver.isNone then
    { p with resolver := some (r, s) }
  else if kind.settingWords.any isWord then
    { p with settings := p.settings ++ [KeywordArgument.labelled s.keyword s.value] }.take r s
  else p

def ofStatements (kind : DeclarationKind) (typed described : Bool)
    (statements : List (LineRange × Statement)) : Pulled :=
  statements.foldl (fun p entry => p.add kind typed described entry.1 entry.2) nothing

end Pulled

/-- The first positional argument after the name, if it can be a type. -/
def headerType (s : Signature) : Option Text :=
  s.positional.head?.bind fun text => if isStringLiteral text then none else some text

/-- The positional arguments of the flat header after the name. -/
def flatPositional (s : Signature) (pulled : Pulled) (t : TypeExpression) : List Text :=
  let others := if (headerType s).isSome then s.positional.tail else s.positional
  t.render :: pulled.description.toList ++ others

def flatKeywords (kind : DeclarationKind) (s : Signature) (pulled : Pulled) (t : TypeExpression) :
    List KeywordArgument :=
  let labelled (key : String) (value : Text) : KeywordArgument := .labelled key.toList value
  s.keywords ++ pulled.settings ++ [labelled kind.nullabilityKey (kind.nullabilityValue t)] ++
    (pulled.method.map (labelled "method")).toList ++
    (if kind = .connection then [labelled "connection" "true".toList] else [])

/-- The flat header, with the resolver left where it is. -/
def flatSignature (kind : DeclarationKind) (s : Signature) (name : Text) (pulled : Pulled)
    (t : TypeExpression) : Signature :=
  { s with
    keyword := kind.flatKeyword.toList
    name := some ((Name.declared? name).elim name Name.symbol)
    positional := flatPositional s pulled t
    keywords := flatKeywords kind s pulled t
    comments := s.comments ++ pulled.comments }

/-- The resolver of a field: that of its block, or else its argument `resolve:`. -/
def resolverText (kind : DeclarationKind) (flat : Signature) (pulled : Pulled) : Option Text :=
  match pulled.resolver with
  | some (_, s) => some s.value
  | none => if kind.isField then flat.keyword? "resolve".toList else none

/-- The header and the removed lines once the resolver has become a method. -/
def withoutResolver (flat : Signature) (pulled : Pulled) : Signature × Removed :=
  match pulled.resolver with
  | some (r, s) => ({ flat with comments := flat.comments ++ s.comments }, pulled.removed ++ [r])
  | none => (flat.removeKeyword "resolve".toList, pulled.removed)

/-- The flat declaration for a name, what its block contributes, and its type. -/
def flattenTyped (kind : DeclarationKind) (d : Declaration) (lines : List Line) (name : Text)
    (pulled : Pulled) (t : TypeExpression) : Except Misplaced Edit := do
  let flat := flatSignature kind d.signature name pulled t
  match resolverText kind flat pulled with
  | none => return .replace (← d.reassemble lines flat pulled.removed [])
  | some resolver =>
    let declaresArguments ← d.retains lines "argument" pulled.removed
    let method :=
      match Name.declared? name with
      | some method => resolverMethod method resolver flat.indent declaresArguments
      | none => .error (.unsupportedResolver resolver)
    match method with
    | .ok trailer =>
      let (header, removed) := withoutResolver flat pulled
      return .replace (← d.reassemble lines header removed trailer)
    | .error reason =>
      return ⟨some (← d.reassemble lines flat pulled.removed []), [reason]⟩

/-- Flattens one declaration. A flat one and one without a name are kept; so is one without a type,
if another object gives it. -/
def flatten (kind : DeclarationKind) : Revision := fun d lines =>
  let s := d.signature
  if s.hasKeyword kind.nullabilityKey.toList then .ok .keep
  else
    match s.name with
    | none => .ok .keep
    | some name => do
      let statements ← d.statements lines
      let pulled := Pulled.ofStatements kind (headerType s).isSome
        (s.positional.any isStringLiteral) statements
      match (headerType s).or pulled.type with
      | none =>
        if delegatingWords.any fun key => s.hasKeyword key.toList then return .keep
        else return .skip (.missingType name)
      | some text =>
        match TypeExpression.parse text with
        | none => return .skip (.unrecognizedType (Text.trim text))
        | some t => flattenTyped kind d lines name pulled t

end Declaration

end SchemaLift
