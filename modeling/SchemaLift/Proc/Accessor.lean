import SchemaLift.Name
import SchemaLift.Upgrade.Skip

/-!
# Reading a resolver's parameters through accessors

In a resolver method the positional parameters of a proc are gone: the first is read through
`object`, the second through `args`, the third through `context`. `adaptBody` puts the accessors
in place of the parameters, also inside interpolated code, and brings the keys of `args[...]` to
underscored symbols.
-/

namespace SchemaLift

/-- A method that gives what a positional parameter gave. -/
inductive Accessor where
  | object
  | args
  | context
  deriving DecidableEq, Repr

namespace Accessor

/-- The accessors in the order of the parameters they replace. -/
def all : List Accessor := [object, args, context]

def name : Accessor → Text
  | object => "object".toList
  | args => "args".toList
  | context => "context".toList

/-- The accessor for the parameter `name`; an underscore stands for no parameter. -/
def of? (parameters : List Text) (name : Text) : Option Accessor :=
  if name = ['_'] then none
  else ((parameters.zip all).find? fun entry => entry.1 == name).map Prod.snd

/-- Whether the nearest of the tokens `before` makes the next one a method or constant name. -/
def afterDot (before : List Token) : Bool :=
  before.head?.any fun t => t.is .dot || t.is .scope

/-- The key in a symbol or a string, if it consists of word characters. -/
def keyText (t : Token) : Option Text :=
  let key? : Option Text :=
    match t.kind with
    | .symbol => some (t.text.drop 1)
    | .doubleQuoted | .singleQuoted => some (t.text.drop 1).dropLast
    | _ => none
  key?.bind fun key => if key.all Scan.isWordChar then some key else none

/-- The key that a token is in `args[key]`, where `args` is a parameter read through `args`. The
tokens before are given nearest first. -/
def argsKey (parameters : List Text) (before : List Token) (t : Token) (after : List Token) :
    Option Text :=
  match before, after with
  | bracket :: receiver :: further, close :: _ =>
    if close.kind = .rbracket ∧ bracket.kind = .lbracket ∧ receiver.kind = .identifier ∧
        of? parameters receiver.text = some args ∧ ¬ further.head?.any (·.is .dot) then
      keyText t
    else none
  | _, _ => none

/-- A piece of code with the accessors in place. -/
structure Adapted where
  text : Text
  /-- Whether some parameter was replaced by `args`. -/
  readsArgs : Bool
  deriving DecidableEq, Repr

/-- What follows the first `#{` of a text, with the text up to and including it. -/
def splitInterpolation : Text → Option (Text × Text)
  | '#' :: '{' :: cs => some (['#', '{'], cs)
  | c :: cs => (splitInterpolation cs).map fun found => (c :: found.1, found.2)
  | [] => none

/-- Adapts the code of each interpolation in a string literal. An interpolation right after a
backslash is none. The bound `fuel` is the length of the literal. -/
def adaptLiteral (adapt : Text → Except SkipReason Adapted) (unclosed : SkipReason) :
    (fuel : Nat) → Text → Except SkipReason Adapted
  | 0, s => .ok ⟨s, false⟩
  | fuel + 1, s =>
    match splitInterpolation s with
    | none => .ok ⟨s, false⟩
    | some (opening, after) =>
      if Text.endsWith (opening.take (opening.length - 2)) '\\' then do
        let rest ← adaptLiteral adapt unclosed fuel after
        return ⟨opening ++ rest.text, rest.readsArgs⟩
      else
        match Quoted.interpolationClose after with
        | none => .error unclosed
        | some n => do
          let code ← adapt (after.take n)
          let rest ← adaptLiteral adapt unclosed fuel (after.drop n)
          return ⟨opening ++ code.text ++ rest.text, code.readsArgs || rest.readsArgs⟩

/-- What becomes of one token of a body. `adapt` is applied to interpolated code. -/
def adaptToken (adapt : Text → Except SkipReason Adapted) (parameters : List Text)
    (before : List Token) (t : Token) (after : List Token) : Except SkipReason Adapted :=
  if t.kind = .identifier ∧ ¬ afterDot before then
    match of? parameters t.text with
    | some accessor => .ok ⟨accessor.name, accessor == args⟩
    | none => .ok ⟨t.text, false⟩
  else
    match argsKey parameters before t after with
    | some key => .ok ⟨Name.symbol (Name.underscore key), false⟩
    | none =>
      if t.kind = .doubleQuoted then
        adaptLiteral adapt (.unsupportedResolver t.text) t.text.length t.text
      else .ok ⟨t.text, false⟩

/-- Adapts code in which strings are nested at most `depth` deep. -/
def adaptCode (parameters : List Text) : (depth : Nat) → Text → Except SkipReason Adapted
  | 0, code => .ok ⟨code, false⟩
  | depth + 1, code => do
    let stream := TokenStream.ofText code
    let parts ← (Token.mapNeighbours (adaptToken (adaptCode parameters depth) parameters) []
      stream.tokens).mapM id
    return ⟨TokenStream.weave stream.tokens (parts.map Adapted.text) stream.tail,
      parts.any Adapted.readsArgs⟩

/-- The body of a proc with its parameters read through the accessors. -/
def adaptBody (parameters : List Text) (body : Text) : Except SkipReason Adapted :=
  adaptCode parameters (body.length + 1) body

end Accessor

end SchemaLift
