import SchemaLift.Declaration.Edit
import SchemaLift.Proc.Accessor
import SchemaLift.Proc.Literal

/-!
# Resolver methods

A resolver proc becomes a method of the field's name. The method takes `**args` when its body reads
the arguments or when the field declares any.
-/

namespace SchemaLift

/-- The lines of the resolver method `method`, from the text of its proc. -/
def resolverMethod (method resolver indent : Text) (declaresArguments : Bool) :
    Except SkipReason (List Line) := do
  let proc ← ProcLiteral.parse resolver
  let body ← Accessor.adaptBody proc.parameters proc.body
  let header :=
    if body.readsArgs || declaresArguments then method ++ "(**args)".toList else method
  return ProcLiteral.methodLines indent header (ProcLiteral.bodyLines body.text)

namespace Declaration

/-- Moves the resolver of a declaration into a method: the first `resolve` statement of its block,
or else its `resolve:` argument. -/
def moveResolver : Revision := fun d lines => do
  let statement ← d.findStatement lines ["resolve"]
  let resolver? := match statement with
    | some (_, s) => some s.value
    | none => d.signature.keyword? "resolve".toList
  match resolver? with
  | none => return .keep
  | some resolver =>
    match d.signature.name.bind Name.declared? with
    | none => return .skip (.unsupportedResolver resolver)
    | some method =>
      let declaresArguments ← d.retains lines "argument" []
      match resolverMethod method resolver d.signature.indent declaresArguments with
      | .error reason => return .skip reason
      | .ok trailer =>
        match statement with
        | some (r, s) =>
          let signature := { d.signature with comments := d.signature.comments ++ s.comments }
          return .replace (← d.reassemble lines signature [r] trailer)
        | none =>
          let signature := d.signature.removeKeyword "resolve".toList
          return .replace (← d.reassemble lines signature [] trailer)

/-- The keywords of block statements that name the method a field reads. -/
def methodWords : List String := ["property", "method"]

/-- Renames the argument `property:` to `method:`; without either, a `property` or `method`
statement of the block becomes the argument. -/
def renameProperty : Revision := fun d lines => do
  let property := "property".toList
  let method := "method".toList
  let renamed := d.signature.hasKeyword property
  let signature := d.signature.renameKeyword property method
  let keepOrReplace : Except Misplaced Edit :=
    if renamed then (d.reassemble lines signature [] []).map .replace else .ok .keep
  if signature.hasKeyword method then keepOrReplace
  else
    match ← d.findStatement lines methodWords with
    | none => keepOrReplace
    | some (r, s) =>
      let signature := signature.pushKeyword method s.value
      let signature := { signature with comments := signature.comments ++ s.comments }
      return .replace (← d.reassemble lines signature [r] [])

end Declaration

end SchemaLift
