import SchemaLift.Token.Stream
import SchemaLift.Type.Scalar

/-!
# Type expressions

A legacy type expression names a constant, wraps it in lists, and marks levels as non-null:

```text
outer   = '!'? ( ( '->' | ( 'lambda' | 'proc' ) ) '{' level '}' | level )
level   = '!' level | ( 'types'? '[' level ']' | ( 'types' '.' )? Constant ) postfix*
postfix = '.to_non_null_type' | '.to_list_type' | '.' identifier
```

where `lambda` and `proc` count only right before the brace, and an identifier as postfix only while
there is no list around the constant. Of the marks only those outside the outermost list are kept:
they say whether the whole is nullable.
-/

namespace SchemaLift

structure TypeExpression where
  /-- The constant under its canonical name, with the postfixes that stay. -/
  base : Text
  nullable : Bool
  /-- The number of lists around the constant. -/
  listDepth : Nat
  /-- Whether the expression is deferred by a proc. -/
  deferred : Bool
  deriving DecidableEq, Repr

namespace TypeExpression

def isList (t : TypeExpression) : Bool := 0 < t.listDepth

/-- The expression in its new form, without nullability. -/
def render (t : TypeExpression) : Text :=
  let inner := List.replicate t.listDepth '[' ++ t.base ++ List.replicate t.listDepth ']'
  if t.deferred then "-> \x7b ".toList ++ inner ++ " \x7d".toList else inner

/-- One level of an expression, read from the inside out. -/
structure Level where
  base : Text
  listDepth : Nat
  nonNull : Bool
  deriving DecidableEq, Repr

/-- What stands around a level and is still open to the right. -/
inductive Wrapper where
  | bang
  | list
  deriving DecidableEq, Repr

/-- The wrappers in front of a constant, the innermost one first, and the tokens after them. `outer`
holds the wrappers read before. -/
def wrappers (outer : List Wrapper) : List Token → List Wrapper × List Token
  | [] => (outer, [])
  | t :: ts =>
    if t.kind = .bang then wrappers (.bang :: outer) ts
    else if t.kind = .lbracket then wrappers (.list :: outer) ts
    else if t.isWord "types" then
      match ts with
      | [] => (outer, t :: ts)
      | u :: us => if u.kind = .lbracket then wrappers (.list :: outer) us else (outer, t :: ts)
    else (outer, t :: ts)

/-- A constant, possibly after `types.`. -/
def named (ts : List Token) : Option (Level × List Token) :=
  let constant : List Token → Option (Level × List Token)
    | [] => none
    | t :: ts =>
      if t.kind = .constant then some (⟨Scalar.canonical t.text, 0, false⟩, ts) else none
  match ts with
  | t :: u :: us => if t.isWord "types" then (if u.kind = .dot then constant us else none)
    else constant ts
  | _ => constant ts

/-- The level after one postfix method, if the method may stand there. -/
def postfixed (level : Level) (method : Text) : Option Level :=
  if method = "to_non_null_type".toList then some { level with nonNull := true }
  else if method = "to_list_type".toList then
    some { level with listDepth := level.listDepth + 1, nonNull := false }
  else if level.listDepth = 0 then some { level with base := level.base ++ '.' :: method }
  else none

/-- The level with all the postfixes at the head of the tokens. -/
def postfixes (level : Level) : List Token → Option (Level × List Token)
  | [] => some (level, [])
  | t :: ts =>
    if t.kind = .dot then
      match ts with
      | [] => none
      | m :: ts =>
        if m.kind = .identifier then (postfixed level m.text).bind fun level => postfixes level ts
        else none
    else some (level, t :: ts)

/-- The level inside the given wrappers, which are closed one after the other. -/
def closeWrappers (level : Level) : List Wrapper → List Token → Option (Level × List Token)
  | [], ts => some (level, ts)
  | .bang :: outer, ts => closeWrappers { level with nonNull := true } outer ts
  | .list :: outer, ts =>
    match ts with
    | [] => none
    | t :: ts =>
      if t.kind = .rbracket then
        (postfixes { level with listDepth := level.listDepth + 1, nonNull := false } ts).bind
          fun (level, ts) => closeWrappers level outer ts
      else none

/-- A level at the head of the tokens, and the tokens after it. -/
def level (ts : List Token) : Option (Level × List Token) := do
  let (outer, ts) := wrappers [] ts
  let (base, ts) ← named ts
  let (base, ts) ← postfixes base ts
  closeWrappers base outer ts

/-- The tokens after the mark of a deferred expression, if there is one. -/
def afterDeferral : List Token → Option (List Token)
  | t :: ts =>
    if t.kind = .arrow then some ts
    else if (t.isWord "lambda" || t.isWord "proc") && ts.head?.any (·.is .lbrace) then some ts
    else none
  | [] => none

def ofTokens (ts : List Token) : Option TypeExpression := do
  let bang := ts.head?.any (·.is .bang)
  let ts := if bang then ts.tail else ts
  let finish (level : Level) (deferred : Bool) (rest : List Token) : Option TypeExpression :=
    if rest.isEmpty then
      some ⟨level.base, !(bang || level.nonNull), level.listDepth, deferred⟩
    else none
  match afterDeferral ts with
  | some ts =>
    if ts.head?.any (·.is .lbrace) then
      let (inner, ts) ← level ts.tail
      if ts.head?.any (·.is .rbrace) then finish inner true ts.tail else none
    else none
  | none =>
    let (whole, ts) ← level ts
    finish whole false ts

def parse (s : Text) : Option TypeExpression := ofTokens (tokenizeCode s)

end TypeExpression

end SchemaLift
