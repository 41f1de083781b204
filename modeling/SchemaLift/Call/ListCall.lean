import SchemaLift.Text.Indent
import SchemaLift.Token.Bracket

/-!
# Calls with a list

A call such as `interfaces [A, B]` or `possible_types([A, B])` has one array literal as its only
argument. Its items are read as written; comments anywhere in the call are kept apart.
-/

namespace SchemaLift

structure ListCall where
  items : List Text
  comments : List Text
  deriving DecidableEq, Repr

namespace ListCall

/-- The tokens between the brackets of an array literal that is the whole list. -/
def arrayItems? : List Token → Option (List Token)
  | [] => none
  | opener :: rest =>
    if opener.kind = .lbracket ∧ Token.closeIndex 0 rest = some (rest.length - 1) then
      some rest.dropLast
    else none

/-- The tokens of the argument of a call, without call parentheses. -/
def argument? : List Token → Option (List Token)
  | [] => none
  | t :: ts =>
    if t.kind = .lparen ∧ t.gap = [] then
      if ts.getLast?.any (·.is .rparen) then some ts.dropLast else none
    else some (t :: ts)

def parse? (keyword : String) (s : Text) : Option ListCall := do
  let all := tokenize s
  match Token.dropComments [] all with
  | [] => none
  | first :: rest =>
    if !first.isWord keyword then none
    let argument ← argument? rest
    let inner ← arrayItems? argument
    let items ← Token.splitTopLevel inner
    return ⟨items.map Token.spelling, (all.filter (·.is .comment)).map Token.text⟩

end ListCall

end SchemaLift
