import SchemaLift.Token.Bracket

/-!
# Statements

Inside a block a statement is a keyword with one value, as in `description "About" # note` or
`type(!types.Int)`. A value in parentheses is read without them. Only the comments after the last
code belong to the statement itself; one further inside is part of the value.
-/

namespace SchemaLift

structure Statement where
  keyword : Text
  /-- Everything after the keyword, without call parentheses. -/
  value : Text
  /-- The comments after the last code. -/
  comments : List Text
  deriving DecidableEq, Repr

namespace Statement

/-- The value that the tokens after the keyword spell. -/
def valueOf : List Token → Text
  | [] => []
  | first :: rest =>
    if first.kind = .lparen ∧ first.gap = [] ∧
        Token.closeIndex 0 rest = some (rest.length - 1) then
      Text.trim (rest.dropLast.flatMap Token.full ++ (rest.getLast?.map Token.gap).getD [])
    else Token.spelling (first :: rest)

def trailingComments (tokens : List Token) : List Text :=
  ((tokens.reverse.takeWhile (·.is .comment)).reverse).map Token.text

/-- The statement that a text is; nothing if it does not start with an identifier. -/
def parse (s : Text) : Option Statement :=
  let all := tokenize s
  match Token.dropComments [] all with
  | [] => none
  | keyword :: rest =>
    if keyword.kind = .identifier then some ⟨keyword.text, valueOf rest, trailingComments all⟩
    else none

end Statement

end SchemaLift
