import SchemaLift.Token.Stream

/-!
# Brackets in a token list

Round, square and curly brackets count alike. `closeIndex` finds the bracket that closes an open
one, and `splitTopLevel` cuts a balanced list at the commas outside all brackets.
-/

namespace SchemaLift.Token

/-- What a token adds to the bracket depth. -/
def bracketDelta (t : Token) : Int :=
  if t.kind.opensBracket then 1 else if t.kind.closesBracket then -1 else 0

/-- What tokens add to the bracket depth together. -/
def bracketDepth : List Token → Int
  | [] => 0
  | t :: ts => t.bracketDelta + bracketDepth ts

/-- The number of tokens before the one that closes the outermost of `depth + 1` open brackets. -/
def closeIndex (depth : Nat) : List Token → Option Nat
  | [] => none
  | t :: ts =>
    if t.kind.opensBracket then (closeIndex (depth + 1) ts).map (· + 1)
    else if t.kind.closesBracket then
      match depth with
      | 0 => some 0
      | depth + 1 => (closeIndex depth ts).map (· + 1)
    else (closeIndex depth ts).map (· + 1)

/-- The index of the bracket that closes the one at `start`. -/
def matchingClose (tokens : List Token) (start : Nat) : Option Nat :=
  (closeIndex 0 (tokens.drop (start + 1))).map (· + (start + 1))

/-- The stretches between the commas at depth zero, empty ones included; nothing if the brackets do
not balance. -/
def segments (depth : Nat) : List Token → Option (List (List Token))
  | [] => if depth = 0 then some [[]] else none
  | t :: ts =>
    if t.kind = .comma ∧ depth = 0 then (segments 0 ts).map ([] :: ·)
    else
      let deeper :=
        if t.kind.opensBracket then some (depth + 1)
        else if t.kind.closesBracket then (if depth = 0 then none else some (depth - 1))
        else some depth
      deeper.bind fun depth => (segments depth ts).map fun rest =>
        match rest with
        | [] => [[t]]
        | item :: rest => (t :: item) :: rest

/-- The items between the commas outside all brackets; an empty item is left out. -/
def splitTopLevel (tokens : List Token) : Option (List (List Token)) :=
  (segments 0 tokens).map fun items => items.filter (!·.isEmpty)

end SchemaLift.Token
