import SchemaLift.Text.Indent
import SchemaLift.Token.Bracket
import SchemaLift.Upgrade.Skip

/-!
# Proc literals

A proc literal is `->(a, b) { ... }`, or `lambda`, `proc` or `Proc.new` with a block, in braces or
with `do` and `end`; a block may name its parameters between pipes. Its opener must be closed by the
last code token of the text.
-/

namespace SchemaLift

structure ProcLiteral where
  parameters : List Text
  /-- The text between the opener, or its parameters, and the closer. -/
  body : Text
  deriving DecidableEq, Repr

namespace ProcLiteral

/-- Parameters are plain identifiers between commas. -/
def parameters? (tokens : List Token) : Option (List Text) := do
  let items ← Token.splitTopLevel tokens
  items.mapM fun item =>
    match item with
    | [t] => if t.kind = .identifier then some t.text else none
    | _ => none

/-- The parameters written before the block, and the tokens from the block's opener on. -/
def introduction : List Token → Option (List Text × List Token)
  | [] => none
  | t :: ts =>
    if t.kind = .arrow then
      match ts with
      | [] => some ([], [])
      | u :: us =>
        if u.kind = .lparen then do
          let n ← Token.closeIndex 0 us
          let parameters ← parameters? (us.take n)
          return (parameters, us.drop (n + 1))
        else some ([], ts)
    else if t.isWord "lambda" || t.isWord "proc" then some ([], ts)
    else
      match ts with
      | dot :: new :: ts =>
        if t.kind = .constant ∧ t.text = "Proc".toList ∧ dot.kind = .dot ∧ new.isWord "new" then
          some ([], ts)
        else none
      | _ => none

/-- The tokens between a block's opener and its closer, and the closer, which is the last token. -/
def inside : List Token → Option (List Token × Token)
  | [] => none
  | opener :: rest =>
    match rest.getLast? with
    | none => none
    | some closer =>
      let closes :=
        if opener.kind = .lbrace then Token.closeIndex 0 rest == some (rest.length - 1)
        else if opener.kind = .doWord then closer.is .endWord
        else false
      if closes then some (rest.dropLast, closer) else none

/-- Parameters between pipes at the head of a block, and the tokens after them. -/
def pipedParameters (tokens : List Token) : Option (List Text × List Token) :=
  let names := tokens.takeWhile (!·.is .pipe)
  match tokens.drop names.length with
  | [] => none
  | _ :: rest => (parameters? names).map fun parameters => (parameters, rest)

/-- The source of the tokens of a body and of the gap before its closer. -/
def bodyText (tokens : List Token) (closer : Token) : Text :=
  tokens.flatMap Token.full ++ closer.gap

/-- The proc literal that a token list is. -/
def ofTokens (tokens : List Token) : Option ProcLiteral := do
  let (parameters, block) ← introduction tokens
  let (inner, closer) ← inside block
  if parameters.isEmpty && inner.head?.any (·.is .pipe) then
    let (parameters, inner) ← pipedParameters inner.tail
    return ⟨parameters, bodyText inner closer⟩
  else return ⟨parameters, bodyText inner closer⟩

def firstLine (s : Text) : Text := Text.trim (s.takeWhile (· ≠ '\n'))

def parse (s : Text) : Except SkipReason ProcLiteral :=
  match ofTokens (tokenizeCode s) with
  | some p => .ok p
  | none => .error (.unsupportedResolver (firstLine s))

def trimEmptyEnds (lines : List Line) : List Line :=
  ((lines.dropWhile List.isEmpty).reverse.dropWhile List.isEmpty).reverse

/-- The lines of a body: the text after the opener without white space around it, and the lines
below without their common indentation. The line of the closer counts only if it holds more. -/
def bodyLines (body : Text) : List Line :=
  match Text.lines body with
  | [] => []
  | first :: rest =>
    let first := Text.trim first
    let rest := if rest.getLast?.any Text.isBlank then rest.dropLast else rest
    trimEmptyEnds ((if first.isEmpty then [] else [first]) ++ Text.dedent rest)

/-- The method `header` with a body, indented below `indent`. Empty lines stay empty. -/
def methodLines (indent header : Text) (body : List Line) : List Line :=
  (indent ++ "def ".toList ++ header) ::
    body.map (fun line => if line.isEmpty then [] else indent ++ ' ' :: ' ' :: line) ++
    [indent ++ "end".toList]

end ProcLiteral

end SchemaLift
