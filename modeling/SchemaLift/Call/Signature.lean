import SchemaLift.Text.Indent
import SchemaLift.Token.Bracket

/-!
# Call signatures

A declaration is a call such as `field :name, !types.String, "About", property: :title do`. Its
signature keeps the arguments as written: the name, the further positional arguments, the keyword
arguments in either spelling, and the `do` that opens a block. Arguments are cut at the commas
outside all brackets. `render` writes a signature on one line.
-/

namespace SchemaLift

/-- How a keyword argument is spelled. -/
inductive KeyStyle where
  /-- `key: value` -/
  | label
  /-- `:key => value` -/
  | rocket
  deriving DecidableEq, Repr

structure KeywordArgument where
  key : Text
  value : Text
  style : KeyStyle
  deriving DecidableEq, Repr

namespace KeywordArgument

def labelled (key value : Text) : KeywordArgument := ⟨key, value, .label⟩

def render (a : KeywordArgument) : Text :=
  match a.style with
  | .label => a.key ++ ": ".toList ++ a.value
  | .rocket => ':' :: a.key ++ " => ".toList ++ a.value

end KeywordArgument

inductive Argument where
  | positional (text : Text)
  | keyword (argument : KeywordArgument)
  deriving DecidableEq, Repr

/-- The argument that the tokens between two commas are. A quoted symbol makes no key. -/
def Argument.ofTokens (item : List Token) : Argument :=
  match item with
  | key :: value :: rest =>
    if key.kind = .label then
      .keyword ⟨key.text.dropLast, Token.spelling (value :: rest), .label⟩
    else if key.kind = .symbol ∧ value.kind = .hashRocket ∧ rest ≠ [] ∧
        ¬ [':', '"'] <+: key.text then
      .keyword ⟨key.text.drop 1, Token.spelling rest, .rocket⟩
    else .positional (Token.spelling item)
  | _ => .positional (Token.spelling item)

structure Signature where
  indent : Text
  keyword : Text
  /-- The first argument, when it is positional. -/
  name : Option Text
  positional : List Text
  keywords : List KeywordArgument
  /-- Whether the arguments stand in parentheses right after the keyword. -/
  parenthesized : Bool
  /-- `do`, or `do |parameters|`, when the call opens a block. -/
  block : Option Text
  /-- The comments of the statement, in order. -/
  comments : List Text
  deriving DecidableEq, Repr

namespace Signature

/-- Cuts a trailing `do`, or `do |parameters|`, off a call and gives it as written. -/
def splitBlock (tokens : List Token) : List Token × Option Text :=
  let cut (rest block : List Token) : List Token × Option Text :=
    match rest with
    | [] => (tokens, none)
    | opener :: call =>
      if opener.kind = .doWord then (call.reverse, some (Token.spelling (opener :: block)))
      else (tokens, none)
  match tokens.reverse with
  | [] => (tokens, none)
  | last :: before =>
    if last.kind = .pipe then
      let parameters := before.takeWhile (!·.is .pipe)
      match before.drop parameters.length with
      | [] => (tokens, none)
      | pipe :: rest => cut rest (pipe :: (parameters.reverse ++ [last]))
    else cut (last :: before) []

/-- Adds one argument to a signature. The first argument of a call is its name if it is
positional. -/
def addArgument (s : Signature) : Argument → Signature
  | .keyword a => { s with keywords := s.keywords ++ [a] }
  | .positional text =>
    if s.name.isNone && s.positional.isEmpty && s.keywords.isEmpty then { s with name := some text }
    else { s with positional := s.positional ++ [text] }

/-- The tokens of the arguments, without the parentheses of a call; nothing if these are not closed
by the last token. -/
def argumentTokens (rest : List Token) : Option (Bool × List Token) :=
  match rest with
  | [] => some (false, [])
  | t :: ts =>
    if t.kind = .lparen ∧ t.gap = [] then
      if Token.closeIndex 0 ts = some (ts.length - 1) then some (true, ts.dropLast) else none
    else some (false, t :: ts)

/-- The signature of a call header, which may span several lines; nothing if it does not start with
an identifier or its brackets do not balance. -/
def parse (s : Text) : Option Signature := do
  let all := tokenize s
  let (tokens, block) := splitBlock (Token.dropComments [] all)
  let keyword ← tokens.head?
  if keyword.kind ≠ .identifier then none
  let (parenthesized, rest) ← argumentTokens tokens.tail
  let items ← Token.splitTopLevel rest
  let bare : Signature :=
    { indent := Text.indentation s
      keyword := keyword.text
      name := none
      positional := []
      keywords := []
      parenthesized
      block
      comments := (all.filter (·.is .comment)).map Token.text }
  return (items.map Argument.ofTokens).foldl addArgument bare

def keyword? (s : Signature) (key : Text) : Option Text :=
  (s.keywords.find? (·.key == key)).map KeywordArgument.value

def hasKeyword (s : Signature) (key : Text) : Bool := (s.keyword? key).isSome

def removeKeyword (s : Signature) (key : Text) : Signature :=
  { s with keywords := s.keywords.eraseP (·.key == key) }

/-- Gives the first argument `old` in a list the key `new`. -/
def renameFirst (old new : Text) : List KeywordArgument → List KeywordArgument
  | [] => []
  | a :: rest =>
    if a.key = old then { a with key := new } :: rest else a :: renameFirst old new rest

/-- The signature with the first keyword argument `old` under the key `new`. -/
def renameKeyword (s : Signature) (old new : Text) : Signature :=
  { s with keywords := renameFirst old new s.keywords }

/-- The signature with `key: value` after all its arguments. -/
def pushKeyword (s : Signature) (key value : Text) : Signature :=
  { s with keywords := s.keywords ++ [.labelled key value] }

def arguments (s : Signature) : List Text :=
  s.name.toList ++ s.positional ++ s.keywords.map KeywordArgument.render

def commaSeparated : List Text → Text
  | [] => []
  | [a] => a
  | a :: rest => a ++ ", ".toList ++ commaSeparated rest

/-- The header as one statement: the call, the block opener and the comments. -/
def render (s : Signature) : Text :=
  let arguments := commaSeparated s.arguments
  let call := s.indent ++ s.keyword ++
    (if s.parenthesized then '(' :: arguments ++ [')']
      else if arguments.isEmpty then [] else ' ' :: arguments)
  let block := match s.block with
    | some opener => ' ' :: opener
    | none => []
  call ++ block ++ s.comments.flatMap (' ' :: ·)

end Signature

end SchemaLift
