import SchemaLift.Text.Lines
import SchemaLift.Token.Bracket

/-!
# The shape of a line

Blocks are found from what each line opens and closes. Keyword blocks and brackets are counted
apart, so a proc in braces never moves the block depth. A definition keyword opens a block at the
start of a statement or of an assigned value; so does a condition or a loop, which elsewhere is a
modifier. The `do` that may follow a loop's condition belongs to the loop.
-/

namespace SchemaLift

/-- A keyword that opens a block, or an `end`. -/
inductive BlockEvent where
  | opens
  | closes
  deriving DecidableEq, Repr

namespace BlockEvent

def delta : BlockEvent → Int
  | opens => 1
  | closes => -1

def total : List BlockEvent → Int
  | [] => 0
  | e :: es => e.delta + total es

/-- Keywords that open a block where a statement or an assigned value starts. -/
def definitionWords : List String := ["class", "module", "def", "begin", "case"]

/-- Condition keywords; they open a block in the same places. -/
def conditionWords : List String := ["if", "unless"]

/-- Loop keywords; they open a block in the same places and may be followed by a `do` of their
own. -/
def loopWords : List String := ["while", "until", "for"]

def isWordOf (words : List String) (t : Token) : Bool := words.any t.isWord

/-- Whether a statement or an assigned value starts after `before`, the token before a keyword. -/
def startsValue (before : Option Token) : Bool :=
  match before with
  | none => true
  | some t => t.is .semicolon || (t.is .operator && t.text == ['='])

/-- Whether `before` makes the next token a method or constant name. -/
def afterDot (before : Option Token) : Bool :=
  match before with
  | none => false
  | some t => t.is .dot || t.is .scope

/-- The events of tokens in order. `before` is the token before them, and `loop` says whether a
loop waits for its `do`. -/
def scan (before : Option Token) (loop : Bool) : List Token → List BlockEvent
  | [] => []
  | t :: ts =>
    if t.kind = .semicolon then scan (some t) false ts
    else if afterDot before then scan (some t) loop ts
    else if t.kind = .doWord then
      if loop then scan (some t) false ts else opens :: scan (some t) false ts
    else if t.kind = .endWord then closes :: scan (some t) loop ts
    else if startsValue before && isWordOf (definitionWords ++ conditionWords ++ loopWords) t then
      opens :: scan (some t) (if isWordOf definitionWords t then loop else isWordOf loopWords t) ts
    else scan (some t) loop ts

def ofTokens (tokens : List Token) : List BlockEvent := scan none false tokens

end BlockEvent

/-- What matters of a line when blocks and statements are matched. -/
structure LineShape where
  events : List BlockEvent
  /-- What the line adds to the bracket depth. -/
  brackets : Int
  /-- The statement goes on in the next line, after a comma or a backslash. -/
  continues : Bool
  /-- The line holds no code. -/
  isEmpty : Bool
  deriving DecidableEq, Repr

namespace LineShape

def ofLine (line : Line) : LineShape :=
  let tokens := tokenizeCode line
  { events := BlockEvent.ofTokens tokens
    brackets := Token.bracketDepth tokens
    continues := Text.endsWith (Text.trimEnd line) '\\' || tokens.getLast?.any (·.is .comma)
    isEmpty := tokens.isEmpty }

/-- What the line adds to the block depth. -/
def depth (s : LineShape) : Int := BlockEvent.total s.events

end LineShape

end SchemaLift
