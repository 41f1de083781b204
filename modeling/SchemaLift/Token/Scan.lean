import SchemaLift.Token.Kind
import SchemaLift.Token.Quoted

/-!
# Cutting a text into tokens

`head` says what stands at the head of a text: the longest token there, where the words `do` and
`end` win over names of the same length. Characters that start no token are passed over one by one;
a plain quoted text without its end is passed over as far as it reaches. `pieces` cuts a whole text,
and `pieces_text` says that no character is lost.
-/

namespace SchemaLift

/-- A stretch of text that is one token, or that belongs to none. -/
structure Piece where
  kind : Option TokenKind
  text : Text
  deriving DecidableEq, Repr

namespace Scan

def isWordStart (c : Char) : Bool := c.isAlpha || c == '_'

def isWordChar (c : Char) : Bool := c.isAlphanum || c == '_'

/-- The number of leading characters of a text with a property. -/
def run (p : Char → Bool) (s : Text) : Nat := (s.takeWhile p).length

/-- The length of the rest of a constant path: word characters, and any number of `::` with a word
that starts in upper case. -/
def constantTail : Text → Nat
  | ':' :: ':' :: c :: cs => if c.isUpper then constantTail cs + 3 else 0
  | c :: cs => if isWordChar c then constantTail cs + 1 else 0
  | [] => 0

/-- A token that starts with the letter or underscore `c`. -/
def word (c : Char) (cs : Text) : TokenKind × Nat :=
  let n := run isWordChar cs
  let path := constantTail cs
  if c.isUpper && n < path then (.constant, path)
  else match cs.drop n with
    | ':' :: _ => (.label, n + 1)
    | '?' :: ':' :: _ | '!' :: ':' :: _ => (.label, n + 2)
    | rest =>
      if c.isUpper then (.constant, n)
      else match rest with
        | '?' :: _ | '!' :: _ => (.identifier, n + 1)
        | _ =>
          if c :: cs.take n = ['d', 'o'] then (.doWord, n)
          else if c :: cs.take n = ['e', 'n', 'd'] then (.endWord, n)
          else (.identifier, n)

/-- The digits of a number after its first one, with a fraction if digits follow the point. -/
def number (cs : Text) : Nat :=
  let n := run (fun c => c.isDigit || c == '_') cs
  match cs.drop n with
  | '.' :: fraction =>
    if run Char.isDigit fraction = 0 then n else n + 1 + run Char.isDigit fraction
  | _ => n

/-- A token that starts with a colon. -/
def afterColon : Text → Option TokenKind × Nat
  | ':' :: _ => (some .scope, 1)
  | '"' :: cs =>
    match Quoted.plainExtent '"' cs with
    | .closed n => (some .symbol, n + 1)
    | .unclosed n => (none, n + 1)
  | c :: cs =>
    if isWordStart c then
      let n := run isWordChar cs
      match cs.drop n with
      | '?' :: _ | '!' :: _ | '=' :: _ => (some .symbol, n + 2)
      | _ => (some .symbol, n + 1)
    else (some .colon, 0)
  | [] => (some .colon, 0)

/-- A token that starts with an at sign, with one or two of them. -/
def afterAt : Text → Option TokenKind × Nat
  | '@' :: c :: cs =>
    if isWordStart c then (some .instanceVariable, run isWordChar cs + 2) else (none, 0)
  | c :: cs => if isWordStart c then (some .instanceVariable, run isWordChar cs + 1) else (none, 0)
  | [] => (none, 0)

/-- The tokens that are always a single character. -/
def punctuation : Char → Option TokenKind
  | '.' => some .dot
  | ',' => some .comma
  | ';' => some .semicolon
  | '(' => some .lparen
  | ')' => some .rparen
  | '[' => some .lbracket
  | ']' => some .rbracket
  | '{' => some .lbrace
  | '}' => some .rbrace
  | '|' => some .pipe
  | '!' => some .bang
  | _ => none

def isOperator (c : Char) : Bool :=
  ['+', '-', '*', '/', '%', '<', '>', '=', '&', '^', '~', '?'].contains c

/-- What stands at the head of the text `c :: cs`: the kind of the token, if there is one, and how
many characters after `c` go with it. -/
def head (c : Char) (cs : Text) : Option TokenKind × Nat :=
  if c = '"' then
    match Quoted.stringClose cs with
    | some n => (some .doubleQuoted, n + 1)
    | none => (none, 0)
  else if c = '\'' then
    match Quoted.plainExtent '\'' cs with
    | .closed n => (some .singleQuoted, n)
    | .unclosed n => (none, n)
  else if c = ':' then afterColon cs
  else if c = '#' then (some .comment, run (· != '\n') cs)
  else if c = '@' then afterAt cs
  else if c = '$' then
    if run isWordChar cs = 0 then (none, 0) else (some .globalVariable, run isWordChar cs)
  else if c.isDigit then (some .number, number cs)
  else if isWordStart c then ((word c cs).1, (word c cs).2)
  else if c = '-' ∧ cs.head? = some '>' then (some .arrow, 1)
  else if c = '=' ∧ cs.head? = some '>' then (some .hashRocket, 1)
  else if isOperator c then (some .operator, 0)
  else (punctuation c, 0)

/-- The pieces of a text of which the first `taken` characters are already in a piece. -/
def piecesFrom : Nat → Text → List Piece
  | _, [] => []
  | taken + 1, _ :: cs => piecesFrom taken cs
  | 0, c :: cs => ⟨(head c cs).1, c :: cs.take (head c cs).2⟩ :: piecesFrom (head c cs).2 cs

def pieces (s : Text) : List Piece := piecesFrom 0 s

theorem piecesFrom_eq_drop (taken : Nat) (s : Text) :
    piecesFrom taken s = pieces (s.drop taken) := by
  induction s generalizing taken with
  | nil => simp [pieces, piecesFrom]
  | cons c cs ih =>
    cases taken with
    | zero => rfl
    | succ taken => rw [piecesFrom, ih, List.drop_succ_cons]

theorem pieces_cons (c : Char) (cs : Text) :
    pieces (c :: cs) =
      ⟨(head c cs).1, c :: cs.take (head c cs).2⟩ :: pieces (cs.drop (head c cs).2) := by
  rw [pieces, piecesFrom, piecesFrom_eq_drop]

/-- Cutting a text into pieces loses nothing. -/
theorem pieces_text (s : Text) : (pieces s).flatMap Piece.text = s := by
  induction hn : s.length using Nat.strongRecOn generalizing s with
  | _ n ih =>
    cases s with
    | nil => rfl
    | cons c cs =>
      rw [pieces_cons, List.flatMap_cons,
        ih (cs.drop (head c cs).2).length (by simp at hn ⊢; omega) _ rfl]
      simp

end Scan

end SchemaLift
