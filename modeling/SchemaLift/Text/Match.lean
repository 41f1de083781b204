import SchemaLift.Text.Blank

/-!
# Reading a line from left to right

Small readers for the fixed shapes of a line: each takes something off the head of a text and gives
what follows it, or nothing if the text does not start with it.
-/

namespace SchemaLift.Text

/-- The text after a given word. -/
def afterWord? (word : String) (s : Text) : Option Text :=
  if word.toList <+: s then some (s.drop word.length) else none

/-- The text after white space, which may be missing. -/
def afterBlank (s : Text) : Text := trimStart s

/-- The text after white space, of which there must be some. -/
def afterSomeBlank? (s : Text) : Option Text :=
  if s.head?.any isBlankChar then some (trimStart s) else none

/-- The characters with a property at the head of a text, and the text after them. -/
def spanOf (p : Char → Bool) (s : Text) : Text × Text := (s.takeWhile p, s.dropWhile p)

/-- A run that starts with an upper-case letter and goes on with characters of a property. -/
def capitalized? (p : Char → Bool) (s : Text) : Option (Text × Text) :=
  match s with
  | [] => none
  | c :: cs => if c.isUpper then some (c :: cs.takeWhile p, cs.dropWhile p) else none

/-- A comment through the end of the text, or nothing at all. -/
def finalComment? (s : Text) : Option Text :=
  if s.isEmpty || s.head? == some '#' then some s else none

end SchemaLift.Text
