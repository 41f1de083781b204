import SchemaLift.Text.Blank

/-!
# The extent of quoted text

A double-quoted string may hold interpolated code between `#{` and `}`, and that code may hold
strings again. `closing` finds the character that ends the outermost string or interpolation, with a
stack of the frames that are open. A plain quoted text, as in single quotes, has no interpolation;
`plainExtent` finds its end.
-/

namespace SchemaLift.Quoted

/-- What is open while a string is read. -/
inductive Frame where
  /-- A double-quoted string. -/
  | string
  /-- Interpolated code, with its number of open braces. -/
  | code (depth : Nat)
  /-- A single-quoted string inside interpolated code. -/
  | quote
  deriving DecidableEq, Repr

/-- The number of characters before the one that closes the last of the open frames, the innermost
of which comes first. -/
def closing : List Frame → Text → Option Nat
  | .string :: out, '\\' :: _ :: cs => (closing (.string :: out) cs).map (· + 2)
  | .string :: out, '#' :: '{' :: cs => (closing (.code 0 :: .string :: out) cs).map (· + 2)
  | [.string], '"' :: _ => some 0
  | .string :: out, '"' :: cs => (closing out cs).map (· + 1)
  | [.code 0], '}' :: _ => some 0
  | .code 0 :: out, '}' :: cs => (closing out cs).map (· + 1)
  | .code (d + 1) :: out, '}' :: cs => (closing (.code d :: out) cs).map (· + 1)
  | .code d :: out, '{' :: cs => (closing (.code (d + 1) :: out) cs).map (· + 1)
  | .code d :: out, '"' :: cs => (closing (.string :: .code d :: out) cs).map (· + 1)
  | .code d :: out, '\'' :: cs => (closing (.quote :: .code d :: out) cs).map (· + 1)
  | .quote :: out, '\\' :: _ :: cs => (closing (.quote :: out) cs).map (· + 2)
  | .quote :: out, '\'' :: cs => (closing out cs).map (· + 1)
  | frames, _ :: cs => (closing frames cs).map (· + 1)
  | _, [] => none

/-- The number of characters before the quote that ends a double-quoted string, in the text right
after its opening quote. -/
def stringClose (s : Text) : Option Nat := closing [.string] s

/-- The number of characters before the brace that ends an interpolation, in the text right after
its `#{`. -/
def interpolationClose (s : Text) : Option Nat := closing [.code 0] s

/-- How far a plain quoted text reaches. -/
inductive Extent where
  /-- It ends, and takes `n` characters with its closing quote. -/
  | closed (n : Nat)
  /-- It does not end, and `n` characters cannot be anything else. -/
  | unclosed (n : Nat)
  deriving DecidableEq, Repr

def Extent.add (k : Nat) : Extent → Extent
  | closed n => closed (n + k)
  | unclosed n => unclosed (n + k)

/-- The extent of a plain quoted text after its opening quote. A backslash takes the next character
with it, but none that ends the line. -/
def plainExtent (quote : Char) : Text → Extent
  | [] => .unclosed 0
  | ['\\'] => .unclosed 1
  | '\\' :: '\n' :: _ => .unclosed 1
  | '\\' :: _ :: cs => (plainExtent quote cs).add 2
  | c :: cs => if c = quote then .closed 1 else (plainExtent quote cs).add 1

end SchemaLift.Quoted
