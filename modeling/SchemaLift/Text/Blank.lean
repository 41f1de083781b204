/-!
# Texts and blank characters

A text is the list of its characters, so every position is a character boundary. The blank
characters are those with Unicode's property `White_Space`; trimming removes them from the ends of a
text.
-/

namespace SchemaLift

/-- A text, read character by character. -/
abbrev Text := List Char

namespace Text

/-- The code points with the property `White_Space`, as inclusive ranges in ascending order. -/
def blankRanges : List (Nat × Nat) :=
  [(0x09, 0x0D), (0x20, 0x20), (0x85, 0x85), (0xA0, 0xA0), (0x1680, 0x1680), (0x2000, 0x200A),
    (0x2028, 0x2029), (0x202F, 0x202F), (0x205F, 0x205F), (0x3000, 0x3000)]

/-- Whether a character is white space. -/
def isBlankChar (c : Char) : Bool :=
  blankRanges.any fun range => range.1 ≤ c.toNat && c.toNat ≤ range.2

def isBlank (s : Text) : Bool := s.all isBlankChar

def trimStart (s : Text) : Text := s.dropWhile isBlankChar

def trimEnd (s : Text) : Text := (s.reverse.dropWhile isBlankChar).reverse

def trim (s : Text) : Text := trimEnd (trimStart s)

/-- The number of bytes that a text takes in UTF-8. -/
def utf8Size : Text → Nat
  | [] => 0
  | c :: cs => c.utf8Size + utf8Size cs

def endsWith (s : Text) (c : Char) : Bool := s.getLast? == some c

theorem utf8Size_append (s t : Text) : utf8Size (s ++ t) = utf8Size s + utf8Size t := by
  induction s with
  | nil => simp [utf8Size]
  | cons c cs ih => simp only [List.cons_append, utf8Size, ih, Nat.add_assoc]

end Text

end SchemaLift
