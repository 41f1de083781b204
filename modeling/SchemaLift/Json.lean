import SchemaLift.Text.Blank

/-!
# JSON output

A document is written in a compact form or, for reading, over several lines with two spaces for each
level. The fields of an object are written in the order of their keys. In strings only quotes,
backslashes and control characters are escaped.
-/

namespace SchemaLift

inductive JsonValue where
  | bool (b : Bool)
  | number (n : Nat)
  | string (s : Text)
  | array (items : List JsonValue)
  | object (fields : List (String × JsonValue))

namespace JsonValue

def ofString (s : String) : JsonValue := .string s.toList

/-- The object with these fields in the order of their keys. -/
def ofFields (fields : List (String × JsonValue)) : JsonValue :=
  .object (fields.mergeSort fun a b => a.1 ≤ b.1)

def hex4 (n : Nat) : Text :=
  let digits := Nat.toDigits 16 n
  List.replicate (4 - digits.length) '0' ++ digits

def escapeChar (c : Char) : Text :=
  match c with
  | '"' => ['\\', '"']
  | '\\' => ['\\', '\\']
  | '\n' => ['\\', 'n']
  | '\r' => ['\\', 'r']
  | '\t' => ['\\', 't']
  | '\x08' => ['\\', 'b']
  | '\x0c' => ['\\', 'f']
  | c => if c.toNat < 0x20 then '\\' :: 'u' :: hex4 c.toNat else [c]

def quote (s : Text) : Text := '"' :: s.flatMap escapeChar ++ ['"']

def scalarText (b : Bool) : Text := (toString b).toList

mutual

def compact : JsonValue → Text
  | .bool b => scalarText b
  | .number n => (toString n).toList
  | .string s => quote s
  | .array items => '[' :: compactItems items ++ [']']
  | .object fields => '{' :: compactFields fields ++ ['}']

def compactItems : List JsonValue → Text
  | [] => []
  | [j] => compact j
  | j :: rest => compact j ++ ',' :: compactItems rest

def compactFields : List (String × JsonValue) → Text
  | [] => []
  | [(key, j)] => quote key.toList ++ ':' :: compact j
  | (key, j) :: rest => quote key.toList ++ ':' :: compact j ++ ',' :: compactFields rest

end

/-- A new line indented to a level. -/
def newline (level : Nat) : Text := '\n' :: List.replicate (2 * level) ' '

mutual

/-- The document over several lines, where it starts at a level. -/
def prettyAt (level : Nat) : JsonValue → Text
  | .bool b => scalarText b
  | .number n => (toString n).toList
  | .string s => quote s
  | .array [] => ['[', ']']
  | .array (j :: rest) => '[' :: prettyItems (level + 1) (j :: rest) ++ newline level ++ [']']
  | .object [] => ['{', '}']
  | .object (f :: rest) => '{' :: prettyFields (level + 1) (f :: rest) ++ newline level ++ ['}']

def prettyItems (level : Nat) : List JsonValue → Text
  | [] => []
  | [j] => newline level ++ prettyAt level j
  | j :: rest => newline level ++ prettyAt level j ++ ',' :: prettyItems level rest

def prettyFields (level : Nat) : List (String × JsonValue) → Text
  | [] => []
  | [(key, j)] => newline level ++ quote key.toList ++ ": ".toList ++ prettyAt level j
  | (key, j) :: rest =>
    newline level ++ quote key.toList ++ ": ".toList ++ prettyAt level j ++
      ',' :: prettyFields level rest

end

def pretty (j : JsonValue) : Text := prettyAt 0 j

end JsonValue

end SchemaLift
