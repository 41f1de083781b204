import SchemaLift.Toml.Scalar

/-!
# Reading TOML

A document is read line by line: blank lines, headers, and keys with their values. Every reader
takes what it reads off the head of a text and gives the rest. `Document.parse` gives the entries of
the whole document.
-/

namespace SchemaLift.Toml

/-- How deep arrays and inline tables may be nested, and how long a dotted key may be. -/
def maxDepth : Nat := 79

abbrev Reader (α : Type) := Text → Except Problem (α × Text)

/-! ## Blanks -/

def isSpace (c : Char) : Bool := c == ' ' || c == '\t'

/-- A character that may stand in a comment or in a quoted text. -/
def isPlainChar (c : Char) : Bool := c == '\t' || (0x20 ≤ c.toNat && c.toNat != 0x7F)

def skipSpaces (s : Text) : Text := s.dropWhile isSpace

/-- The text after a line end, if one stands at its head. -/
def afterNewline? : Text → Option Text
  | '\n' :: cs => some cs
  | '\r' :: '\n' :: cs => some cs
  | _ => none

/-- The text after the rest of a line, which may hold a comment. -/
def lineEnd (s : Text) : Except Problem Text :=
  let s := skipSpaces s
  let s := if s.head? = some '#' then s.dropWhile isPlainChar else s
  if s.isEmpty then .ok []
  else match afterNewline? s with
    | some rest => .ok rest
    | none => .error .unexpected

/-- The text after white space, line ends and comments. -/
def skipBlank (inComment : Bool) : Text → Text
  | [] => []
  | c :: cs =>
    if c = '\n' then skipBlank false cs
    else if c = '\r' ∧ cs.head? = some '\n' then skipBlank inComment cs
    else if inComment then (if isPlainChar c then skipBlank true cs else c :: cs)
    else if isSpace c then skipBlank false cs
    else if c = '#' then skipBlank true cs
    else c :: cs

/-! ## Strings -/

/-- The character with a code point given by hexadecimal digits. -/
def charOf (digits : Text) : Except Problem Char :=
  let n := numeral 16 digits
  if digits.all isHexDigit ∧ n.isValidChar then .ok (Char.ofNat n) else .error .badEscape

/-- The character that an escape stands for, from the text after its backslash. -/
def escaped : Reader Char
  | 'b' :: cs => .ok ('\x08', cs)
  | 't' :: cs => .ok ('\t', cs)
  | 'n' :: cs => .ok ('\n', cs)
  | 'f' :: cs => .ok ('\x0c', cs)
  | 'r' :: cs => .ok ('\r', cs)
  | '"' :: cs => .ok ('"', cs)
  | '\\' :: cs => .ok ('\\', cs)
  | 'u' :: cs => if cs.length < 4 then .error .badEscape
    else (charOf (cs.take 4)).map fun c => (c, cs.drop 4)
  | 'U' :: cs => if cs.length < 8 then .error .badEscape
    else (charOf (cs.take 8)).map fun c => (c, cs.drop 8)
  | _ => .error .badEscape

/-- The contents of a string up to its quote. A basic string has escapes. -/
def quotedBody (quote : Char) (basic : Bool) : (fuel : Nat) → Reader Text
  | 0, _ => .error .unclosed
  | fuel + 1, s =>
    match s with
    | [] => .error .unclosed
    | c :: cs =>
      if c = quote then .ok ([], cs)
      else if basic ∧ c = '\\' then do
        let (c, cs) ← escaped cs
        let (body, rest) ← quotedBody quote basic fuel cs
        return (c :: body, rest)
      else if isPlainChar c then do
        let (body, rest) ← quotedBody quote basic fuel cs
        return (c :: body, rest)
      else .error .unexpected

/-- The text after white space and line ends. -/
def skipLines : Text → Text
  | [] => []
  | c :: cs =>
    if isSpace c ∨ c = '\n' ∨ (c = '\r' ∧ cs.head? = some '\n') then skipLines cs else c :: cs

/-- The text after a backslash at the end of a line and all blanks up to the next text. -/
def afterLineEnding? (s : Text) : Option Text := (afterNewline? (skipSpaces s)).map skipLines

/-- The contents of a string over several lines up to its three quotes, before which up to two more
may stand. Line ends are read as line feeds. -/
def longBody (quote : Char) (basic : Bool) : (fuel : Nat) → Reader Text
  | 0, _ => .error .unclosed
  | fuel + 1, s =>
    match s with
    | [] => .error .unclosed
    | c :: cs =>
      let quotes := (s.takeWhile (· == quote)).length
      if 3 ≤ quotes then
        let inner := min (quotes - 3) 2
        .ok (List.replicate inner quote, s.drop (inner + 3))
      else do
        let (piece, cs) ← (
          if basic ∧ c = '\\' then
            match afterLineEnding? cs with
            | some rest => .ok ([], rest)
            | none => (escaped cs).map fun (c, rest) => ([c], rest)
          else
            match afterNewline? s with
            | some rest => .ok (['\n'], rest)
            | none => if isPlainChar c then .ok ([c], cs) else .error .unexpected)
        let (body, rest) ← longBody quote basic fuel cs
        return (piece ++ body, rest)

/-- A string on one line or over several, from its first quote on. -/
def string (s : Text) : Except Problem (Text × Text) :=
  match s with
  | [] => .error .unexpected
  | quote :: cs =>
    let basic := quote == '"'
    if [quote, quote] <+: cs then
      let body := cs.drop 2
      longBody quote basic (body.length + 1) ((afterNewline? body).getD body)
    else quotedBody quote basic (cs.length + 1) cs

/-! ## Keys -/

def isKeyChar (c : Char) : Bool := c.isAlphanum || c == '_' || c == '-'

/-- One part of a dotted key. -/
def simpleKey (s : Text) : Except Problem (Text × Text) :=
  match s with
  | [] => .error .unexpected
  | c :: cs =>
    if c = '"' ∨ c = '\'' then quotedBody c (c == '"') (cs.length + 1) cs
    else if isKeyChar c then .ok (s.takeWhile isKeyChar, s.dropWhile isKeyChar)
    else .error .unexpected

/-- The parts of a dotted key, with white space around each. -/
def keyParts : (fuel : Nat) → Reader (List Text)
  | 0, _ => .error .tooDeep
  | fuel + 1, s => do
    let (part, s) ← simpleKey (skipSpaces s)
    let s := skipSpaces s
    match s with
    | '.' :: s =>
      let (parts, s) ← keyParts fuel s
      return (part :: parts, s)
    | _ => return ([part], s)

/-- A dotted key: the parts before the last one, and the last one. -/
def key (s : Text) : Except Problem ((List Text × Text) × Text) := do
  let (parts, s) ← keyParts maxDepth s
  return ((parts.dropLast, parts.getLast?.getD []), s)

/-! ## Values -/

/-- A bare value; a date may be followed by a time after one space. -/
def bare (s : Text) : Except Problem (Value × Text) := do
  let first := s.takeWhile isBareChar
  let rest := s.dropWhile isBareChar
  match rest with
  | ' ' :: c :: cs =>
    if isDate first ∧ c.isDigit then
      let time := (c :: cs).takeWhile isBareChar
      if isZonedTime time then
        return (.dateTime (first ++ ' ' :: time), (c :: cs).dropWhile isBareChar)
      else .error .badDate
    else return (← ofBare first, rest)
  | _ => return (← ofBare first, rest)

/-- The items of an array up to its bracket, each read by `value`. -/
def arrayItems (value : Reader Value) : (fuel : Nat) → Reader (List Value)
  | 0, _ => .error .unclosed
  | fuel + 1, s =>
    match skipBlank false s with
    | [] => .error .unclosed
    | ']' :: s => .ok ([], s)
    | s => do
      let (item, s) ← value s
      match skipBlank false s with
      | ']' :: s => return ([item], s)
      | ',' :: s =>
        let (items, s) ← arrayItems value fuel s
        return (item :: items, s)
      | _ => .error .unexpected

/-- A key with its value. -/
def keyValue (value : Reader Value) (s : Text) :
    Except Problem ((List Text × Text × Value) × Text) := do
  let ((path, last), s) ← key s
  match s with
  | '=' :: s =>
    let (v, s) ← value (skipSpaces s)
    return ((path, last, v), s)
  | _ => .error .unexpected

/-- The entries of an inline table up to its brace, added to those read before. -/
def inlineEntries (value : Reader Value) : (fuel : Nat) → Entries → Reader Entries
  | 0, _, _ => .error .unclosed
  | fuel + 1, es, s => do
    let ((path, last, v), s) ← keyValue value s
    let es ← es.insert .inlineDotted path last v
    match skipSpaces s with
    | '}' :: s => return (es, s)
    | ',' :: s => inlineEntries value fuel es s
    | _ => .error .unexpected

/-- A value in which `depth` more levels may be opened. -/
def value : (depth : Nat) → Reader Value
  | _, '"' :: s => (string ('"' :: s)).map fun (text, s) => (.string text, s)
  | _, '\'' :: s => (string ('\'' :: s)).map fun (text, s) => (.string text, s)
  | 0, '[' :: _ => .error .tooDeep
  | depth + 1, '[' :: s =>
    (arrayItems (value depth) (s.length + 1) s).map fun (items, s) => (.array items, s)
  | 0, '{' :: _ => .error .tooDeep
  | depth + 1, '{' :: s =>
    match skipSpaces s with
    | '}' :: s => .ok (.table .inline [], s)
    | s =>
      (inlineEntries (value depth) (s.length + 1) [] s).map fun (es, s) => (.table .inline es, s)
  | _, s => bare s

/-! ## Documents -/

/-- The text after the brackets that close a header. -/
def afterBrackets (brackets : Nat) (s : Text) : Except Problem Text :=
  if s.take brackets = List.replicate brackets ']' then .ok (s.drop brackets)
  else .error .unexpected

/-- Reads the lines of a document. The entries belong below the header `path`. -/
def documentLines : (fuel : Nat) → (path : List Text) → Entries → Text → Except Problem Entries
  | 0, _, es, _ => .ok es
  | fuel + 1, path, es, s =>
    match skipSpaces s with
    | [] => .ok es
    | '[' :: '[' :: s => do
      let ((parents, last), s) ← key s
      let s ← lineEnd (← afterBrackets 2 s)
      let es ← es.atHeader (Entries.openElement last) parents
      documentLines fuel (parents ++ [last]) es s
    | '[' :: s => do
      let ((parents, last), s) ← key s
      let s ← lineEnd (← afterBrackets 1 s)
      let es ← es.atHeader (Entries.openTable last) parents
      documentLines fuel (parents ++ [last]) es s
    | c :: cs =>
      if c = '#' ∨ (afterNewline? (c :: cs)).isSome then do
        documentLines fuel path es (← lineEnd (c :: cs))
      else do
        let ((parents, last, v), s) ← keyValue (value maxDepth) (c :: cs)
        let s ← lineEnd s
        let es ← es.atHeader (Entries.insert .dotted parents last v) path
        documentLines fuel path es s

/-- The entries of a document, which may start with a byte order mark. -/
def parse (s : Text) : Except Problem Entries :=
  let s := if s.head? = some (Char.ofNat 0xFEFF) then s.tail else s
  documentLines (s.length + 1) [] [] s

end SchemaLift.Toml
