import SchemaLift.Toml.Value

/-!
# Bare TOML values

Booleans, numbers, dates and times are written without quotes. `ofBare` reads a whole run of the
characters that occur in them, so nothing may be left over.
-/

namespace SchemaLift.Toml

/-- A character of a bare value. -/
def isBareChar (c : Char) : Bool := c.isAlphanum || ['_', '+', '-', '.', ':'].contains c

def isHexDigit (c : Char) : Bool := c.isDigit || ('a' ≤ c && c ≤ 'f') || ('A' ≤ c && c ≤ 'F')

def digitValue (c : Char) : Nat :=
  if c.isDigit then c.toNat - '0'.toNat
  else if c.isLower then c.toNat - 'a'.toNat + 10
  else c.toNat - 'A'.toNat + 10

/-- The number that digits of a base spell. -/
def numeral (base : Nat) (digits : Text) : Nat :=
  digits.foldl (fun n c => n * base + digitValue c) 0

/-- Digits, where single underscores may stand between them; the digits alone. -/
def digits? (isDigit : Char → Bool) (s : Text) : Option Text :=
  let spaced (c d : Char) : Bool := c != '_' || isDigit d
  if s.head?.any isDigit && s.getLast?.any isDigit && s.all (fun c => isDigit c || c == '_') &&
      (List.zipWith spaced s s.tail).all id then
    some (s.filter (· != '_'))
  else none

/-- A sign at the head of a text and the text after it; true for minus. -/
def sign (s : Text) : Bool × Text :=
  match s with
  | '-' :: rest => (true, rest)
  | '+' :: rest => (false, rest)
  | _ => (false, s)

/-- Decimal digits without a superfluous zero at the front. -/
def decimal? (s : Text) : Option Text :=
  (digits? Char.isDigit s).bind fun digits =>
    if 1 < digits.length ∧ digits.head? = some '0' then none else some digits

def maxInteger : Nat := 9223372036854775807

/-- An integer of 64 bits with a sign, decimal or with the mark of its base. -/
def integer? (s : Text) : Option Int :=
  let based (base : Nat) (isDigit : Char → Bool) (s : Text) : Option Int :=
    (digits? isDigit s).bind fun digits =>
      if numeral base digits ≤ maxInteger then some (numeral base digits) else none
  match s with
  | '0' :: 'x' :: rest => based 16 isHexDigit rest
  | '0' :: 'o' :: rest => based 8 (fun c => '0' ≤ c && c ≤ '7') rest
  | '0' :: 'b' :: rest => based 2 (fun c => c == '0' || c == '1') rest
  | _ =>
    let (negative, s) := sign s
    (decimal? s).bind fun digits =>
      let n := numeral 10 digits
      if negative then (if n ≤ maxInteger + 1 then some (-n) else none)
      else if n ≤ maxInteger then some n else none

/-- Whether `digits · 10 ^ exponent` is too large for a double: at least halfway from the largest
double to the next power of two. -/
def overflows (digits : Nat) (exponent : Int) : Bool :=
  let limit := (Nat.pow 2 54 - 1) * Nat.pow 2 970
  let width : Int := (Nat.toDigits 10 digits).length + exponent
  if digits = 0 || width < 300 then false
  else if 310 < width then true
  else if 0 ≤ exponent then limit ≤ digits * Nat.pow 10 exponent.toNat
  else limit * Nat.pow 10 (-exponent).toNat ≤ digits

/-- Whether a text is a floating-point number other than a special one. -/
def isFloat (s : Text) : Bool :=
  let (negative, s) := sign s
  let whole := s.takeWhile fun c => c.isDigit || c == '_'
  let s := s.drop whole.length
  let fraction? : Option (Option Text × Text) :=
    match s with
    | '.' :: rest =>
      let digits := rest.takeWhile fun c => c.isDigit || c == '_'
      (digits? Char.isDigit digits).map fun ds => (some ds, rest.drop digits.length)
    | _ => some (none, s)
  let exponent? (s : Text) : Option (Option Int) :=
    match s with
    | [] => some none
    | c :: rest =>
      if c = 'e' ∨ c = 'E' then
        let (negative, rest) := sign rest
        (digits? Char.isDigit rest).map fun ds =>
          some (if negative then -(numeral 10 ds) else numeral 10 ds)
      else none
  let parts : Option Bool := do
    let whole ← decimal? whole
    let (fraction, s) ← fraction?
    let exponent ← exponent? s
    if fraction.isNone && exponent.isNone then none
    let digits := whole ++ fraction.getD []
    let scale : Int := exponent.getD 0 - (fraction.getD []).length
    return negative || !overflows (numeral 10 digits) scale
  parts == some true

/-- A number of exactly `width` digits at the head of a text, within bounds. -/
def fixed? (width lower upper : Nat) (s : Text) : Option (Nat × Text) :=
  let digits := s.take width
  let n := numeral 10 digits
  if digits.length = width ∧ digits.all Char.isDigit ∧ lower ≤ n ∧ n ≤ upper then
    some (n, s.drop width)
  else none

/-- The text after a character. -/
def after? (c : Char) (s : Text) : Option Text := if s.head? = some c then some s.tail else none

def daysIn (year month : Nat) : Nat :=
  let leap := year % 4 == 0 && (year % 100 != 0 || year % 400 == 0)
  if month = 2 then (if leap then 29 else 28)
  else if month = 4 ∨ month = 6 ∨ month = 9 ∨ month = 11 then 30
  else 31

/-- The text after a date. -/
def afterDate? (s : Text) : Option Text := do
  let (year, s) ← fixed? 4 0 9999 s
  let (month, s) ← fixed? 2 1 12 (← after? '-' s)
  let (_, s) ← fixed? 2 1 (daysIn year month) (← after? '-' s)
  return s

/-- The text after a time of day. -/
def afterTime? (s : Text) : Option Text := do
  let (_, s) ← fixed? 2 0 23 s
  let (_, s) ← fixed? 2 0 59 (← after? ':' s)
  let (_, s) ← fixed? 2 0 60 (← after? ':' s)
  match s with
  | '.' :: fraction =>
    let digits := fraction.takeWhile Char.isDigit
    if digits.isEmpty then none else some (fraction.drop digits.length)
  | _ => some s

/-- Whether a text is empty or the offset of a time zone. -/
def isOffset (s : Text) : Bool :=
  match s with
  | [] => true
  | c :: rest =>
    if c = 'Z' ∨ c = 'z' then rest.isEmpty
    else if c = '+' ∨ c = '-' then
      (do
        let (_, rest) ← fixed? 2 0 23 rest
        let (_, rest) ← fixed? 2 0 59 (← after? ':' rest)
        return rest.isEmpty : Option Bool) == some true
    else false

/-- Whether a text is a time of day, with an offset or without. -/
def isZonedTime (s : Text) : Bool := (afterTime? s).any isOffset

def isDate (s : Text) : Bool := (afterDate? s).any List.isEmpty

/-- Whether a text is a date, a time, or both with a `T` between them. -/
def isDateTime (s : Text) : Bool :=
  isDate s || (afterTime? s).any List.isEmpty ||
    (afterDate? s).any fun rest =>
      (rest.head? == some 'T' || rest.head? == some 't') && isZonedTime rest.tail

/-- The value that a bare text is. -/
def ofBare (s : Text) : Except Problem Value :=
  if s = "true".toList then .ok (.boolean true)
  else if s = "false".toList then .ok (.boolean false)
  else if (sign s).2 = "inf".toList ∨ (sign s).2 = "nan".toList then .ok (.float s)
  else if isDateTime s then .ok (.dateTime s)
  else if isFloat s then .ok (.float s)
  else
    match integer? s with
    | some n => .ok (.integer n)
    | none => .error .badNumber

end SchemaLift.Toml
