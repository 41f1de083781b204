import SchemaLift.Token.Stream

/-!
# Names

Fields and arguments are named in underscore form, classes in upper camel case. A declared name is a
symbol or a quoted string that holds an identifier; it is brought to underscore form.
-/

namespace SchemaLift.Name

/-- Whether an underscore goes before the upper-case letter between `previous` and `next`: after a
lower-case letter or a digit, and before the last letter of an acronym. -/
def startsWord (previous next : Option Char) : Bool :=
  match previous with
  | none => false
  | some p => p.isLower || p.isDigit || (p.isUpper && next.any Char.isLower)

/-- The underscore form of a name that goes on after `previous`. -/
def underscoreFrom (previous : Option Char) : Text → Text
  | [] => []
  | c :: cs =>
    if c.isUpper then
      (if startsWord previous cs.head? then ['_', c.toLower] else [c.toLower]) ++
        underscoreFrom (some c) cs
    else c :: underscoreFrom (some c) cs

/-- The underscore form of a camel-case name: `userID` becomes `user_id`. -/
def underscore (name : Text) : Text := underscoreFrom none name

/-- The upper camel case of an underscore name: `team_member` becomes `TeamMember`. `start` says
whether a word starts here. -/
def camelizeFrom (start : Bool) : Text → Text
  | [] => []
  | c :: cs =>
    if c = '_' then camelizeFrom true cs
    else (if start then c.toUpper else c) :: camelizeFrom false cs

def camelize (name : Text) : Text := camelizeFrom true name

/-- What follows the last `::` of a constant path. -/
def unqualified (path : Text) : Text :=
  match path with
  | [] => []
  | c :: cs =>
    let rest := unqualified cs
    if rest.length < cs.length then rest
    else if c = ':' ∧ cs.head? = some ':' then cs.tail
    else c :: cs

/-- Whether a text is an identifier, possibly with a question or exclamation mark at its end. -/
def isIdentifier (name : Text) : Bool :=
  let stem := if name.getLast?.any (fun c => c == '?' || c == '!') then name.dropLast else name
  match stem with
  | [] => false
  | c :: cs => Scan.isWordStart c && cs.all Scan.isWordChar

/-- The text between two quotes of one kind, or after the colon of a symbol. -/
def bare? (raw : Text) : Option Text :=
  match raw with
  | [] => none
  | c :: cs =>
    if c = ':' then some cs
    else if (c = '"' ∨ c = '\'') ∧ cs.getLast? = some c then some cs.dropLast
    else none

/-- The method name of a declared name such as `:firstName` or `"firstName"`. -/
def declared? (raw : Text) : Option Text :=
  (bare? raw).bind fun bare => if isIdentifier bare then some (underscore bare) else none

/-- The symbol of a method name. -/
def symbol (method : Text) : Text := ':' :: method

end SchemaLift.Name
