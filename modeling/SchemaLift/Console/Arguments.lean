import SchemaLift.Console.Switch

/-!
# Command lines

A command line has two levels: the words before the command and those after it. On either level the
words are read in order, and the first word that asks for help, asks for the version or is wrong
ends the reading. A value that is a word of its own, like the files that are named, is looked at
when the next option of its level is read, or when the level ends; the level before the command ends
last.

Options of the whole program may stand on both levels, and the one after the command wins.
-/

namespace SchemaLift.Console

/-- What is wrong with a command line. -/
inductive Misuse where
  | noCommand
  | unknownCommand (word : Text)
  | unknownOption (word : Text)
  | missingValue (s : Switch)
  | unexpectedValue (s : Switch)
  | invalidValue (value : Text)
  | repeated (s : Switch)
  | unexpectedWord (word : Text)
  | quietAndVerbose
  | forceWithoutWrite
  | noShell
  deriving DecidableEq, Repr

namespace Misuse

def message : Misuse → Text
  | noCommand => "no command is given".toList
  | unknownCommand word => "unrecognized command '".toList ++ word ++ ['\'']
  | unknownOption word => "unexpected option '".toList ++ word ++ ['\'']
  | missingValue s => ("a value is required for '--" ++ s.long ++ "'").toList
  | unexpectedValue s => ("'--" ++ s.long ++ "' takes no value").toList
  | invalidValue value => "invalid value '".toList ++ value ++ ['\'']
  | repeated s => ("'--" ++ s.long ++ "' cannot be used multiple times").toList
  | unexpectedWord word => "unexpected argument '".toList ++ word ++ ['\'']
  | quietAndVerbose => "'--quiet' cannot be used with '--verbose'".toList
  | forceWithoutWrite => "'--force' requires '--write'".toList
  | noShell => "no shell is given".toList

end Misuse

/-- Why a command line starts no command. -/
inductive Stop where
  | help
  | version (command : Option CommandName)
  | misuse (cause : Misuse)
  deriving DecidableEq, Repr

/-- The words of one level, as far as they are read. -/
structure Level where
  /-- The command that the words come after. -/
  command : Option CommandName
  /-- The options with their values; one without a value has an empty one. -/
  switches : List (Switch × Text)
  /-- An option whose value is not looked at yet. -/
  held : Option (Switch × Text)
  operands : List Text
  deriving Repr

namespace Level

def start (command : Option CommandName) : Level := ⟨command, [], none, []⟩

def has (l : Level) (s : Switch) : Bool := l.switches.any (·.1 == s)

def values (l : Level) (s : Switch) : List Text :=
  l.switches.filterMap fun (t, value) => if t = s then some value else none

def value? (l : Level) (s : Switch) : Option Text := (l.values s).head?

/-- Whether the command takes this operand: a path that is not empty, or the name of a shell. -/
def acceptsOperand (command : Option CommandName) (word : Text) : Bool :=
  if command = some .completions then (Shell.named? word).isSome else !word.isEmpty

def add (l : Level) (s : Switch) (value : Text) : Except Stop Level :=
  if l.has s && !s.addsUp then .error (.misuse (.repeated s))
  else if !s.accepts value then .error (.misuse (.invalidValue value))
  else .ok { l with switches := l.switches ++ [(s, value)] }

/-- Looks at what is held back. -/
def settle (l : Level) : Except Stop Level := do
  match l.operands.find? (!acceptsOperand l.command ·) with
  | some word => .error (.misuse (.invalidValue word))
  | none =>
    match l.held with
    | none => .ok l
    | some (s, value) => add { l with held := none } s value

/-- Reads an option that is complete. -/
def take (l : Level) (s : Switch) (value : Option Text) : Except Stop Level := do
  match s, value with
  | .help, none => let _ ← l.settle; .error .help
  | .version, none => let l ← l.settle; .error (.version l.command)
  | s, none => (← l.settle).add s []
  | s, some v =>
    if s.takesValue then (← l.settle).add s v else .error (.misuse (.unexpectedValue s))

/-- An operand; only completions take a single one. -/
def operand (l : Level) (word : Text) : Except Stop Level :=
  let fits := match l.command with
    | some .upgrade | some .check => true
    | some .completions => l.operands.isEmpty
    | some .rules | none => false
  if fits then .ok { l with operands := l.operands ++ [word] }
  else .error (.misuse (.unexpectedWord word))

def find? (l : Level) (named : Switch → Bool) : Option Switch :=
  Switch.all.find? fun s => s.allowedAt l.command && named s

/-- Reads the letters of a word after its hyphen. What a letter leaves of the word is the value of
an option that takes one, without an equals sign at its start; if nothing is left, the option itself
is returned, and its value is the next word. -/
def letters (l : Level) : Text → Except Stop (Level × Option Switch)
  | [] => .ok (l, none)
  | c :: rest =>
    match l.find? (·.short? == some c) with
    | none => .error (.misuse (.unknownOption ['-', c]))
    | some s =>
      if s.takesValue then
        match rest with
        | [] => .ok (l, some s)
        | '=' :: value => (l.take s (some value)).map (·, none)
        | value => (l.take s (some value)).map (·, none)
      else
        match l.take s none with
        | .error stop => .error stop
        | .ok l => l.letters rest

/-- Reads a word after its two hyphens. An option whose value is the next word is returned. -/
def longWord (l : Level) (word : Text) : Except Stop (Level × Option Switch) :=
  let name := word.takeWhile (· != '=')
  let value := (word.dropWhile (· != '=')).tail?
  match l.find? (·.long.toList == name) with
  | none => .error (.misuse (.unknownOption ('-' :: '-' :: name)))
  | some s =>
    if s.takesValue && value.isNone then .ok (l, some s) else (l.take s value).map (·, none)

/-- Whether a word is an option or several, and no operand. -/
def isOptionWord : Text → Bool
  | '-' :: _ :: _ => true
  | _ => false

def optionWord (l : Level) : Text → Except Stop (Level × Option Switch)
  | '-' :: '-' :: word => l.longWord word
  | word => l.letters word.tail

/-- What `help` and the words after it ask for. -/
def helpCommand (topics : List Text) : Stop :=
  match topics with
  | [] => .help
  | [topic] =>
    if topic = "help".toList ∨ (CommandName.named? topic).isSome then .help
    else .misuse (.unknownCommand topic)
  | _ :: topic :: _ => .misuse (.unknownCommand topic)

/-- Reads words; before the command, up to the command, which is returned with the words after it.
After two hyphens there are only operands. -/
def read (l : Level) : List Text → Except Stop (Level × Option (CommandName × List Text))
  | [] => .ok (l, none)
  | word :: rest =>
    if word = ['-', '-'] then (rest.foldlM operand l).map (·, none)
    else if isOptionWord word then
      match l.optionWord word with
      | .error stop => .error stop
      | .ok (l, none) => l.read rest
      | .ok (l, some s) =>
        match rest with
        | [] => .error (.misuse (.missingValue s))
        | value :: rest =>
          if isOptionWord value then .error (.misuse (.missingValue s))
          else
            match l.settle with
            | .error stop => .error stop
            | .ok l => Level.read { l with held := some (s, value) } rest
    else if l.command.isNone then
      if word = "help".toList then .error (helpCommand rest)
      else
        match CommandName.named? word with
        | none => .error (.misuse (.unknownCommand word))
        | some command => .ok (l, some (command, rest))
    else
      match l.operand word with
      | .error stop => .error stop
      | .ok l => l.read rest

/-- Checks a level that is read to its end. A configuration file named by the environment has to
have a name, and counts where the level names none. -/
def finish (l : Level) (environment : Option Path) : Except Stop Level := do
  let l ← l.settle
  if !l.has .config && environment = some [] then .error (.misuse (.invalidValue []))
  else if l.has .quiet && l.has .verbose then .error (.misuse .quietAndVerbose)
  else if l.has .force && !l.has .write then .error (.misuse .forceWithoutWrite)
  else if l.command = some .completions && l.operands.isEmpty then .error (.misuse .noShell)
  else .ok l

end Level

namespace Invocation

def overrides (l : Level) : Overrides := ⟨l.value? .baseNamespace, l.values .disable⟩

def commandOf (name : CommandName) (l : Level) : Command :=
  match name with
  | .upgrade =>
    .upgrade l.operands (l.has .write) (l.has .force) (l.has .diff) (overrides l)
  | .check => .check l.operands (overrides l)
  | .rules => .rules (overrides l)
  | .completions => .completions ((l.operands.findSome? Shell.named?).getD .bash)

/-- Whether a variable that turns something on does so. -/
def turnsOn (value : Text) : Bool :=
  !(["", "0", "f", "false", "n", "no", "off"].map String.toList).contains (value.map Char.toLower)

/-- Reads a command line. -/
def parse (env : Environment) (words : List Text) : Except Stop Invocation := do
  match ← (Level.start none).read words with
  | (_, none) => .error (.misuse .noCommand)
  | (outer, some (name, rest)) =>
    let (inner, _) ← (Level.start (some name)).read rest
    let inner ← inner.finish env.config
    let outer ← outer.finish env.config
    let either (s : Switch) : Option Text := (inner.value? s).or (outer.value? s)
    return {
      config := (either .config).or env.config
      format := ((either .format).bind Format.named?).getD .human
      quiet := inner.has .quiet || outer.has .quiet
      noColor := inner.has .noColor || outer.has .noColor || env.noColor.any turnsOn
      command := commandOf name inner }

end Invocation

end SchemaLift.Console
