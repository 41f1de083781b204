import SchemaLift.Files.Tree

/-!
# File patterns

A pattern is a path with wildcards: `*` stands for any characters of one segment, `?` for one of
them, `[a-z_]` for one of those listed, `[!a-z_]` for one of all others, and a segment `**` for
directories at any depth, none included. Segments without wildcards are followed as they are. The
files that match are spelled as the pattern is, but without a dot at the start.
-/

namespace SchemaLift

namespace Glob

/-- Why a text is no pattern. -/
inductive Problem where
  /-- There are more than two stars in a row. -/
  | tooManyStars (position : Nat)
  /-- Two stars are only a part of a segment. -/
  | partialSegment (position : Nat)
  /-- A bracket opens no list of characters. -/
  | invalidRange (position : Nat)
  deriving DecidableEq, Repr

namespace Problem

def position : Problem → Nat
  | tooManyStars n | partialSegment n | invalidRange n => n

def cause : Problem → String
  | tooManyStars _ => "wildcards are either regular `*` or recursive `**`"
  | partialSegment _ => "recursive wildcards must form a single path component"
  | invalidRange _ => "invalid range pattern"

def message (p : Problem) : String :=
  "Pattern syntax error near position " ++ toString p.position ++ ": " ++ p.cause

end Problem

/-- A piece of a pattern. -/
inductive Token where
  | char (c : Char)
  | anyChar
  /-- A character in one of the ranges, or in none of them. -/
  | oneOf (negated : Bool) (ranges : List (Char × Char))
  | anySequence
  | anyDepth
  deriving DecidableEq, Repr

/-- The ranges of characters between brackets. -/
def rangesOf : Text → List (Char × Char)
  | a :: '-' :: b :: rest => (a, b) :: rangesOf rest
  | c :: rest => (c, c) :: rangesOf rest
  | [] => []

/-- The characters between brackets: at least one, and the first may be a bracket itself. -/
def listed? : Text → Option Text
  | [] => none
  | c :: rest => if rest.contains ']' then some (c :: rest.takeWhile (· != ']')) else none

/-- Reads what comes after an opening bracket, with the number of characters up to and with the
closing one. -/
def oneOf? : Text → Option (Token × Nat)
  | '!' :: rest => (listed? rest).map fun cs => (.oneOf true (rangesOf cs), cs.length + 2)
  | rest => (listed? rest).map fun cs => (.oneOf false (rangesOf cs), cs.length + 1)

/-- A run of stars at a position, between two characters. -/
def starToken (position stars : Nat) (before after : Option Char) : Except Problem Token :=
  if 2 < stars then .error (.tooManyStars (position + 2))
  else if stars < 2 then .ok .anySequence
  else if before.any (· != '/') then .error (.partialSegment (position - 1))
  else if after.any (· != '/') then .error (.partialSegment (position + 2))
  else .ok .anyDepth

/-- Reads a pattern from a position after a character. The characters that the last token has taken
are passed over. -/
def tokensFrom (position : Nat) (before : Option Char) : Nat → Text → Except Problem (List Token)
  | _, [] => .ok []
  | taken + 1, c :: rest => tokensFrom (position + 1) (some c) taken rest
  | 0, c :: rest => do
    let stars := (rest.takeWhile (· = '*')).length
    let (token, taken) ← match c with
      | '?' => .ok (.anyChar, 0)
      | '*' => (starToken position (stars + 1) before rest[stars]?).map (·, stars)
      | '[' => ((oneOf? rest).map .ok).getD (.error (.invalidRange position))
      | c => .ok (.char c, 0)
    return token :: (← tokensFrom (position + 1) (some c) taken rest)

def tokens (pattern : Text) : Except Problem (List Token) := tokensFrom 0 none 0 pattern

/-- One segment of a pattern. -/
inductive Part where
  | literal (segment : Text)
  | wildcard (pattern : List Token)
  | anyDepth
  deriving DecidableEq, Repr

def inRanges (ranges : List (Char × Char)) (c : Char) : Bool :=
  ranges.any fun (first, last) => first ≤ c && c ≤ last

/-- Whether `p` holds of some ending of a text, the text itself and the empty one included. -/
def someEnding (p : Text → Bool) : Text → Bool
  | [] => p []
  | c :: cs => p (c :: cs) || someEnding p cs

def matchesName : List Token → Text → Bool
  | [], name => name.isEmpty
  | .anySequence :: pattern, name => someEnding (matchesName pattern) name
  | .anyDepth :: pattern, name => someEnding (matchesName pattern) name
  | .anyChar :: pattern, _ :: name => matchesName pattern name
  | .oneOf negated ranges :: pattern, c :: name =>
    (inRanges ranges c != negated) && matchesName pattern name
  | .char c :: pattern, d :: name => c = d && matchesName pattern name
  | _ :: _, [] => false

namespace Part

def ofTokens (pattern : List Token) : Part :=
  let chars := pattern.filterMap fun
    | .char c => some c
    | _ => none
  if pattern = [.anyDepth] then anyDepth
  else if chars.length = pattern.length then literal chars
  else wildcard pattern

/-- Whether the part stands for an entry of this name. -/
def matchesEntry : Part → Text → Bool
  | literal s, name => s == name
  | wildcard pattern, name => matchesName pattern name
  | anyDepth, _ => false

end Part

/-- The parts with several of any depth in a row as one. -/
def mergeDepths : List Part → List Part
  | [] => []
  | part :: rest =>
    match part, mergeDepths rest with
    | .anyDepth, .anyDepth :: parts => .anyDepth :: parts
    | part, parts => part :: parts

/-- The path one segment further; the dot at the start of a path is dropped. -/
def step (here : Path) (segment : Text) : Path :=
  if Path.parts here = [.here] then segment else Path.join here segment

/-- The dots that a wildcard matches: only one that begins with a dot itself matches any. -/
def matchedDots (pattern : List Token) : List Text :=
  if pattern.head? = some (.char '.') then [['.'], ['.', '.']].filter (matchesName pattern) else []

/-- The paths below `here` that match the parts. -/
def expand (t : FileTree) (here : Path) : List Part → List Path
  | [] => [here]
  | .literal segment :: rest =>
    let next := step here segment
    if (t.node? next).isSome then expand t next rest else []
  | .wildcard pattern :: rest =>
    match t.node? here with
    | some (.directory entries) =>
      ((entries.map Prod.fst).filter (matchesName pattern)).flatMap
          (fun name => expand t (step here name) rest) ++
        (matchedDots pattern).flatMap fun dots => expand t (Path.join here dots) rest
    | _ => []
  | [.anyDepth] => []
  | .anyDepth :: part :: rest =>
    let found := ((t.node? here).map Node.descendants).getD []
    found.flatMap fun (names, _) =>
      if names.getLast?.any part.matchesEntry then expand t (names.foldl step here) rest else []

/-- The segments of a pattern; a slash at its end adds none. -/
def patternSegments (pattern : Path) : List Text :=
  let segments := Path.segments (if Path.isAbsolute pattern then pattern.tail else pattern)
  if segments.getLast? = some [] then segments.dropLast else segments

/-- The parts of a pattern. Its segments are read on their own, once the whole pattern is read. -/
def compile (pattern : Path) : Except Problem (List Part) := do
  let _ ← tokens pattern
  return mergeDepths ((← (patternSegments pattern).mapM tokens).map Part.ofTokens)

example : (compile "app/**/[a-c]?.rb".toList).toOption =
    some [.literal "app".toList, .anyDepth,
      .wildcard [.oneOf false [('a', 'c')], .anyChar, .char '.', .char 'r', .char 'b']] := by
  decide

example : (tokens "a[".toList).toOption = none := by decide

/-- The files that match a pattern. One that ends in a slash matches directories only. -/
def files (t : FileTree) (pattern : Path) : Except Problem (List Path) := do
  let parts ← compile pattern
  let start := if Path.isAbsolute pattern then ['/'] else ['.']
  if Text.endsWith pattern '/' then return []
  return (expand t start parts).filter t.isFile

end Glob

end SchemaLift
