import SchemaLift.Console.Discovery

/-!
# Transcripts

A transcript holds what a command prints, what it writes into files, and how it fails. A failure is
printed after everything else, in the format that is asked for. Colors only appear in what is printed
for a reader at a terminal.
-/

namespace SchemaLift.Console

structure Transcript where
  output : Text
  /-- What is printed beside the output. -/
  messages : Text
  written : List (Path × Text)
  failure : Option Failure
  deriving Repr

namespace Transcript

def failed (f : Failure) : Transcript := ⟨[], [], [], some f⟩

def exitCode (t : Transcript) : Nat := (t.failure.map Failure.exitCode).getD 0

end Transcript

/-- How a run prints. -/
structure Presentation where
  format : Format
  quiet : Bool
  colored : Bool
  deriving DecidableEq, Repr

/-- How a run prints that is invoked in an environment. -/
def Invocation.presentation (inv : Invocation) (env : Environment) : Presentation :=
  ⟨inv.format, inv.quiet, !inv.noColor && env.showsColors⟩

namespace Presentation

def lineText (s : Text) : Text := s ++ ['\n']

/-- The lines of a text without their line ends. -/
def shownLines (s : Text) : List Line :=
  let lines := Text.lines s
  let withoutReturn (line : Line) : Line :=
    if Text.endsWith line '\r' then line.dropLast else line
  lines.dropLast.map withoutReturn ++ (lines.getLast?.filter (!·.isEmpty)).toList

/-- A message to a reader, who may not want any. -/
def status (p : Presentation) (s : Text) : Text :=
  if p.format = .human ∧ !p.quiet then lineText s else []

/-- The style of a line of a unified diff. -/
def diffStyle (line : Line) : Style :=
  if "+++".toList <+: line ∨ "---".toList <+: line then .fileName
  else match line with
    | '+' :: _ => .inserted
    | '-' :: _ => .deleted
    | '@' :: '@' :: _ => .hunk
    | _ => .plain

section

variable (lib : Libraries)

/-- A text in its style, if there are colors. -/
def styled (p : Presentation) (style : Style) (s : String) : Text :=
  if p.colored then lib.paint style s.toList else s.toList

def failureText (p : Presentation) (f : Failure) : Text :=
  lineText (match p.format with
    | .human => p.styled lib .failure "error:" ++ ' ' :: f.message
    | .json => lib.compactJson f.toJson
    | .plain => "error\t".toList ++ f.message)

def success (p : Presentation) (s : Text) : Text :=
  p.status (p.styled lib .success "ok" ++ ' ' :: s)

/-- A unified diff for a reader. -/
def diffText (p : Presentation) (diff : Text) : Text :=
  match p.format with
  | .json => []
  | .plain => diff
  | .human =>
    if p.colored then
      (shownLines diff).flatMap fun line => lineText (lib.paint (diffStyle line) line)
    else diff

/-- A skipped construct as one line of fields. -/
def skipLine (f : UpgradedFile) (skip : Skip) : Text :=
  lineText (Path.shown f.path ++ ("\t" ++ toString skip.line ++ "\t" ++ skip.rule.id ++ "\t").toList
    ++ skip.reason.message)

def skips (p : Presentation) (f : UpgradedFile) : Text :=
  if p.quiet then []
  else
    match p.format with
    | .human => f.report.skipped.flatMap fun skip =>
      lineText (lib.explain (Path.shown f.path) f.source (Diagnostic.ofSkip f.source skip))
    | .plain => f.report.skipped.flatMap (skipLine f)
    | .json => []

/-- A transcript with its failure printed. -/
def close (p : Presentation) (t : Transcript) : Transcript :=
  { t with messages := t.messages ++ (t.failure.map (p.failureText lib)).getD [] }

end

end Presentation

end SchemaLift.Console
