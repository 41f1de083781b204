import SchemaLift.Console.Program

/-!
# The command line

What a run may look at is read into a file tree: the files that may hold settings, and then what is
at the paths that these settings and the command line name. At a terminal, a run that would break off
for want of an answer is asked for one. The rest is `SchemaLift.Console.run`; what it yields is
written and printed.
-/

namespace SchemaLift.CommandLine

open Console

/-- How deep directories are read, so that links in a circle come to an end. -/
def maxDepth : Nat := 64

/-- Reads what is at a path, a directory with all that is in it. -/
def readNode : Nat → String → IO (Option Node)
  | 0, _ => return none
  | depth + 1, name => do
    let path := (← IO.currentDir) / name
    if ← path.isDir then
      let nodes ← (← path.readDir).toList.filterMapM fun entry => do
        return (← readNode depth entry.path.toString).map (entry.fileName.toList, ·)
      return some (.directory nodes)
    else if ← path.pathExists then
      match String.fromUTF8? (← IO.FS.readBinFile path) with
      | some s => return some (.file (.text s.toList))
      | none => return some (.file .binary)
    else return none

def readInto (files : FileTree) (path : Path) : IO FileTree := do
  match ← readNode maxDepth (String.ofList path) with
  | some n => return files.insert path n
  | none => return files

def readEnvironment : IO Environment := do
  let text (name : String) : IO (Option Text) := return (← IO.getEnv name).map String.toList
  return {
    config := ← text "SCHEMA_UPGRADE_CONFIG"
    configHome := ← text "XDG_CONFIG_HOME"
    home := ← text "HOME"
    terminalKind := ← text "TERM"
    noColor := ← text "NO_COLOR"
    answer := if ← (← IO.getStderr).isTty then some .interrupted else none }

/-- The files that a run may look at. -/
def readFiles (env : Environment) (words : List Text) : IO FileTree := do
  let names := (Path.segments (← IO.currentDir).toString.toList).filter (!Path.staysPut ·)
  let files := FileTree.empty names
  match Invocation.parse env words with
  | .error _ => return files
  | .ok invocation =>
    let files ← (configPaths env invocation.config).foldlM readInto files
    match loadSettings .standard files env invocation.config with
    | .error _ => return files
    | .ok settings => (invocation.command.searchedPaths settings).foldlM readInto files

/-- The environment with an answer, if a run without one is cancelled. -/
def askIfCancelled (files : FileTree) (env : Environment) (words : List Text) : IO Environment := do
  if (Console.run files env words).1.failure = some .cancelled then
    IO.eprint "Files will be rewritten in place. Go on? [y/N] "
    let line ← (← IO.getStdin).getLine
    return { env with answer := some (if line.trimAscii.toString = "y" then .yes else .no) }
  else return env

end SchemaLift.CommandLine

open SchemaLift CommandLine in
def main (arguments : List String) : IO UInt32 := do
  let words := arguments.map String.toList
  let env ← readEnvironment
  let files ← readFiles env words
  let env ← askIfCancelled files env words
  let (transcript, code) := Console.run files env words
  for (path, text) in transcript.written do
    IO.FS.writeFile (String.ofList path) (String.ofList text)
  IO.print (String.ofList transcript.output)
  IO.eprint (String.ofList transcript.messages)
  return code.toUInt32
