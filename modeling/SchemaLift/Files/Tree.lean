import SchemaLift.Files.Path

/-!
# File trees

A file tree holds the files and directories that a run can see, and the directory where it starts. A
path is followed one segment at a time, and every segment, even one that leads nowhere, needs a
directory to start from: so a slash after the name of a file is an error.
-/

namespace SchemaLift

inductive Content where
  | text (t : Text)
  /-- Bytes that are no text in UTF-8. -/
  | binary

inductive Node where
  | file (content : Content)
  | directory (entries : List (Text × Node))

/-- The names that lead from the root to a node. -/
abbrev Place := List Text

namespace Node

def isFile : Node → Bool
  | file _ => true
  | directory _ => false

def isDirectory : Node → Bool
  | file _ => false
  | directory _ => true

/-- What is directly in a node; nothing is in a file. -/
def entries : Node → List (Text × Node)
  | file _ => []
  | directory es => es

def child? (n : Node) (name : Text) : Option Node := n.entries.lookup name

mutual

/-- Everything in a node, at any depth, with the names that lead there. -/
def descendants : Node → List (Place × Node)
  | file _ => []
  | directory es => descendantsOf es

def descendantsOf : List (Text × Node) → List (Place × Node)
  | [] => []
  | (name, n) :: rest =>
    ([name], n) :: (descendants n).map (fun (names, d) => (name :: names, d)) ++ descendantsOf rest

end

/-- The entries with another node under a name. -/
def setEntry (name : Text) (n : Node) : List (Text × Node) → List (Text × Node)
  | [] => [(name, n)]
  | e :: rest => if e.1 = name then (name, n) :: rest else e :: setEntry name n rest

/-- Changes what is at a place, making the directories on the way. -/
def update (f : Option Node → Node) : Place → Option Node → Node
  | [], n => f n
  | name :: rest, n =>
    let es := (n.map entries).getD []
    directory (setEntry name (update f rest (es.lookup name)) es)

end Node

/-- Why a path cannot be read. -/
inductive AccessError where
  | notFound
  | notDirectory
  | isDirectory
  | notText
  deriving DecidableEq, Repr

namespace AccessError

def message : AccessError → String
  | notFound => "No such file or directory (os error 2)"
  | notDirectory => "Not a directory (os error 20)"
  | isDirectory => "Is a directory (os error 21)"
  | notText => "stream did not contain valid UTF-8"

end AccessError

structure FileTree where
  root : Node
  /-- Where relative paths start. -/
  workingDirectory : Place

namespace FileTree

/-- The tree with nothing but its working directory. -/
def empty (workingDirectory : Place) : FileTree :=
  ⟨Node.update (fun _ => .directory []) workingDirectory none, workingDirectory⟩

def nodeAt? (t : FileTree) (place : Place) : Option Node := place.foldlM Node.child? t.root

/-- Follows segments from a place. -/
def walk (t : FileTree) (place : Place) : List Text → Except AccessError Place
  | [] => .ok place
  | segment :: rest =>
    match t.nodeAt? place with
    | none => .error .notFound
    | some n =>
      if !n.isDirectory then .error .notDirectory
      else if Path.staysPut segment then t.walk place rest
      else if Path.isParent segment then t.walk place.dropLast rest
      else if (n.child? segment).isNone then .error .notFound
      else t.walk (place ++ [segment]) rest

/-- The place of a path. The empty path has none. -/
def resolve (t : FileTree) (p : Path) : Except AccessError Place :=
  if p.isEmpty then .error .notFound
  else t.walk (if Path.isAbsolute p then [] else t.workingDirectory) (Path.segments p)

def node? (t : FileTree) (p : Path) : Option Node :=
  match t.resolve p with
  | .ok place => t.nodeAt? place
  | .error _ => none

def isFile (t : FileTree) (p : Path) : Bool := (t.node? p).any Node.isFile

def isDirectory (t : FileTree) (p : Path) : Bool := (t.node? p).any Node.isDirectory

def read (t : FileTree) (p : Path) : Except AccessError Text := do
  match t.nodeAt? (← t.resolve p) with
  | some (.file (.text s)) => .ok s
  | some (.file .binary) => .error .notText
  | some (.directory _) => .error .isDirectory
  | none => .error .notFound

def placeOf (t : FileTree) (p : Path) : Place :=
  let start := if Path.isAbsolute p then [] else t.workingDirectory
  (Path.segments p).foldl (fun place segment =>
    if Path.staysPut segment then place
    else if Path.isParent segment then place.dropLast
    else place ++ [segment]) start

/-- Puts a node where a path leads. -/
def insert (t : FileTree) (p : Path) (n : Node) : FileTree :=
  { t with root := Node.update (fun _ => n) (t.placeOf p) (some t.root) }

/-- Makes a directory where a path leads, unless there is one. -/
def insertDirectory (t : FileTree) (p : Path) : FileTree :=
  let keep (n : Option Node) : Node := .directory ((n.map Node.entries).getD [])
  { t with root := Node.update keep (t.placeOf p) (some t.root) }

end FileTree

end SchemaLift
