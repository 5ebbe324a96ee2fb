import TreeFigure.Files
import TreeFigure.Text.Pieces
import TreeFigure.Text.Replace

/-!
A tree of directories in memory with a working directory. Paths have steps between slashes; a
path that starts with a slash starts at the root, any other in the working directory. Every step
but the last has to lead into a directory, and so has the last if a slash follows it.
-/

namespace TreeFigure

namespace Directory

/-- Why the system refuses an operation on a file. -/
inductive Refusal where
  | noEntry
  | notDirectory
  | isDirectory
  | nameTooLong
  | zeroByte
  deriving DecidableEq, Repr

def Refusal.message : Refusal → String
  | .noEntry => "No such file or directory (os error 2)"
  | .notDirectory => "Not a directory (os error 20)"
  | .isDirectory => "Is a directory (os error 21)"
  | .nameTooLong => "File name too long (os error 36)"
  | .zeroByte => "file name contained an unexpected NUL byte"

inductive Entry where
  | file (content : List UInt8)
  | directory (entries : List (String × Entry))
  deriving Inhabited, Repr

namespace Entry

def child? : Entry → String → Option Entry
  | .file _, _ => none
  | .directory entries, name => entries.lookup name

/-- The entry that a list of names leads to. -/
def at? (entry : Entry) : List String → Option Entry
  | [] => some entry
  | name :: rest =>
    match entry.child? name with
    | some inner => inner.at? rest
    | none => none

def setChild (name : String) (child : Entry) : List (String × Entry) → List (String × Entry)
  | [] => [(name, child)]
  | entry :: rest =>
    if entry.1 = name then (name, child) :: rest else entry :: setChild name child rest

/-- Puts an entry where a list of names leads, making directories on the way. -/
def putAt (new : Entry) : List String → Entry → Entry
  | [], _ => new
  | name :: rest, entry =>
    let entries := match entry with
      | .file _ => []
      | .directory entries => entries
    .directory (setChild name (putAt new rest ((entries.lookup name).getD (.directory [])))
      entries)

/-- The files below a list of directories, each with its names joined by slashes. -/
def filesBelow (place : String) : List (String × Entry) → List (String × List UInt8)
  | [] => []
  | (name, .file content) :: rest => (place ++ name, content) :: filesBelow place rest
  | (name, .directory entries) :: rest =>
    filesBelow (place ++ name ++ "/") entries ++ filesBelow place rest

end Entry

/-- Longest path, in bytes. -/
def pathLimit : Nat := 4095

/-- Longest name in a directory, in bytes. -/
def nameLimit : Nat := 255

/-- The steps of a path without the slash at its start. A step without a name stays where it is. -/
def steps (path : String) : List String :=
  (Text.pieces (· == '/') path.toList).map String.ofList

end Directory

structure Directory where
  root : Directory.Entry
  /-- Names that lead from the root to the working directory. -/
  workingNames : List String
  deriving Repr

namespace Directory

/-- Faults of a path as a text. -/
def checkPath (path : String) : Except Refusal Unit :=
  if path.toList.contains '\x00' then .error .zeroByte
  else if path.isEmpty then .error .noEntry
  else if pathLimit < path.utf8ByteSize then .error .nameTooLong
  else .ok ()

/-- Where a path starts. -/
def start (directory : Directory) (path : String) : List String :=
  if path.toList.head? = some '/' then [] else directory.workingNames

/-- Takes steps from a place that exists. -/
def walk (directory : Directory) (place : List String) :
    List String → Except Refusal (List String)
  | [] => .ok place
  | step :: rest =>
    match directory.root.at? place with
    | some (.directory entries) =>
      if step = "" ∨ step = "." then directory.walk place rest
      else if step = ".." then directory.walk place.dropLast rest
      else if nameLimit < step.utf8ByteSize then .error .nameTooLong
      else if (entries.lookup step).isSome then directory.walk (place ++ [step]) rest
      else .error .noEntry
    | _ => .error .notDirectory

/-- The names that lead from the root to what a path denotes. -/
def resolve (directory : Directory) (path : String) : Except Refusal (List String) := do
  checkPath path
  directory.walk (directory.start path) (steps path)

/-- A directory can be opened like a file, but reading it fails. -/
def openFile (directory : Directory) (path : String) : Except Refusal Source := do
  let place ← directory.resolve path
  match directory.root.at? place with
  | some (.file content) => .ok { bytes := content }
  | some (.directory _) => .ok { bytes := [], failure := some Refusal.isDirectory.message }
  | none => .error .noEntry

/-- Replaces or makes a file in a directory that exists. -/
def write (directory : Directory) (path content : String) : Except Refusal Directory := do
  checkPath path
  let named := (steps path).reverse.dropWhile (· = "")
  let place ← directory.walk (directory.start path) (named.drop 1).reverse
  match directory.root.at? place with
  | some (.directory entries) =>
    let name := named.headD ""
    if name = "" ∨ name = "." ∨ name = ".." ∨ path.toList.getLast? = some '/' then
      .error .isDirectory
    else if nameLimit < name.utf8ByteSize then .error .nameTooLong
    else
      match entries.lookup name with
      | some (.directory _) => .error .isDirectory
      | _ =>
        let file := Entry.file (Source.encode content)
        .ok { directory with root := Entry.putAt file (place ++ [name]) directory.root }
  | _ => .error .notDirectory

/-- The tree of directories as a file system; a failed write leaves it as it was. -/
def system : Files (StateM Directory) where
  openFile path := fun directory =>
    ((directory.openFile path).mapError Refusal.message, directory)
  isPresent path := fun directory => ((directory.resolve path).isOk, directory)
  write path content := fun directory =>
    match directory.write path content with
    | .error refusal => (.error refusal.message, directory)
    | .ok next => (.ok (), next)

/-- An empty working directory that a list of names leads to. -/
def empty (workingNames : List String) : Directory :=
  ⟨Entry.putAt (.directory []) workingNames (.directory []), workingNames⟩

/-- Puts an entry below the working directory, making directories on the way. -/
def put (directory : Directory) (path : String) (entry : Entry) : Directory :=
  let names := (steps path).filter (· ≠ "")
  { directory with root := Entry.putAt entry (directory.workingNames ++ names) directory.root }

/-- The files below the working directory with their paths from there. -/
def files (directory : Directory) : List (String × List UInt8) :=
  match directory.root.at? directory.workingNames with
  | some (.directory entries) => Entry.filesBelow "" entries
  | _ => []

/-- The files below the working directory that are new or have another content than before. -/
def filesChangedFrom (directory before : Directory) : List (String × List UInt8) :=
  directory.files.filter fun (path, content) => before.files.lookup path ≠ some content

end Directory

end TreeFigure
