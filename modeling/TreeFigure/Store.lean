import TreeFigure.Files

/-!
Files in memory, each under its whole name. Some names may refuse to be written, and some files
may fail while they are read.
-/

namespace TreeFigure

structure Store where
  files : List (String × List UInt8)
  /-- Names that cannot be written. -/
  unwritable : List String := []
  /-- Files whose reading fails after a number of bytes. -/
  broken : List (String × Nat) := []
  deriving DecidableEq, Repr

namespace Store

def get? (store : Store) (name : String) : Option (List UInt8) :=
  store.files.lookup name

def putIn (name : String) (content : List UInt8) :
    List (String × List UInt8) → List (String × List UInt8)
  | [] => [(name, content)]
  | entry :: rest =>
    if entry.1 = name then (name, content) :: rest else entry :: putIn name content rest

/-- The store with this content under a name, whether or not the name can be written. -/
def put (store : Store) (name : String) (content : List UInt8) : Store :=
  { store with files := putIn name content store.files }

def openFile (store : Store) (name : String) : Except String Source :=
  match store.get? name with
  | none => .error "no such file"
  | some bytes =>
    match store.broken.lookup name with
    | none => .ok { bytes }
    | some count => .ok { bytes := bytes.take count, failure := some "disk failure" }

def write (store : Store) (name content : String) : Except String Store :=
  if name ∈ store.unwritable then .error "permission denied"
  else .ok (store.put name (Source.encode content))

/-- The store as a file system; a failed write leaves it as it was. -/
def system : Files (StateM Store) where
  openFile name := fun store => (store.openFile name, store)
  isPresent name := fun store => ((store.get? name).isSome, store)
  write name content := fun store =>
    match store.write name content with
    | .error reason => (.error reason, store)
    | .ok next => (.ok (), next)

/-- The names with the sizes of their files in bytes, in the order of the names. -/
def listing (store : Store) : List (String × Nat) :=
  (store.files.map fun (name, content) => (name, content.length)).mergeSort
    fun a b => decide (a.1 ≤ b.1)

end Store

end TreeFigure
