import TreeFigure.Document
import TreeFigure.Failure
import TreeFigure.Files
import TreeFigure.Literal
import TreeFigure.Record
import TreeFigure.Settings.Basic

/-!
Drawing one line of a tree-bank. The line is selected, read as a record, its tree parsed, and the
document rendered as a whole before the output is written; so a run that fails writes nothing.
-/

namespace TreeFigure

namespace Drawing

/-- The line with an index, counted from zero, of a file that was opened. -/
def selectLine (path : String) (index : Nat) (opened : Except String Source) :
    Except Failure String :=
  match opened with
  | .error reason => .error (.inputUnreadable path reason)
  | .ok source =>
    match source.available[index]? with
    | some line =>
      match Source.decode? (Source.dropReturn line) with
      | some text => .ok text
      | none => .error (.malformedRecord Record.Fault.notText.message)
    | none =>
      match source.failure with
      | some reason => .error (.operationFailed ("read line: " ++ path) reason)
      | none => .error (.lineNotFound path index source.available.length)

/-- A line that was loaded: its record and the tree in it. -/
structure Loaded where
  record : Record
  tree : Tree
  deriving DecidableEq, Repr

/-- The record and the tree of a line. -/
def readRecord (line : String) : Except Failure Loaded :=
  match Record.parse line with
  | .error fault => .error (.malformedRecord fault.message)
  | .ok record =>
    match Tree.parseWith .brackets record.treeText with
    | .error fault => .error (.malformedTree fault.cause.message fault.offset)
    | .ok tree => .ok ⟨record, tree⟩

/-- The record and the tree of a line of a file that was opened. -/
def loadFrom (path : String) (index : Nat) (opened : Except String Source) :
    Except Failure Loaded :=
  match selectLine path index opened with
  | .error failure => .error failure
  | .ok line => readRecord line

/-- The document of what was loaded. -/
def document (settings : Settings) (loaded : Loaded) : Except Failure String :=
  match Document.render? settings.layout settings.font loaded.tree loaded.record.tokens with
  | some text => .ok text
  | none => .error .noLeaves

/-- What was drawn and where. -/
structure Report where
  output : String
  tree : Tree
  height : Nat
  leafCount : Nat
  tokenCount : Nat
  deriving DecidableEq, Repr

def report (settings : Settings) (loaded : Loaded) : Report where
  output := settings.output
  tree := loaded.tree
  height := loaded.tree.height
  leafCount := loaded.tree.leaves.length
  tokenCount := loaded.record.tokens.length

/-- The document of a line and the report of drawing it. -/
def prepare (settings : Settings) (path : String) (index : Nat)
    (opened : Except String Source) : Except Failure (Report × String) :=
  match loadFrom path index opened with
  | .error failure => .error failure
  | .ok loaded =>
    match document settings loaded with
    | .error failure => .error failure
    | .ok text => .ok (report settings loaded, text)

section Run

variable {m : Type → Type} [Monad m]

def readLine (files : Files m) (path : String) (index : Nat) : m (Except Failure String) := do
  let opened ← files.openFile path
  pure (selectLine path index opened)

def load (files : Files m) (path : String) (index : Nat) : m (Except Failure Loaded) := do
  let opened ← files.openFile path
  pure (loadFrom path index opened)

/-- Draws a line of a file to the output of the settings. -/
def draw (files : Files m) (settings : Settings) (path : String) (index : Nat) :
    m (Except Failure Report) := do
  let opened ← files.openFile path
  match prepare settings path index opened with
  | .error failure => pure (.error failure)
  | .ok (report, text) =>
    match ← files.write settings.output text with
    | .error reason => pure (.error (.outputUnwritable settings.output reason))
    | .ok () => pure (.ok report)

end Run

end Drawing

end TreeFigure
