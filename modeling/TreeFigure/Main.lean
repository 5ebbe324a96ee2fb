import TreeFigure.Command.Help
import TreeFigure.Command.Run

/-!
The command on a real system: its files, its environment and its output streams.
-/

namespace TreeFigure.Main

/-- The reason of a failed operation as the system words it. -/
def reasonOf : IO.Error → String
  | .noFileOrDirectory _ code details | .inappropriateType _ code details
  | .permissionDenied _ code details | .resourceExhausted _ code details
  | .invalidArgument _ code details | .noSuchThing _ code details =>
    details ++ " (os error " ++ toString code ++ ")"
  | .otherError code details => details ++ " (os error " ++ toString code ++ ")"
  | error => toString error

def openFile (path : String) : IO (Except String Source) := do
  match ← (IO.FS.Handle.mk path .read).toBaseIO with
  | .error error => return .error (reasonOf error)
  | .ok handle =>
    match ← handle.readBinToEnd.toBaseIO with
    | .error error => return .ok { bytes := [], failure := some (reasonOf error) }
    | .ok bytes => return .ok { bytes := bytes.toList }

/-- A file that cannot be opened for another reason than its absence is present. -/
def isPresent (path : String) : IO Bool := do
  match ← (IO.FS.Handle.mk path .read).toBaseIO with
  | .error (.noFileOrDirectory _ _ _) | .error (.inappropriateType _ _ _) => return false
  | _ => return true

def write (path content : String) : IO (Except String Unit) := do
  match ← (IO.FS.writeFile path content).toBaseIO with
  | .error error => return .error (reasonOf error)
  | .ok () => return .ok ()

def files : Files IO where
  openFile := openFile
  isPresent := isPresent
  write := write

/-- The environment variables from the block of the process, where a zero byte ends each. -/
def environment : IO Environment := do
  match ← openFile "/proc/self/environ" with
  | .error _ => return { bindings := [] }
  | .ok source =>
    let blocks := (Text.pieces (· == 0) source.bytes).filterMap Source.decode?
    let bindings := blocks.filterMap fun block =>
      (Text.cut? ['='] block.toList).map fun (name, value) =>
        (String.ofList name, String.ofList value)
    return { bindings }

def directory : IO (Except String String) := do
  match ← IO.currentDir.toBaseIO with
  | .error error => return .error (reasonOf error)
  | .ok path => return .ok path.toString

end TreeFigure.Main

open TreeFigure in
def main (arguments : List String) : IO UInt32 := do
  let environment ← Main.environment
  let output ← IO.getStdout
  let host : Command.Host IO :=
    { files := Main.files, environment, directory := ← Main.directory
      colour := Command.wantsColour environment (← output.isTty) }
  let outcome ← Command.runLine host arguments
  match outcome with
  | .stopped stop =>
    if stop.exitCode = 0 then IO.print stop.complaint else IO.eprint stop.complaint
  | .completions shell => IO.print (Command.completionScript shell)
  | .ended ending =>
    IO.print ending.out
    IO.eprint ending.err
  return UInt32.ofNat outcome.exitCode
