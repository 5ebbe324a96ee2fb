import TreeFigure.Failure
import TreeFigure.Files
import TreeFigure.Settings.Expansion
import TreeFigure.Settings.File

/-!
Loading the settings of a run. The defaults are overlaid by the settings file of the user, that by
the file in the working directory, and that by the environment. In the end the output path is
expanded once, wherever it came from.
-/

namespace TreeFigure

namespace Settings

/-- The path of `name` seen from a directory. -/
def join (directory name : String) : String :=
  if name.toList.head? = some '/' ∨ directory.isEmpty then name
  else if directory.toList.getLast? = some '/' then directory ++ name
  else directory ++ "/" ++ name

/-- The directory of the user's settings. A variable may move it to an absolute path. -/
def userDirectory? (environment : Environment) : Option String :=
  environment.home?.map fun home =>
    let base := match environment.get? "XDG_CONFIG_HOME" with
      | some path => if path.toList.head? = some '/' then path else join home ".config"
      | none => join home ".config"
    join base "treedraw"

/-- The user's settings file. -/
def userFile? (environment : Environment) : Option String :=
  (userDirectory? environment).map fun directory => join directory "treedraw.toml"

/-- The settings file in a directory. -/
def localFile (directory : String) : String :=
  join directory ".treedraw.toml"

/-- A settings file that is present: its path, and its text or the reason why it has none. -/
structure Layer where
  path : String
  content : Except String String

/-- What a settings file says, or why it cannot be used. -/
def Layer.overlay (layer : Layer) : Except Failure Overlay :=
  match layer.content with
  | .error reason => .error (.config ("read " ++ layer.path ++ ": " ++ reason))
  | .ok text =>
    match Overlay.ofToml? text with
    | some overlay => .ok overlay
    | none => .error (.config ("parse " ++ layer.path))

/-- What a file says that may be missing. -/
def layerOverlay : Option Layer → Except Failure Overlay
  | none => .ok {}
  | some layer => layer.overlay

/-- The settings from the user's file, the file in the working directory, and the environment. -/
def resolve (environment : Environment) (user inDirectory : Option Layer) :
    Except Failure Settings := do
  let first ← layerOverlay user
  let second ← layerOverlay inDirectory
  let settings : Settings := {}
  let overlaid := ((settings.overlaid first).overlaid second).overlaid
    (Overlay.ofEnvironment environment)
  .ok { overlaid with output := environment.expand overlaid.output }

/-- The settings file at a path, if there is anything there. -/
def findLayer {m : Type → Type} [Monad m] (files : Files m) :
    Option String → m (Option Layer)
  | none => pure none
  | some path => do
    if ← files.isPresent path then
      let opened ← files.openFile path
      pure (some ⟨path, opened.bind Source.text⟩)
    else pure none

/-- Loads the settings from these files, where a missing file says nothing. -/
def loadFrom {m : Type → Type} [Monad m] (files : Files m) (environment : Environment)
    (userFile directory : Option String) : m (Except Failure Settings) := do
  let user ← findLayer files userFile
  let inDirectory ← findLayer files (directory.map localFile)
  pure (resolve environment user inDirectory)

/-- Loads the settings of a run in a directory. -/
def load {m : Type → Type} [Monad m] (files : Files m) (environment : Environment)
    (directory : String) : m (Except Failure Settings) :=
  loadFrom files environment (userFile? environment) (some directory)

end Settings

end TreeFigure
