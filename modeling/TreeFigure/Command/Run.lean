import TreeFigure.Command.Arguments
import TreeFigure.Drawing
import TreeFigure.Settings.Load
import TreeFigure.Settings.Written
import TreeFigure.Tree.Outline

/-!
Running the command. A run gives an exit status and the text for both output streams. Completions
come before the settings are loaded, and the settings before anything else is looked at.
-/

namespace TreeFigure.Command

/-- How a run ends for the one who started it. -/
structure Ending where
  exitCode : Nat
  out : String := ""
  err : String := ""
  deriving DecidableEq, Repr

/-- What a command line comes to: it is not carried out, it asks for completions, or it runs. -/
inductive Outcome where
  | stopped (stop : Stop)
  | completions (shell : Shell)
  | ended (ending : Ending)
  deriving DecidableEq, Repr

/-- The exit status that a command line comes to. -/
def Outcome.exitCode : Outcome → Nat
  | .stopped stop => stop.exitCode
  | .completions _ => 0
  | .ended ending => ending.exitCode

/-- Where a run takes place. -/
structure Host (m : Type → Type) where
  files : Files m
  environment : Environment
  /-- The working directory, or the reason why there is none. -/
  directory : Except String String
  /-- Whether the output is coloured. -/
  colour : Bool := false

/-- Output is coloured for a terminal, unless variables ask for it always or never. -/
def wantsColour (environment : Environment) (isTerminal : Bool) : Bool :=
  if ((environment.get? "CLICOLOR_FORCE").map (· != "0")).getD false then true
  else if (environment.get? "NO_COLOR").isSome then false
  else ((environment.get? "CLICOLOR").map (· != "0")).getD true && isTerminal

/-- A text in a colour, given by the codes of the terminal. -/
def painted (colour : Bool) (codes text : String) : String :=
  if colour then "\x1b[" ++ codes ++ "m" ++ text ++ "\x1b[0m" else text

def failureLine (colour : Bool) (failure : Failure) : String :=
  painted colour "1;31" "error" ++ ": " ++ failure.message ++ "\n"

def summaryLine (colour : Bool) (line : Nat) (report : Drawing.Report) : String :=
  painted colour "32" "✓" ++ " " ++ report.output ++ " (line " ++ toString line ++
    ", height " ++ toString report.height ++ ", " ++ toString report.leafCount ++
    " leaves, " ++ toString report.tokenCount ++ " tokens)\n"

/-- How a run ends that failed. -/
def failed (colour : Bool) (failure : Failure) : Ending where
  exitCode := failure.exitCode
  err := failureLine colour failure

/-- How a run ends that drew a line. -/
def drawn (colour printTree : Bool) (line : Nat) (report : Drawing.Report) : Ending where
  exitCode := 0
  out := (if printTree then report.tree.outline ++ "\n" else "") ++
    summaryLine colour line report

/-- How a run ends that shows the settings. -/
def shown (colour : Bool) (settings : Settings) : Ending :=
  match settings.toToml with
  | .ok text => { exitCode := 0, out := text ++ "\n" }
  | .error failure => failed colour failure

/-- The settings of a run: those loaded, with the output of the command line as it is given. -/
def effective (arguments : Arguments) (settings : Settings) : Settings :=
  { settings with output := arguments.output.getD settings.output }

section Run

variable {m : Type → Type} [Monad m]

def loadSettings (host : Host m) : m (Except Failure Settings) :=
  match host.directory with
  | .error reason => pure (.error (.hostFailed "resolve working directory" reason))
  | .ok directory => Settings.load host.files host.environment directory

/-- Carries out what the arguments ask for under some settings. -/
def carryOut (host : Host m) (arguments : Arguments) (settings : Settings) : m Ending :=
  if arguments.showConfig then pure (shown host.colour settings)
  else
    match arguments.treeFile, arguments.line with
    | some path, some line => do
      match ← Drawing.draw host.files settings path line with
      | .error failure => pure (failed host.colour failure)
      | .ok report => pure (drawn host.colour arguments.printTree line report)
    | _, _ =>
      pure (failed host.colour (.usage "a tree file and a line index are required"))

def run (host : Host m) (arguments : Arguments) : m Outcome :=
  match arguments.completion with
  | some shell => pure (.completions shell)
  | none => do
    match ← loadSettings host with
    | .error failure => pure (.ended (failed host.colour failure))
    | .ok settings =>
      let ending ← carryOut host arguments (effective arguments settings)
      pure (.ended ending)

/-- Reads a command line and runs it. -/
def runLine (host : Host m) (arguments : List String) : m Outcome :=
  match Arguments.parse arguments with
  | .error stop => pure (.stopped stop)
  | .ok arguments => run host arguments

end Run

end TreeFigure.Command
