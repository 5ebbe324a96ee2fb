import TreeFigure.Text.Numeral

/-!
The arguments of the command. Options may stand anywhere between the two positional arguments, and
after two dashes everything is positional. A value is checked when the next argument that is
understood follows it, so that an argument that is not understood is reported first.
-/

namespace TreeFigure.Command

/-- The shells for which the command can write completions. -/
inductive Shell where
  | bash
  | elvish
  | fish
  | powershell
  | zsh
  deriving DecidableEq, Repr

def Shell.name : Shell → String
  | .bash => "bash"
  | .elvish => "elvish"
  | .fish => "fish"
  | .powershell => "powershell"
  | .zsh => "zsh"

def Shell.all : List Shell :=
  [.bash, .elvish, .fish, .powershell, .zsh]

def Shell.ofName? (name : String) : Option Shell :=
  Shell.all.find? fun shell => shell.name = name

/-- What the arguments ask for. -/
structure Arguments where
  treeFile : Option String := none
  line : Option Nat := none
  output : Option String := none
  printTree : Bool := false
  showConfig : Bool := false
  verbose : Nat := 0
  completion : Option Shell := none
  deriving DecidableEq, Repr

/-- Why a command line is not carried out: the user asked for help or for the version, or an
argument is wrong. -/
inductive Stop where
  | help
  | version
  | missingArgument
  | unknownArgument
  | malformedValue
  | invalidValue
  | conflict
  | tooManyValues
  deriving DecidableEq, Repr

def Stop.exitCode : Stop → Nat
  | .help | .version => 0
  | _ => 2

/-- An argument that has a value. -/
inductive Slot where
  | treeFile
  | line
  | output
  | completion
  deriving DecidableEq, Repr

/-- An option without a value. -/
inductive Switch where
  | printTree
  | showConfig
  | verbose
  | help
  | version
  deriving DecidableEq, Repr

inductive Flag where
  | slot (slot : Slot)
  | switch (switch : Switch)
  deriving DecidableEq, Repr

def Flag.ofLong? (name : List Char) : Option Flag :=
  [("output", Flag.slot .output), ("print-tree", .switch .printTree),
    ("show-config", .switch .showConfig), ("verbose", .switch .verbose),
    ("completion", .slot .completion), ("help", .switch .help),
    ("version", .switch .version)].lookup (String.ofList name)

def Flag.ofShort? : Char → Option Flag
  | 'o' => some (.slot .output)
  | 'v' => some (.switch .verbose)
  | 'h' => some (.switch .help)
  | 'V' => some (.switch .version)
  | _ => none

namespace Arguments

/-- Most occurrences of the verbosity option that are counted. -/
def verbosityLimit : Nat := 255

/-- A path must not be empty. -/
def path? (value : String) : Except Stop String :=
  if value.isEmpty then .error .invalidValue else .ok value

/-- Gives an argument its value. An option may have only one. -/
def fill (arguments : Arguments) (value : String) : Slot → Except Stop Arguments
  | .treeFile => do
    let path ← path? value
    .ok { arguments with treeFile := some path }
  | .line =>
    match Text.natural? value.toList with
    | some line => .ok { arguments with line := some line }
    | none => .error .malformedValue
  | .output =>
    if arguments.output.isSome then .error .conflict
    else do
      let path ← path? value
      .ok { arguments with output := some path }
  | .completion =>
    if arguments.completion.isSome then .error .conflict
    else
      match Shell.ofName? value with
      | some shell => .ok { arguments with completion := some shell }
      | none => .error .invalidValue

/-- Turns a switch on. Only the verbosity option may be repeated. -/
def turnOn (arguments : Arguments) : Switch → Except Stop Arguments
  | .printTree =>
    if arguments.printTree then .error .conflict
    else .ok { arguments with printTree := true }
  | .showConfig =>
    if arguments.showConfig then .error .conflict
    else .ok { arguments with showConfig := true }
  | .verbose => .ok { arguments with verbose := min (arguments.verbose + 1) verbosityLimit }
  | .help => .error .help
  | .version => .error .version

/-- Whether a positional argument is missing: it is not there, and neither completions nor the
settings are asked for. -/
def isMissing (arguments : Arguments) (isThere : Bool) : Bool :=
  !isThere && !(arguments.completion.isSome || arguments.showConfig)

/-- Each of the two positional arguments is required for itself. -/
def check (arguments : Arguments) : Except Stop Arguments :=
  if arguments.isMissing arguments.treeFile.isSome || arguments.isMissing arguments.line.isSome then
    .error .missingArgument
  else .ok arguments

end Arguments

/-- An argument that has not been checked yet: an option that waits for its value, or a value. -/
inductive Pending where
  | nothing
  | waiting (slot : Slot)
  | value (slot : Slot) (value : String)
  deriving DecidableEq, Repr

/-- How far the arguments have been read. -/
structure Scan where
  found : Arguments := {}
  pending : Pending := .nothing
  /-- Number of positional arguments so far. -/
  positionals : Nat := 0
  /-- Two dashes have been read. -/
  onlyPositionals : Bool := false
  deriving DecidableEq, Repr

namespace Scan

/-- Checks what is pending. -/
def settle (scan : Scan) : Except Stop Scan :=
  match scan.pending with
  | .nothing => .ok scan
  | .waiting _ => .error .invalidValue
  | .value slot value => do
    let found ← scan.found.fill value slot
    .ok { scan with found, pending := .nothing }

def turnOn (scan : Scan) (switch : Switch) : Except Stop Scan := do
  let settled ← scan.settle
  let found ← settled.found.turnOn switch
  .ok { settled with found }

/-- An option whose value stands in the same argument. -/
def attach (scan : Scan) (slot : Slot) (value : List Char) : Except Stop Scan := do
  let settled ← scan.settle
  let found ← settled.found.fill (String.ofList value) slot
  .ok { settled with found }

/-- An option whose value is the next argument. -/
def await (scan : Scan) (slot : Slot) : Except Stop Scan := do
  let settled ← scan.settle
  .ok { settled with pending := .waiting slot }

/-- A positional argument: the tree-bank file first, then the line. -/
def positional (scan : Scan) (argument : String) : Except Stop Scan := do
  let slot ← match scan.positionals with
    | 0 => .ok .treeFile
    | 1 => .ok .line
    | _ => .error .unknownArgument
  let settled ← scan.settle
  .ok { settled with pending := .value slot argument, positionals := scan.positionals + 1 }

/-- An argument after two dashes: the name of an option, with a value after an equals sign. -/
def long (scan : Scan) (text : List Char) : Except Stop Scan :=
  let name := text.takeWhile (· != '=')
  let value? := if text.contains '=' then some (text.drop (name.length + 1)) else none
  match Flag.ofLong? name, value? with
  | none, _ => .error .unknownArgument
  | some (.switch _), some _ => .error .tooManyValues
  | some (.switch switch), none => scan.turnOn switch
  | some (.slot slot), some value => scan.attach slot value
  | some (.slot slot), none => scan.await slot

/-- An argument after one dash: short options, of which one that has a value takes all that follows
it, less an equals sign at the start. -/
def short (scan : Scan) : List Char → Except Stop Scan
  | [] => .ok scan
  | c :: rest =>
    match Flag.ofShort? c with
    | none => .error .unknownArgument
    | some (.switch switch) =>
      match scan.turnOn switch with
      | .error stop => .error stop
      | .ok next => next.short rest
    | some (.slot slot) =>
      match rest with
      | [] => scan.await slot
      | '=' :: value => scan.attach slot value
      | value => scan.attach slot value

/-- An argument that is no option: the value that is waited for, or a positional argument. -/
def plain (scan : Scan) (argument : String) : Except Stop Scan :=
  match scan.pending with
  | .waiting slot => .ok { scan with pending := .value slot argument }
  | _ => scan.positional argument

def step (scan : Scan) (argument : String) : Except Stop Scan :=
  if scan.onlyPositionals then scan.positional argument
  else
    match argument.toList with
    | ['-', '-'] => .ok { scan with onlyPositionals := true }
    | '-' :: '-' :: text => scan.long text
    | '-' :: c :: text => scan.short (c :: text)
    | _ => scan.plain argument

def run (scan : Scan) : List String → Except Stop Scan
  | [] => scan.settle
  | argument :: rest =>
    match scan.step argument with
    | .error stop => .error stop
    | .ok next => next.run rest

end Scan

/-- Reads the arguments of a command line, without the name of the command. -/
def Arguments.parse (arguments : List String) : Except Stop Arguments := do
  let scan ← Scan.run {} arguments
  scan.found.check

end TreeFigure.Command
