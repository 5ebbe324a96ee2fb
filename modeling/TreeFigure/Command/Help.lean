import TreeFigure.Command.Arguments

/-!
What the command says about itself: its usage, its version, the complaint about a wrong argument
and the completions for a shell.
-/

namespace TreeFigure.Command

def versionText : String := "treedraw 0.3.0\n"

def usage : String :=
  "Usage: treedraw [OPTIONS] [TREE_FILE] [LINE]\n\n" ++
  "Arguments:\n" ++
  "  [TREE_FILE]            Tree-bank file: one record per line\n" ++
  "  [LINE]                 Zero-based line index of the record to draw\n\n" ++
  "Options:\n" ++
  "  -o, --output <OUTPUT>  Output document (default from config: tree.tex)\n" ++
  "      --print-tree       Print the parsed tree to stdout\n" ++
  "      --show-config      Print the effective settings as TOML and exit\n" ++
  "  -v, --verbose...       Verbosity: -v info, -vv debug, -vvv trace\n" ++
  "      --completion <SHELL>  Generate shell completions and exit\n" ++
  "  -h, --help             Print help\n" ++
  "  -V, --version          Print version\n"

/-- What is wrong with a command line that is not carried out. -/
def Stop.complaint : Stop → String
  | .help => usage
  | .version => versionText
  | .missingArgument => "error: a required argument is missing\n\n" ++ usage
  | .unknownArgument => "error: an argument is not known\n\n" ++ usage
  | .malformedValue => "error: the line has to be a number\n\n" ++ usage
  | .invalidValue => "error: a value is missing or not allowed\n\n" ++ usage
  | .conflict => "error: an argument cannot be used twice\n\n" ++ usage
  | .tooManyValues => "error: an option does not take a value\n\n" ++ usage

/-- The names of the long options. -/
def optionWords : String :=
  "--output --print-tree --show-config --verbose --completion --help --version"

/-- A script that completes the options in a shell. -/
def completionScript : Shell → String
  | .bash => "complete -f -W \"" ++ optionWords ++ "\" treedraw\n"
  | .zsh => "#compdef treedraw\ncompadd -- " ++ optionWords ++ "\n_files\n"
  | .fish => "complete -c treedraw -a \"" ++ optionWords ++ "\"\n"
  | .elvish =>
    "set edit:completion:arg-completer[treedraw] = [@words]\x7b put " ++ optionWords ++ " \x7d\n"
  | .powershell =>
    "Register-ArgumentCompleter -Native -CommandName treedraw -ScriptBlock \x7b \"" ++
      optionWords ++ "\".Split() \x7d\n"

end TreeFigure.Command
