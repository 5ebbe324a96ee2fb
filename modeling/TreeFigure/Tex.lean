import TreeFigure.Text.Replace

/-!
Writing TeX. Text of the user goes through `escape`, which leaves no character that TeX or the tree
notation of the figure reads as markup. Groups and control words are built by functions, so that
every brace written here has its partner.
-/

namespace TreeFigure.Tex

/-- How a character of the user's text is written. An underscore is shown as a space, and square
brackets are spelled out because they delimit subtrees in a figure. -/
def escapeChar (c : Char) : List Char :=
  match c with
  | '$' => "\\$".toList
  | '%' => "\\%".toList
  | '#' => "\\#".toList
  | '&' => "\\&".toList
  | '{' => "\\\x7b".toList
  | '}' => "\\\x7d".toList
  | '_' => "\\ ".toList
  | '[' => "\\lbrack\x7b\x7d".toList
  | ']' => "\\rbrack\x7b\x7d".toList
  | '^' => "\\^\x7b\x7d".toList
  | '~' => "\\~\x7b\x7d".toList
  | '\\' => "\\textbackslash\x7b\x7d".toList
  | _ => [c]

def bars : List Char := "|||".toList

/-- Three bars are set in math mode. -/
def mathBars : List Char := "$|||$".toList

def escapeChars (text : List Char) : List Char :=
  Text.replace bars mathBars (text.flatMap escapeChar)

def escape (text : String) : String :=
  String.ofList (escapeChars text.toList)

/-- A group in braces. -/
def group (body : List Char) : List Char :=
  '{' :: body ++ ['}']

/-- A control word with one argument. -/
def control (name : String) (argument : List Char) : List Char :=
  '\\' :: name.toList ++ group argument

/-- A control word with one argument, on a line of its own. -/
def controlLine (name argument : String) : List Char :=
  control name argument.toList ++ ['\n']

end TreeFigure.Tex
