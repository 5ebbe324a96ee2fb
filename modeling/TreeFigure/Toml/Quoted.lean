/-!
Writing a text as a TOML string. The plainest kind of quotes that needs no escapes is taken: double
quotes, single quotes, three double quotes, three single quotes, in this order. If none will do,
double quotes with escapes are used, three of them if the text has several lines.
-/

namespace TreeFigure.Toml

namespace Quoted

/-- The text has a control character other than the tab and the line feed. -/
def hasControl (text : List Char) : Bool :=
  text.any fun c => c != '\t' && c != '\n' && (c < ' ' || c == '\x7f')

def hasLineFeed (text : List Char) : Bool :=
  text.contains '\n'

def hasBackslash (text : List Char) : Bool :=
  text.contains '\\'

/-- Length of the longest run of a character, where `run` copies stand right before the text. -/
def longestRunAfter (quote : Char) (run : Nat) : List Char → Nat
  | [] => run
  | c :: rest =>
    if c = quote then longestRunAfter quote (run + 1) rest
    else max run (longestRunAfter quote 0 rest)

def longestRun (quote : Char) (text : List Char) : Nat :=
  longestRunAfter quote 0 text

/-- The kinds of quotes: double or single, one or three. -/
inductive Style where
  | basic
  | literal
  | longBasic
  | longLiteral
  deriving DecidableEq, Repr

def style (text : List Char) : Style :=
  let doubles := longestRun '\x22' text
  let singles := longestRun '\x27' text
  if !hasControl text && !hasBackslash text && doubles = 0 && !hasLineFeed text then .basic
  else if !hasControl text && singles = 0 && !hasLineFeed text then .literal
  else if !hasControl text && !hasBackslash text && doubles ≤ 2 then .longBasic
  else if !hasControl text && singles ≤ 2 then .longLiteral
  else if hasLineFeed text then .longBasic
  else .basic

/-- The digits of a code point of one byte. -/
def byteDigits (code : Nat) : List Char :=
  [Nat.digitChar (code / 16), Nat.digitChar (code % 16)].map Char.toUpper

/-- A character inside double quotes that is not a double quote itself. -/
def escapeChar (keepLineFeed : Bool) (c : Char) : List Char :=
  match c with
  | '\x08' => "\\b".toList
  | '\t' => "\\t".toList
  | '\n' => if keepLineFeed then ['\n'] else "\\n".toList
  | '\x0c' => "\\f".toList
  | '\r' => "\\r".toList
  | '\\' => "\\\\".toList
  | _ =>
    if c < ' ' || c == '\x7f' then "\\u00".toList ++ byteDigits c.toNat
    else [c]

/-- The text inside double quotes. At most `limit` double quotes may follow each other, of which
`run` stand right before the text; the next one is escaped. -/
def escapeFrom (keepLineFeed : Bool) (limit run : Nat) : List Char → List Char
  | [] => []
  | c :: rest =>
    if c = '\x22' then
      if run < limit then '\x22' :: escapeFrom keepLineFeed limit (run + 1) rest
      else '\\' :: '\x22' :: escapeFrom keepLineFeed limit 0 rest
    else escapeChar keepLineFeed c ++ escapeFrom keepLineFeed limit 0 rest

/-- A long string with several lines starts on a new line. -/
def firstLineEnd (text : List Char) : List Char :=
  if hasLineFeed text then ['\n'] else []

def write (text : List Char) : List Char :=
  match style text with
  | .basic => '\x22' :: escapeFrom false 0 0 text ++ ['\x22']
  | .literal => '\x27' :: text ++ ['\x27']
  | .longBasic =>
    List.replicate 3 '\x22' ++ firstLineEnd text ++ escapeFrom true 2 0 text ++
      List.replicate 3 '\x22'
  | .longLiteral =>
    List.replicate 3 '\x27' ++ firstLineEnd text ++ text ++ List.replicate 3 '\x27'

end Quoted

end TreeFigure.Toml
