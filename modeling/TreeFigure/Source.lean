import TreeFigure.Text.Pieces

/-!
Reading bytes as lines of text. A line ends with a line feed, which the last line may lack, and a
carriage return before its end belongs to the ending. A source that fails still gives the lines
that were complete by then.
-/

namespace TreeFigure

/-- What reading a file gives: its bytes, and the reason if reading failed after them. -/
structure Source where
  bytes : List UInt8
  failure : Option String := none
  deriving DecidableEq, Repr

namespace Source

def lineFeed : UInt8 := 10

def carriageReturn : UInt8 := 13

/-- What stands between the line feeds, with what stands before the first and after the last. -/
def pieces (bytes : List UInt8) : List (List UInt8) :=
  Text.pieces (· == lineFeed) bytes

/-- The lines of a file that was read to its end. After the last line feed there is a line only
if bytes follow. -/
def lines (bytes : List UInt8) : List (List UInt8) :=
  if (pieces bytes).getLast? = some [] then (pieces bytes).dropLast else pieces bytes

/-- The lines that are known to be complete. -/
def available (source : Source) : List (List UInt8) :=
  match source.failure with
  | none => lines source.bytes
  | some _ => (pieces source.bytes).dropLast

/-- A line without a carriage return at its end. -/
def dropReturn (line : List UInt8) : List UInt8 :=
  if line.getLast? = some carriageReturn then line.dropLast else line

/-- The text that bytes encode in UTF-8. -/
def decode? (bytes : List UInt8) : Option String :=
  String.fromUTF8? ⟨bytes.toArray⟩

/-- The bytes that encode a text in UTF-8. -/
def encode (text : String) : List UInt8 :=
  text.toUTF8.toList

/-- The whole text of a source, or the reason why there is none. -/
def text (source : Source) : Except String String :=
  match source.failure with
  | some reason => .error reason
  | none =>
    match decode? source.bytes with
    | some text => .ok text
    | none => .error "stream did not contain valid UTF-8"

end Source

end TreeFigure
