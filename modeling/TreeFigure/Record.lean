import TreeFigure.Text.Pieces
import TreeFigure.Text.Replace

/-!
The records of a tree-bank. A record is one line: the notation of a tree, a mark, and the tokens of
the sentence between blanks. A second mark ends the tokens and what follows it is ignored.
-/

namespace TreeFigure

structure Record where
  treeText : String
  tokens : List String
  deriving DecidableEq, Repr

namespace Record

/-- The mark with the spaces around it. -/
def mark : String := " ||||| "

/-- Why a line is not a record. -/
inductive Fault where
  | noMark
  | noTokens
  | notText
  deriving DecidableEq, Repr

def Fault.message : Fault → String
  | .noMark => "missing '|||||' delimiter"
  | .noTokens => "alignment token list is empty"
  | .notText => "line is not valid UTF-8"

/-- What stands between the first mark and the second, or the end. -/
def tokenField (afterMark : List Char) : List Char :=
  match Text.cut? mark.toList afterMark with
  | some (field, _) => field
  | none => afterMark

def parse (line : String) : Except Fault Record :=
  match Text.cut? mark.toList line.toList with
  | none => .error .noMark
  | some (treeText, afterMark) =>
    match Text.words (tokenField afterMark) with
    | [] => .error .noTokens
    | words => .ok ⟨String.ofList treeText, words.map String.ofList⟩

/-- Index of the last of some tokens. -/
def lastOf (tokens : List String) : Nat :=
  tokens.length - 1

/-- Index of the last token. -/
def lastIndex (record : Record) : Nat :=
  lastOf record.tokens

end Record

end TreeFigure
