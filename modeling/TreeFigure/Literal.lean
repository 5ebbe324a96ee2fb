import TreeFigure.Tree.Parse

/-!
Bracket literals that are not tree structure. A table pairs each literal with a placeholder.
Literals are hidden behind their placeholders before a text is read and shown again in the tree
that was read. The pairs are used in order to hide and in the opposite order to show.
-/

namespace TreeFigure

structure Literal where
  text : String
  placeholder : String
  deriving DecidableEq, Repr

abbrev LiteralTable := List Literal

namespace LiteralTable

def hideChars (table : LiteralTable) (text : List Char) : List Char :=
  table.foldl
    (fun found entry => Text.replace entry.text.toList entry.placeholder.toList found) text

def showChars (table : LiteralTable) (text : List Char) : List Char :=
  table.reverse.foldl
    (fun found entry => Text.replace entry.placeholder.toList entry.text.toList found) text

/-- The text with every literal replaced by its placeholder. -/
def hide (table : LiteralTable) (text : String) : String :=
  String.ofList (table.hideChars text.toList)

/-- The text with every placeholder replaced by its literal. -/
def reveal (table : LiteralTable) (text : String) : String :=
  String.ofList (table.showChars text.toList)

/-- Byte offset of the first placeholder in a text. A text that has one cannot be hidden and
shown again without a change. -/
def firstPlaceholder? (table : LiteralTable) (text : String) : Option Nat :=
  (table.filterMap fun entry =>
    Text.firstOffset? entry.placeholder.toList text.toList).min?

/-- The brackets that stand before an underscore are words, not structure. -/
def brackets : LiteralTable :=
  [⟨"(_", "\ue000"⟩, ⟨")_", "\ue001"⟩]

end LiteralTable

/-- Reads one tree in whose text the literals of `table` are no brackets. -/
def Tree.parseWith (table : LiteralTable) (text : String) : Except Tree.Fault Tree :=
  match table.firstPlaceholder? text with
  | some offset => .error ⟨.reserved, offset⟩
  | none => (Tree.parse (table.hide text)).map (Tree.mapText table.reveal)

/-- A tree that is read is one of the hidden text with its literals shown. -/
theorem Tree.parseWith_eq_ok_iff {table : LiteralTable} {text : String} {tree : Tree} :
    parseWith table text = .ok tree ↔ table.firstPlaceholder? text = none ∧
      ∃ found, parse (table.hide text) = .ok found ∧ found.mapText table.reveal = tree := by
  unfold parseWith
  cases table.firstPlaceholder? text with
  | some offset => simp
  | none => cases parse (table.hide text) <;> simp [Except.map]

end TreeFigure
