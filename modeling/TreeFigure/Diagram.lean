import TreeFigure.Layout
import TreeFigure.Tex
import TreeFigure.Tree.Position

/-!
The tree diagram of a figure. A subtree is written on one line while it fits into the margin;
otherwise each child starts a line, two columns further in. The first and the last leaf become
named nodes, so that the rows under the tree can be placed below them. A leaf is named for its
position, never for its text. A text can be of any length here, however far a layout indents it.
-/

namespace TreeFigure

/-- The node names of some positions of a tree. -/
abbrev Naming := Position → Option String

/-- The names inside child number `index`. -/
def Naming.below (names : Naming) (index : Nat) : Naming :=
  fun position => names (index :: position)

/-- Names the anchors: two names, or one if there is only one leaf. -/
def Anchors.naming (anchors : Anchors) : Naming := fun position =>
  if position = anchors.first then some "n0"
  else if position = anchors.last then some "n1"
  else none

namespace Diagram

/-- A leaf as it is written: with a name it is a node with an edge of its own. -/
def leafChars (name : Option String) (text : String) : List Char :=
  match name with
  | some name =>
    "\\edge; \\node(".toList ++ name.toList ++ ") ".toList ++
      Tex.group (Tex.escapeChars text.toList) ++ [';']
  | none => Tex.escapeChars text.toList

/-- What opens the node with this label. -/
def header (label : String) : List Char :=
  "[.".toList ++ Tex.escapeChars label.toList

def closer : List Char := " ]".toList

/-- A new line that continues in this column. -/
def newLine (column : Nat) : List Char :=
  '\n' :: List.replicate column ' '

end Diagram

mutual

/-- The tree on one line. -/
def Tree.flat (names : Naming) : Tree → List Char
  | .leaf text => Diagram.leafChars (names []) text
  | .node label children =>
    Diagram.header label ++ ' ' :: [' '].intercalate (Forest.flat names 0 children) ++
      Diagram.closer

/-- Each tree of a forest on one line; the first is child number `index`. -/
def Forest.flat (names : Naming) (index : Nat) : List Tree → List (List Char)
  | [] => []
  | tree :: rest => tree.flat (names.below index) :: Forest.flat names (index + 1) rest

end

/-- There is room for the tree on the line if it starts in this column. -/
def Tree.Fits (margin column : Nat) (names : Naming) (tree : Tree) : Prop :=
  Width.add (tree.flat names).length column < margin

instance (margin column : Nat) (names : Naming) (tree : Tree) :
    Decidable (tree.Fits margin column names) :=
  inferInstanceAs (Decidable (_ < _))

mutual

/-- The tree from this column on, broken over lines where it does not fit. -/
def Tree.laidOut (margin : Nat) (names : Naming) (column : Nat) : Tree → List Char
  | .leaf text => Diagram.leafChars (names []) text
  | .node label children =>
    if (Tree.node label children).Fits margin column names then
      (Tree.node label children).flat names
    else
      Diagram.header label ++ Forest.laidOut margin names 0 (Width.add column 2) children ++
        Diagram.closer

/-- Each tree of a forest on a new line that starts in this column. -/
def Forest.laidOut (margin : Nat) (names : Naming) (index column : Nat) :
    List Tree → List Char
  | [] => []
  | tree :: rest =>
    Diagram.newLine column ++ tree.laidOut margin (names.below index) column ++
      Forest.laidOut margin names (index + 1) column rest

end

/-- The text of a diagram and the names of its anchors. -/
structure Diagram where
  text : String
  first : String
  last : String
  deriving DecidableEq, Repr

/-- The diagram of a tree that has a leaf. -/
def Diagram.ofTree? (layout : Layout) (tree : Tree) : Option Diagram :=
  tree.anchors?.map fun anchors =>
    { text := String.ofList
        ("\\Tree ".toList ++ tree.laidOut layout.margin anchors.naming layout.indent)
      first := "n0"
      last := if anchors.first = anchors.last then "n0" else "n1" }

end TreeFigure
