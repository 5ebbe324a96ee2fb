import TreeFigure.Tree.Basic

/-!
The outline of a tree for a terminal: one line for every subtree from the root down, children
below their parent. Each level of depth adds four columns of branch glyphs, which say whether the
subtree and its ancestors are last among their siblings.
-/

namespace TreeFigure

namespace Outline

/-- What an outline shows of a place: its text, or a sign for a node without a label. -/
def heading : Tree → List Char
  | .leaf text => text.toList
  | .node label _ => if label.isEmpty then ['∅'] else label.toList

/-- The branch that leads to a child. -/
def branch (isLast : Bool) : List Char :=
  if isLast then "└── ".toList else "├── ".toList

/-- What stands below a branch in the lines of the child's own children. -/
def trunk (isLast : Bool) : List Char :=
  if isLast then "    ".toList else "│   ".toList

end Outline

mutual

/-- The lines below the root line, where `margin` stands in front of every branch. -/
def Tree.outlineBelow (margin : List Char) : Tree → List Char
  | .leaf _ => []
  | .node _ children => Forest.outline margin children

def Forest.outline (margin : List Char) : List Tree → List Char
  | [] => []
  | tree :: rest =>
    margin ++ Outline.branch rest.isEmpty ++ Outline.heading tree ++
      '\n' :: tree.outlineBelow (margin ++ Outline.trunk rest.isEmpty) ++
      Forest.outline margin rest

end

def Tree.outline (tree : Tree) : String :=
  String.ofList (Outline.heading tree ++ '\n' :: tree.outlineBelow [])

end TreeFigure
