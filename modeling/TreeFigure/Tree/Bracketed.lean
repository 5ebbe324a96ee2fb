import TreeFigure.Tree.Basic

/-!
The bracketed form of a tree: a leaf is its text, a node is its label and its children in
parentheses with one space before each child.
-/

namespace TreeFigure

mutual

def Tree.bracketedChars : Tree → List Char
  | .leaf text => text.toList
  | .node label children => '(' :: label.toList ++ Forest.bracketedChars children ++ [')']

/-- Every tree of a forest with a space before it. -/
def Forest.bracketedChars : List Tree → List Char
  | [] => []
  | tree :: rest => ' ' :: tree.bracketedChars ++ Forest.bracketedChars rest

end

def Tree.bracketed (tree : Tree) : String :=
  String.ofList tree.bracketedChars

end TreeFigure
