import TreeFigure.Tree.Basic

/-!
Positions in a tree. A position is the way from the root to a subtree, written as the indices
of the children taken; the root itself has the empty position. The anchors of a tree are its
first and its last leaf.
-/

namespace TreeFigure

abbrev Position := List Nat

/-- The subtree at a position, if there is one. -/
def Tree.get? (tree : Tree) : Position → Option Tree
  | [] => some tree
  | index :: rest =>
    match tree.children[index]? with
    | some child => child.get? rest
    | none => none

mutual

/-- The positions of the leaves from left to right. -/
def Tree.leafPositions : Tree → List Position
  | .leaf _ => [[]]
  | .node _ children => Forest.leafPositions 0 children

/-- The leaf positions in a forest whose first tree is child number `index`. -/
def Forest.leafPositions (index : Nat) : List Tree → List Position
  | [] => []
  | tree :: rest =>
    tree.leafPositions.map (index :: ·) ++ Forest.leafPositions (index + 1) rest

end

/-- The positions of the first and the last leaf, which are equal when there is one leaf. -/
structure Anchors where
  first : Position
  last : Position
  deriving DecidableEq, Repr

/-- There are anchors exactly when the tree has a leaf. -/
def Tree.anchors? (tree : Tree) : Option Anchors :=
  match tree.leafPositions with
  | [] => none
  | first :: rest => some ⟨first, (first :: rest).getLast (List.cons_ne_nil first rest)⟩

end TreeFigure
