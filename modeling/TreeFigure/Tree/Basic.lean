/-!
Ordered trees with a text at every place. An inner place is a node with a label, an end is a
leaf. A node may have no children; it is then an end of the tree but not a leaf.
-/

namespace TreeFigure

inductive Tree where
  | leaf (text : String)
  | node (label : String) (children : List Tree)
  deriving Inhabited, Repr

/-- Trees side by side, such as the children of a node. -/
abbrev Forest := List Tree

namespace Tree

/-- To show a property of all trees, show it of a node from its children. -/
@[elab_as_elim, induction_eliminator]
theorem induction {motive : Tree → Prop} (leaf : ∀ text, motive (.leaf text))
    (node : ∀ label children, (∀ child ∈ children, motive child) →
      motive (.node label children)) (tree : Tree) : motive tree :=
  Tree.rec (motive_1 := motive)
    (motive_2 := fun children => ∀ child ∈ children, motive child)
    leaf (fun label children ih => node label children ih)
    (fun child member => by simp at member)
    (fun head tail hhead htail child member => by
      rcases List.mem_cons.mp member with rfl | hin
      · exact hhead
      · exact htail child hin)
    tree

mutual

def decideEq : (a b : Tree) → Decidable (a = b)
  | .leaf s, .leaf t =>
    if h : s = t then isTrue (by rw [h]) else isFalse (fun heq => h (Tree.leaf.inj heq))
  | .leaf _, .node _ _ => isFalse (fun heq => by cases heq)
  | .node _ _, .leaf _ => isFalse (fun heq => by cases heq)
  | .node s xs, .node t ys =>
    if h : s = t then
      match decideEqAll xs ys with
      | isTrue hall => isTrue (by rw [h, hall])
      | isFalse hall => isFalse (fun heq => hall (Tree.node.inj heq).2)
    else isFalse (fun heq => h (Tree.node.inj heq).1)

def decideEqAll : (xs ys : List Tree) → Decidable (xs = ys)
  | [], [] => isTrue rfl
  | [], _ :: _ => isFalse (fun heq => by cases heq)
  | _ :: _, [] => isFalse (fun heq => by cases heq)
  | x :: xs, y :: ys =>
    match decideEq x y with
    | isTrue h =>
      match decideEqAll xs ys with
      | isTrue hall => isTrue (by rw [h, hall])
      | isFalse hall => isFalse (fun heq => hall (List.cons.inj heq).2)
    | isFalse h => isFalse (fun heq => h (List.cons.inj heq).1)

end

instance : DecidableEq Tree := decideEq

/-- The text at the root. -/
def text : Tree → String
  | .leaf text => text
  | .node label _ => label

def children : Tree → Forest
  | .leaf _ => []
  | .node _ children => children

end Tree

mutual

/-- Number of levels: a leaf and a node without children have one. -/
def Tree.height : Tree → Nat
  | .leaf _ => 1
  | .node _ children => 1 + Forest.height children

/-- The greatest height of a tree in a forest. -/
def Forest.height : List Tree → Nat
  | [] => 0
  | tree :: rest => max tree.height (Forest.height rest)

end

mutual

/-- The leaf texts from left to right. -/
def Tree.leaves : Tree → List String
  | .leaf text => [text]
  | .node _ children => Forest.leaves children

def Forest.leaves : List Tree → List String
  | [] => []
  | tree :: rest => tree.leaves ++ Forest.leaves rest

end

mutual

/-- The tree with `f` applied to every label and leaf text. -/
def Tree.mapText (f : String → String) : Tree → Tree
  | .leaf text => .leaf (f text)
  | .node label children => .node (f label) (Forest.mapText f children)

def Forest.mapText (f : String → String) : List Tree → List Tree
  | [] => []
  | tree :: rest => tree.mapText f :: Forest.mapText f rest

end

theorem Forest.mapText_eq_map (f : String → String) (forest : Forest) :
    Forest.mapText f forest = forest.map (Tree.mapText f) := by
  induction forest with
  | nil => rfl
  | cons tree rest ih => rw [Forest.mapText, ih, List.map_cons]

theorem Forest.leaves_eq_flatMap (forest : Forest) :
    Forest.leaves forest = forest.flatMap Tree.leaves := by
  induction forest with
  | nil => rfl
  | cons tree rest ih => rw [Forest.leaves, ih, List.flatMap_cons]

theorem Forest.height_le_iff (forest : Forest) (bound : Nat) :
    Forest.height forest ≤ bound ↔ ∀ tree ∈ forest, tree.height ≤ bound := by
  induction forest with
  | nil => simp [Forest.height]
  | cons tree rest ih =>
    simp only [Forest.height, Nat.max_le, List.forall_mem_cons, ih]

end TreeFigure
