import TreeFigure.Proofs.Tree.Texts
import TreeFigure.Tree.Position

/-!
Looking up subtrees. A way through a tree goes from child to child, so the subtree at the end of two
ways joined is the one at the end of the second way, in the subtree at the end of the first.
-/

namespace TreeFigure.Tree

variable {tree sub : Tree} {place : Position} {label : String} {children : Forest}

theorem get?_cons (tree : Tree) (index : Nat) (rest : Position) :
    tree.get? (index :: rest) = tree.children[index]?.bind fun child => child.get? rest := by
  rw [get?]
  cases tree.children[index]? with
  | none => rfl
  | some child => rfl

theorem get?_node_cons (label : String) (children : Forest) (index : Nat) (rest : Position) :
    (Tree.node label children).get? (index :: rest) =
      children[index]?.bind fun child => child.get? rest :=
  get?_cons (.node label children) index rest

theorem get?_leaf_cons (text : String) (index : Nat) (rest : Position) :
    (Tree.leaf text).get? (index :: rest) = none := rfl

theorem get?_append (tree : Tree) (place rest : Position) :
    tree.get? (place ++ rest) = (tree.get? place).bind fun sub => sub.get? rest := by
  induction place generalizing tree with
  | nil => rfl
  | cons index place ih =>
    cases tree with
    | leaf text => rfl
    | node label children =>
      rw [List.cons_append, get?_node_cons, get?_node_cons, Option.bind_assoc]
      exact Option.bind_congr fun child _ => ih child

theorem get?_concat_node (h : tree.get? place = some (.node label children)) (index : Nat) :
    tree.get? (place ++ [index]) = children[index]? := by
  rw [get?_append, h, Option.bind_some, get?_node_cons]
  exact Option.bind_fun_some children[index]?

/-- What stands at a place above another is a node. -/
theorem exists_node_of_get?_concat {index : Nat} (h : tree.get? (place ++ [index]) = some sub) :
    ∃ label children, tree.get? place = some (.node label children) := by
  rw [get?_append] at h
  obtain ⟨above, habove, hsub⟩ := Option.bind_eq_some_iff.mp h
  cases above with
  | leaf text => cases hsub
  | node label children => exact ⟨label, children, habove⟩

theorem mem_texts_of_get? (h : tree.get? place = some sub) {text : String}
    (htext : text ∈ sub.texts) : text ∈ tree.texts := by
  induction place generalizing tree with
  | nil =>
    obtain rfl := Option.some.inj h
    exact htext
  | cons index place ih =>
    cases tree with
    | leaf => cases h
    | node label children =>
      rw [get?_node_cons] at h
      obtain ⟨child, hchild, hsub⟩ := Option.bind_eq_some_iff.mp h
      exact mem_texts_of_mem_children (List.mem_of_getElem? hchild) (ih hsub)

end TreeFigure.Tree
