import TreeFigure.Proofs.Literal.Bijection
import TreeFigure.Proofs.Tree.Height

/-!
Rewriting the texts of a tree keeps its shape. The height, the positions of the leaves and the way
to every subtree depend on the brackets alone, so what is computed from a tree with hidden literals
is what belongs to the tree in which they are shown.
-/

namespace TreeFigure

mutual

theorem Tree.height_mapText (f : String → String) :
    (tree : Tree) → (tree.mapText f).height = tree.height
  | .leaf _ => rfl
  | .node _ children => congrArg (1 + ·) (Forest.height_mapText f children)

theorem Forest.height_mapText (f : String → String) :
    (trees : List Tree) → Forest.height (Forest.mapText f trees) = Forest.height trees
  | [] => rfl
  | tree :: rest => by
    rw [Forest.mapText, Forest.height, Forest.height, Tree.height_mapText f tree,
      Forest.height_mapText f rest]

end

mutual

theorem Tree.leafPositions_mapText (f : String → String) :
    (tree : Tree) → (tree.mapText f).leafPositions = tree.leafPositions
  | .leaf _ => rfl
  | .node _ children => Forest.leafPositions_mapText f 0 children

theorem Forest.leafPositions_mapText (f : String → String) (index : Nat) :
    (trees : List Tree) →
      Forest.leafPositions index (Forest.mapText f trees) = Forest.leafPositions index trees
  | [] => rfl
  | tree :: rest => by
    rw [Forest.mapText, Forest.leafPositions, Forest.leafPositions,
      Tree.leafPositions_mapText f tree, Forest.leafPositions_mapText f (index + 1) rest]

end

namespace Tree

open LiteralTable

variable {tree : Tree}

theorem anchors?_mapText (f : String → String) (tree : Tree) :
    (tree.mapText f).anchors? = tree.anchors? := by
  rw [anchors?, anchors?, leafPositions_mapText]

theorem children_mapText (f : String → String) (tree : Tree) :
    (tree.mapText f).children = tree.children.map (mapText f) := by
  cases tree with
  | leaf text => rfl
  | node label children => exact Forest.mapText_eq_map f children

/-- The way to a subtree leads to its rewritten form. -/
theorem get?_mapText (f : String → String) (tree : Tree) (place : Position) :
    (tree.mapText f).get? place = (tree.get? place).map (mapText f) := by
  induction place generalizing tree with
  | nil => rfl
  | cons index place ih =>
    rw [get?_cons, get?_cons, children_mapText, List.getElem?_map]
    cases tree.children[index]? with
    | none => rfl
    | some child => exact ih child

/-- Hiding the literals in every text and showing them again gives back the trees without
placeholders and no others. -/
theorem reveal_hide_brackets_iff :
    (tree.mapText brackets.hide).mapText brackets.reveal = tree ↔
      ∀ text ∈ tree.texts, Unmarked text.toList := by
  rw [mapText_mapText, mapText_eq_self_iff]
  constructor
  · intro hsame text hmem
    rw [← hsame text hmem]
    exact unmarked_reveal (brackets.hide text)
  · intro hplain text hmem
    exact reveal_hide_brackets (hplain text hmem)

/-- Rewriting every label and leaf text keeps the height, the leaf positions, the anchors and the
way to each subtree, and rewrites the leaf texts in their order. Two rewritings are one, and one
changes nothing exactly if it fixes every label and every leaf text. So hiding the literals and
showing them again changes nothing exactly if no label and no leaf text has a placeholder. -/
theorem mapText_keeps_shape (tree : Tree) (f g : String → String) :
    (tree.mapText f).height = tree.height ∧
    (tree.mapText f).leafPositions = tree.leafPositions ∧
    (tree.mapText f).anchors? = tree.anchors? ∧
    (∀ place, (tree.mapText f).get? place = (tree.get? place).map (mapText f)) ∧
    (∀ place, (tree.mapText f).get? place = none ↔ tree.get? place = none) ∧
    (tree.mapText f).leaves = tree.leaves.map f ∧
    (tree.mapText f).mapText g = tree.mapText (g ∘ f) ∧
    (tree.mapText f = tree ↔
      (∀ label ∈ tree.labels, f label = label) ∧ ∀ text ∈ tree.leaves, f text = text) ∧
    ((tree.mapText brackets.hide).mapText brackets.reveal = tree ↔
      (∀ label ∈ tree.labels, Unmarked label.toList) ∧
        ∀ text ∈ tree.leaves, Unmarked text.toList) := by
  refine ⟨tree.height_mapText f, tree.leafPositions_mapText f, tree.anchors?_mapText f,
    tree.get?_mapText f, ?_, tree.leaves_mapText f, tree.mapText_mapText f g, ?_, ?_⟩
  · intro place
    rw [get?_mapText, Option.map_eq_none_iff]
  · rw [mapText_eq_self_iff, forall_mem_texts_iff]
  · rw [reveal_hide_brackets_iff, forall_mem_texts_iff]

/-- Leaves that become alike keep their places. A literal comes back from behind its placeholder,
and a placeholder that was there before does not. -/
theorem mapText_keeps_shape_placeholder :
    let tree : Tree := .node "" [.node "(_" [], .node "A" [.leaf "x", .leaf "(_"]]
    let marked : Tree := .node "" [.node "\ue000" [], .node "A" [.leaf "x", .leaf "(_"]]
    (tree.mapText fun _ => "y").leafPositions = [[1, 0], [1, 1]] ∧
      (tree.mapText fun _ => "y").leaves = ["y", "y"] ∧
      (tree.mapText fun _ => "y") ≠ tree ∧
      (tree.mapText brackets.hide).mapText brackets.reveal = tree ∧
      (marked.mapText brackets.hide).mapText brackets.reveal ≠ marked := by
  intro tree marked
  obtain ⟨-, hplaces, -, -, -, hleaves, -, hfixed, hplain⟩ :=
    mapText_keeps_shape tree (fun _ => "y") id
  obtain ⟨-, -, -, -, -, -, -, -, hmarked⟩ := mapText_keeps_shape marked id id
  refine ⟨hplaces, hleaves, ?_, hplain.mpr (by decide), ?_⟩
  · intro hsame
    exact absurd ((hfixed.mp hsame).2 "x" (by decide)) (by decide)
  · intro hsame
    exact absurd ((hmarked.mp hsame).1 "\ue000" (by decide)) (by decide)

end Tree

end TreeFigure
