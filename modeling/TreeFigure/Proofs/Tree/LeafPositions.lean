import Mathlib.Data.List.Nodup
import TreeFigure.Proofs.Tree.Preorder

/-!
The positions of the leaves. They are the places at which looking up finds a leaf, in reading order,
so they are pairwise different, none leads through another, and the texts found there are the leaf
texts of the tree. The anchors are the least and the greatest of them.
-/

namespace TreeFigure

def Tree.isLeaf : Tree → Bool
  | .leaf _ => true
  | .node _ _ => false

mutual

/-- The leaf positions are the places of the leaves. -/
theorem Tree.leafPositions_eq_placesWhere :
    (tree : Tree) → tree.leafPositions = tree.placesWhere Tree.isLeaf
  | .leaf _ => rfl
  | .node _ children => Forest.leafPositions_eq_placesWhere 0 children

theorem Forest.leafPositions_eq_placesWhere (index : Nat) :
    (trees : List Tree) →
      Forest.leafPositions index trees = Forest.placesWhere Tree.isLeaf index trees
  | [] => rfl
  | tree :: rest => by
    rw [Forest.leafPositions, Forest.placesWhere, Tree.leafPositions_eq_placesWhere tree,
      Forest.leafPositions_eq_placesWhere (index + 1) rest]

end

namespace Tree

variable {tree : Tree} {place other : Position} {anchors : Anchors}

theorem mem_leafPositions_iff :
    place ∈ tree.leafPositions ↔ ∃ text, tree.get? place = some (.leaf text) := by
  rw [leafPositions_eq_placesWhere, mem_placesWhere_iff]
  constructor
  · rintro ⟨sub, hsub, hleaf⟩
    cases sub with
    | leaf text => exact ⟨text, hsub⟩
    | node label children => cases hleaf
  · rintro ⟨text, hsub⟩
    exact ⟨.leaf text, hsub, rfl⟩

theorem pairwise_leafPositions (tree : Tree) : tree.leafPositions.Pairwise (· < ·) := by
  rw [leafPositions_eq_placesWhere]
  exact tree.pairwise_placesWhere isLeaf

/-- No two leaves have the same position, whatever their texts are. -/
theorem nodup_leafPositions (tree : Tree) : tree.leafPositions.Nodup := by
  refine tree.pairwise_leafPositions.imp fun hlt heq => ?_
  rw [heq] at hlt
  exact List.lt_irrefl _ hlt

/-- Inside a leaf there is no other leaf. -/
theorem eq_of_prefix_of_mem_leafPositions (h : place ∈ tree.leafPositions)
    (hother : other ∈ tree.leafPositions) (hstart : place <+: other) : place = other := by
  obtain ⟨text, hleaf⟩ := mem_leafPositions_iff.mp h
  obtain ⟨word, hword⟩ := mem_leafPositions_iff.mp hother
  obtain ⟨rest, rfl⟩ := hstart
  rw [get?_append, hleaf, Option.bind_some] at hword
  cases rest with
  | nil => exact (List.append_nil place).symm
  | cons index rest => cases hword

/-- Looking up the leaf positions one after the other gives the leaf texts. -/
theorem map_text_leafPositions (tree : Tree) :
    tree.leafPositions.map (fun place => (tree.get? place).map Tree.text) =
      tree.leaves.map some := by
  induction tree with
  | leaf text => rfl
  | node label children ih =>
    have hchild : ∀ child ∈ children.zipIdx,
        ((child.1.placesWhere isLeaf).map (child.2 :: ·)).map
            (fun place => ((node label children).get? place).map Tree.text) =
          child.1.leaves.map some := by
      rintro ⟨child, index⟩ hmem
      have hindex := List.mem_zipIdx_iff_getElem?.mp hmem
      rw [← ih child (List.mem_of_getElem? hindex), leafPositions_eq_placesWhere, List.map_map]
      refine List.map_congr_left fun place _ => ?_
      simp only [Function.comp_apply, get?_node_cons, hindex, Option.bind_some]
    rw [leafPositions, Forest.leafPositions_eq_placesWhere, Forest.placesWhere_eq_flatMap,
      List.map_flatMap, List.flatMap_congr hchild, leaves, Forest.leaves_eq_flatMap,
      List.map_flatMap]
    conv_rhs => rw [← List.zipIdx_map_fst 0 children, List.flatMap_map]

theorem length_leafPositions (tree : Tree) : tree.leafPositions.length = tree.leaves.length := by
  have hlength := congrArg List.length tree.map_text_leafPositions
  rwa [List.length_map, List.length_map] at hlength

theorem anchors?_eq_none_iff : tree.anchors? = none ↔ tree.leaves = [] := by
  rw [← List.length_eq_zero_iff, ← tree.length_leafPositions, List.length_eq_zero_iff, anchors?]
  cases tree.leafPositions with
  | nil => simp
  | cons first rest => simp

theorem eq_getElem_of_anchors? (h : tree.anchors? = some anchors) :
    ∃ hpos : 0 < tree.leafPositions.length,
      anchors.first = tree.leafPositions[0] ∧
      anchors.last = tree.leafPositions[tree.leafPositions.length - 1] := by
  unfold anchors? at h
  split at h
  case h_1 => cases h
  case h_2 first rest hpositions =>
    obtain rfl := Option.some.inj h
    simp only [hpositions]
    exact ⟨Nat.succ_pos _, rfl, List.getLast_eq_getElem _⟩

theorem first_eq_last_iff (h : tree.anchors? = some anchors) :
    anchors.first = anchors.last ↔ tree.leaves.length = 1 := by
  obtain ⟨hpos, hfirst, hlast⟩ := eq_getElem_of_anchors? h
  rw [hfirst, hlast, tree.nodup_leafPositions.getElem_inj_iff, ← tree.length_leafPositions]
  omega

/-- The first anchor comes before every other leaf. -/
theorem first_lt_of_mem_leafPositions (h : tree.anchors? = some anchors)
    (hplace : place ∈ tree.leafPositions) (hne : place ≠ anchors.first) :
    anchors.first < place := by
  obtain ⟨hpos, hfirst, -⟩ := eq_getElem_of_anchors? h
  obtain ⟨number, hnumber, rfl⟩ := List.getElem_of_mem hplace
  rw [hfirst] at hne ⊢
  refine List.pairwise_iff_getElem.mp tree.pairwise_leafPositions 0 number hpos hnumber ?_
  refine Nat.pos_of_ne_zero fun hzero => hne ?_
  simp only [hzero]

/-- The last anchor comes after every other leaf. -/
theorem lt_last_of_mem_leafPositions (h : tree.anchors? = some anchors)
    (hplace : place ∈ tree.leafPositions) (hne : place ≠ anchors.last) :
    place < anchors.last := by
  obtain ⟨hpos, -, hlast⟩ := eq_getElem_of_anchors? h
  obtain ⟨number, hnumber, rfl⟩ := List.getElem_of_mem hplace
  rw [hlast] at hne ⊢
  refine List.pairwise_iff_getElem.mp tree.pairwise_leafPositions number _ hnumber (by omega) ?_
  refine Nat.lt_of_le_of_ne (by omega) fun hend => hne ?_
  simp only [hend]

/-- The leaf positions are where leaves are found, each once and in reading order, and in this order
the texts found there are the leaf texts. There are anchors if there is a leaf; they are the least
and the greatest leaf position, and equal if there is one leaf. -/
theorem leafPositions_find_leaves (tree : Tree) :
    tree.leafPositions.Pairwise (· < ·) ∧
    (∀ place ∈ tree.leafPositions, ∀ other ∈ tree.leafPositions,
      place <+: other → place = other) ∧
    (∀ place, place ∈ tree.leafPositions ↔ ∃ text, tree.get? place = some (.leaf text)) ∧
    tree.leafPositions.map (fun place => (tree.get? place).map Tree.text) =
      tree.leaves.map some ∧
    (tree.anchors? = none ↔ tree.leaves = []) ∧
    ∀ anchors, tree.anchors? = some anchors →
      anchors.first ∈ tree.leafPositions ∧ anchors.last ∈ tree.leafPositions ∧
      (∀ place ∈ tree.leafPositions, place ≠ anchors.first → anchors.first < place) ∧
      (∀ place ∈ tree.leafPositions, place ≠ anchors.last → place < anchors.last) ∧
      (anchors.first = anchors.last ↔ tree.leaves.length = 1) := by
  refine ⟨tree.pairwise_leafPositions, ?_, fun place => mem_leafPositions_iff,
    tree.map_text_leafPositions, anchors?_eq_none_iff, ?_⟩
  · intro place hplace other hother
    exact eq_of_prefix_of_mem_leafPositions hplace hother
  · intro anchors h
    obtain ⟨hpos, hfirst, hlast⟩ := eq_getElem_of_anchors? h
    refine ⟨hfirst ▸ List.getElem_mem _, hlast ▸ List.getElem_mem _, ?_, ?_, first_eq_last_iff h⟩
    · exact fun place hplace => first_lt_of_mem_leafPositions h hplace
    · exact fun place hplace => lt_last_of_mem_leafPositions h hplace

/-- Nodes without children stand before, between and behind the leaves. -/
theorem leafPositions_find_leaves_childless :
    let tree : Tree := .node "S" [.node "" [], .node "A" [.leaf "x", .node "B" []], .leaf "x",
      .node "C" []]
    tree.leafPositions = [[1, 0], [2]] ∧ tree.anchors? = some ⟨[1, 0], [2]⟩ ∧
      [1, 0] ∈ tree.leafPositions ∧ ([1, 0] : Position) < [2] ∧ [0] ∉ tree.leafPositions ∧
      tree.leafPositions.map (fun place => (tree.get? place).map Tree.text) =
        ["x", "x"].map some ∧
      (Tree.node "" []).anchors? = none := by
  intro tree
  have hanchors : tree.anchors? = some ⟨[1, 0], [2]⟩ := by decide
  obtain ⟨-, -, hfound, htexts, -, hends⟩ := leafPositions_find_leaves tree
  obtain ⟨hfirst, hlast, hleast, -, -⟩ := hends _ hanchors
  obtain ⟨-, -, -, -, hnone, -⟩ := leafPositions_find_leaves (.node "" [])
  refine ⟨rfl, hanchors, hfirst, hleast [2] hlast (by decide), ?_, htexts, hnone.mpr rfl⟩
  rw [hfound]
  rintro ⟨text, hleaf⟩
  cases hleaf

end Tree

end TreeFigure
