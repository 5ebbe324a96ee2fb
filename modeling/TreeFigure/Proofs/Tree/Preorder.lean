import Mathlib.Data.List.Basic
import TreeFigure.Proofs.Tree.Places

/-!
The places of a tree in reading order: each before the places inside it, and those inside a child
before those inside the next one. In the order of the dictionary they increase, and the places of
the subtrees with any property are found among them.
-/

namespace TreeFigure

mutual

/-- The places of the chosen subtrees in reading order. -/
def Tree.placesWhere (chosen : Tree → Bool) : Tree → List Position
  | .leaf text => if chosen (.leaf text) then [[]] else []
  | .node label children =>
    if chosen (.node label children) then [] :: Forest.placesWhere chosen 0 children
    else Forest.placesWhere chosen 0 children

/-- The places of the chosen subtrees in a forest whose first tree is child number `index`. -/
def Forest.placesWhere (chosen : Tree → Bool) (index : Nat) : List Tree → List Position
  | [] => []
  | tree :: rest =>
    (tree.placesWhere chosen).map (index :: ·) ++ Forest.placesWhere chosen (index + 1) rest

end

/-- The places of all subtrees. -/
def Tree.places (tree : Tree) : List Position :=
  tree.placesWhere fun _ => true

section Places

variable {chosen : Tree → Bool} {tree : Tree} {trees : Forest} {place : Position}

theorem Tree.placesWhere_eq (chosen : Tree → Bool) (tree : Tree) :
    tree.placesWhere chosen =
      if chosen tree then [] :: Forest.placesWhere chosen 0 tree.children
      else Forest.placesWhere chosen 0 tree.children := by
  cases tree with
  | leaf text => rfl
  | node label children => rfl

theorem Forest.placesWhere_eq_flatMap (chosen : Tree → Bool) (index : Nat) (trees : Forest) :
    Forest.placesWhere chosen index trees =
      (trees.zipIdx index).flatMap fun child =>
        (child.1.placesWhere chosen).map (child.2 :: ·) := by
  induction trees generalizing index with
  | nil => rfl
  | cons tree rest ih => rw [Forest.placesWhere, ih, List.zipIdx_cons, List.flatMap_cons]

theorem Forest.mem_placesWhere_iff :
    place ∈ Forest.placesWhere chosen 0 trees ↔
      ∃ index rest child, place = index :: rest ∧ trees[index]? = some child ∧
        rest ∈ child.placesWhere chosen := by
  simp only [Forest.placesWhere_eq_flatMap, List.mem_flatMap, List.mem_map, Prod.exists,
    List.mem_zipIdx_iff_getElem?]
  constructor
  · rintro ⟨child, index, hchild, rest, hrest, rfl⟩
    exact ⟨index, rest, child, rfl, hchild, hrest⟩
  · rintro ⟨index, rest, child, rfl, hchild, hrest⟩
    exact ⟨child, index, hchild, rest, hrest, rfl⟩

/-- A place is listed exactly if a chosen subtree stands there. -/
theorem Tree.mem_placesWhere_iff :
    place ∈ tree.placesWhere chosen ↔ ∃ sub, tree.get? place = some sub ∧ chosen sub = true := by
  induction place generalizing tree with
  | nil =>
    have hbelow : [] ∉ Forest.placesWhere chosen 0 tree.children := by
      rw [Forest.mem_placesWhere_iff]
      rintro ⟨_, _, _, hcons, -⟩
      cases hcons
    have hroot : tree.get? [] = some tree := rfl
    rw [placesWhere_eq, hroot]
    split <;> simp_all
  | cons index rest ih =>
    have hbelow : index :: rest ∈ tree.placesWhere chosen ↔
        index :: rest ∈ Forest.placesWhere chosen 0 tree.children := by
      rw [placesWhere_eq]
      split <;> simp
    rw [hbelow, Forest.mem_placesWhere_iff, get?_cons]
    simp only [Option.bind_eq_some_iff]
    constructor
    · rintro ⟨_, _, child, heq, hchild, hrest⟩
      obtain ⟨rfl, rfl⟩ := List.cons.inj heq
      obtain ⟨sub, hsub, hchosen⟩ := ih.mp hrest
      exact ⟨sub, ⟨child, hchild, hsub⟩, hchosen⟩
    · rintro ⟨sub, ⟨child, hchild, hsub⟩, hchosen⟩
      exact ⟨index, rest, child, rfl, hchild, ih.mpr ⟨sub, hsub, hchosen⟩⟩

theorem Tree.mem_places_iff : place ∈ tree.places ↔ (tree.get? place).isSome := by
  simp [places, mem_placesWhere_iff, Option.isSome_iff_exists]

/-- If the places in each child increase, so do those in all children. -/
theorem Forest.pairwise_placesWhere
    (h : ∀ tree ∈ trees, (tree.placesWhere chosen).Pairwise (· < ·)) :
    (Forest.placesWhere chosen 0 trees).Pairwise (· < ·) := by
  have hindices : (trees.zipIdx.map Prod.snd).Pairwise (· < ·) := by
    rw [List.zipIdx_map_snd]
    exact List.pairwise_lt_range'
  rw [Forest.placesWhere_eq_flatMap, List.pairwise_flatMap]
  refine ⟨?_, ?_⟩
  · rintro ⟨child, index⟩ hmem
    have hchild := List.mem_of_getElem? (List.mem_zipIdx_iff_getElem?.mp hmem)
    rw [List.pairwise_map]
    exact (h child hchild).imp fun hlt => List.cons_lt_cons_iff.mpr (.inr ⟨rfl, hlt⟩)
  · rw [List.pairwise_map] at hindices
    refine hindices.imp fun hlt first hfirst second hsecond => ?_
    obtain ⟨inside, -, rfl⟩ := List.mem_map.mp hfirst
    obtain ⟨other, -, rfl⟩ := List.mem_map.mp hsecond
    exact List.cons_lt_cons_iff.mpr (.inl hlt)

/-- Places in reading order increase in the order of the dictionary. -/
theorem Tree.pairwise_placesWhere (chosen : Tree → Bool) (tree : Tree) :
    (tree.placesWhere chosen).Pairwise (· < ·) := by
  induction tree with
  | leaf text =>
    rw [placesWhere]
    split
    case isTrue => exact List.pairwise_singleton _ _
    case isFalse => exact List.Pairwise.nil
  | node label children ih =>
    have hbelow := Forest.pairwise_placesWhere ih
    rw [placesWhere]
    split
    case isTrue =>
      refine List.pairwise_cons.mpr ⟨?_, hbelow⟩
      intro place hplace
      obtain ⟨index, rest, _, rfl, -, -⟩ := Forest.mem_placesWhere_iff.mp hplace
      exact List.nil_lt_cons index rest
    case isFalse => exact hbelow

end Places

end TreeFigure
