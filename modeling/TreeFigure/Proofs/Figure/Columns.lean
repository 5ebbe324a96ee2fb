import TreeFigure.Proofs.Figure.Breaking
import TreeFigure.Proofs.Figure.Drawn

/-!
The columns of a diagram as numbers. One level down a tree is shorter by two characters at least,
and its column is two further in. So no sum of a layout is greater than the first one, of the length
of the tree and its column, and if this one fits into a word, then no column wraps around.
-/

namespace TreeFigure

open Diagram

theorem Diagram.columnAt_succ (start depth : Nat) :
    columnAt start (depth + 1) = (columnAt start depth + 2) % Text.wordBound := by
  induction depth generalizing start with
  | zero => rfl
  | succ depth ih => exact ih ((start + 2) % Text.wordBound)

theorem Diagram.columnAt_eq {start depth : Nat} (h : start + 2 * depth < Text.wordBound) :
    columnAt start depth = start + 2 * depth := by
  induction depth with
  | zero => rfl
  | succ depth ih =>
    have habove := ih (by omega)
    rw [columnAt_succ, habove, Nat.mod_eq_of_lt (by omega)]
    omega

section Lengths

variable {names : Naming} {label : String} {children : Forest}

theorem Forest.flat_eq_mapIdx (names : Naming) (index : Nat) (trees : Forest) :
    Forest.flat names index trees =
      trees.mapIdx fun number tree => tree.flat (names.below (index + number)) := by
  induction trees generalizing index with
  | nil => rfl
  | cons tree rest ih =>
    rw [Forest.flat, ih, List.mapIdx_cons]
    simp only [Nat.add_zero, Nat.add_assoc, Nat.add_comm 1]

theorem Forest.flat_mem {index : Nat} {child : Tree} (h : children[index]? = some child) :
    child.flat (names.below index) ∈ Forest.flat names 0 children := by
  obtain ⟨hindex, rfl⟩ := List.getElem?_eq_some_iff.mp h
  rw [Forest.flat_eq_mapIdx]
  exact List.mem_mapIdx.mpr ⟨index, hindex, by rw [Nat.zero_add]⟩

theorem Tree.two_le_length_flat : 2 ≤ ((Tree.node label children).flat names).length := by
  have hcloser : closer.length = 2 := by decide
  rw [flat, List.length_append, hcloser]
  exact Nat.le_add_left 2 _

/-- A node is longer than each of its children by the brackets at least. -/
theorem Tree.length_add_two_le_flat {item : List Char} (h : item ∈ Forest.flat names 0 children) :
    item.length + 2 ≤ ((Tree.node label children).flat names).length := by
  have hitem := (isInfix_items h).length_le
  have hcloser : closer.length = 2 := by decide
  rw [flat, List.length_append, List.length_append, hcloser]
  omega

theorem Tree.length_flat_le {tree sub : Tree} {place : Position} (h : tree.get? place = some sub)
    (names : Naming) :
    (sub.flat (names.under place)).length + 2 * place.length ≤ (tree.flat names).length := by
  induction place generalizing tree names with
  | nil =>
    obtain rfl := Option.some.inj h
    exact Nat.le_refl _
  | cons index rest ih =>
    cases tree with
    | leaf text => cases h
    | node label children =>
      rw [get?_node_cons] at h
      obtain ⟨child, hchild, hsub⟩ := Option.bind_eq_some_iff.mp h
      have hstep : (child.flat (names.below index)).length + 2 ≤
          ((Tree.node label children).flat names).length :=
        length_add_two_le_flat (Forest.flat_mem hchild)
      have hinside : (sub.flat (names.under (index :: rest))).length + 2 * rest.length ≤
          (child.flat (names.below index)).length := ih hsub (names.below index)
      rw [List.length_cons]
      omega

end Lengths

section Room

variable {margin column : Nat} {names : Naming} {tree sub : Tree} {place : Position}

theorem Tree.columnAt_eq_of_get? (hroom : (tree.flat names).length + column < Text.wordBound)
    (h : tree.get? place = some sub) :
    columnAt column place.length = column + 2 * place.length := by
  have hle := length_flat_le h names
  exact columnAt_eq (by omega)

/-- If the first sum fits into a word, a node fits on one line if its exact sum is small enough. -/
theorem Tree.fitsAt_iff_of_lt (hroom : (tree.flat names).length + column < Text.wordBound) :
    tree.FitsAt margin column names place ↔
      ∃ label children, tree.get? place = some (.node label children) ∧
        ((Tree.node label children).flat (names.under place)).length +
          (column + 2 * place.length) < margin := by
  have hexact (label : String) (children : Forest)
      (h : tree.get? place = some (.node label children)) :
      (((Tree.node label children).flat (names.under place)).length +
          columnAt column place.length) % Text.wordBound =
        ((Tree.node label children).flat (names.under place)).length +
          (column + 2 * place.length) := by
    have hle := length_flat_le h names
    rw [columnAt_eq_of_get? hroom h, Nat.mod_eq_of_lt (by omega)]
  constructor
  · rintro ⟨label, children, hget, hfits⟩
    exact ⟨label, children, hget, hexact label children hget ▸ hfits⟩
  · rintro ⟨label, children, hget, hfits⟩
    exact ⟨label, children, hget, (hexact label children hget).symm ▸ hfits⟩

end Room

end TreeFigure
