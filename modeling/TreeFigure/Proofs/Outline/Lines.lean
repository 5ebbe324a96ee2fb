import TreeFigure.Tree.Outline
import TreeFigure.Proofs.Text.Joining
import TreeFigure.Proofs.Tree.Preorder

/-!
The lines of an outline. Every subtree has one line, in reading order. In front of what the line
shows stands a group of four characters for each level: a branch for the subtree itself and a trunk
for each of its ancestors below the root, and each tells whether there is a next child on its level.
-/

namespace TreeFigure

namespace Tree

/-- The subtree at this place is the last child of its parent. -/
def isLastChild (tree : Tree) (place : Position) : Bool :=
  (tree.get? place.dropLast).any fun parent =>
    place.getLast? == some (parent.children.length - 1)

/-- What stands for a level of this place, counted from the level below the root. -/
def outlineGroup (tree : Tree) (place : Position) (level : Nat) : List Char :=
  if level + 1 = place.length then
    (if tree.isLastChild place then "└── " else "├── ").toList
  else
    (if tree.isLastChild (place.take (level + 1)) then "    " else "│   ").toList

/-- The line of the subtree at this place. -/
def outlineLine (tree : Tree) (place : Position) : List Char :=
  (List.range place.length).flatMap (tree.outlineGroup place) ++
    ((tree.get? place).map Outline.heading).getD []

end Tree

namespace Outline

theorem branch_eq (isLast : Bool) : branch isLast = (if isLast then "└── " else "├── ").toList := by
  cases isLast <;> rfl

theorem trunk_eq (isLast : Bool) : trunk isLast = (if isLast then "    " else "│   ").toList := by
  cases isLast <;> rfl

end Outline

open Outline

namespace Tree

variable {tree child : Tree} {index : Nat} {rest : Position}

theorem isLastChild_singleton (h : tree.children[index]? = some child) :
    tree.isLastChild [index] = (index + 1 == tree.children.length) := by
  have hlt : index < tree.children.length := (List.getElem?_eq_some_iff.mp h).1
  have hroot : tree.get? [] = some tree := rfl
  rw [isLastChild, List.dropLast_singleton, hroot, Option.any_some, List.getLast?_singleton,
    Bool.eq_iff_iff, beq_iff_eq, beq_iff_eq, Option.some.injEq]
  omega

theorem isLastChild_cons (h : tree.children[index]? = some child) (hne : rest ≠ []) :
    tree.isLastChild (index :: rest) = child.isLastChild rest := by
  obtain ⟨next, more, rfl⟩ := List.exists_cons_of_ne_nil hne
  rw [isLastChild, List.dropLast_cons_cons, get?_cons, h, Option.bind_some,
    List.getLast?_cons_cons]
  rfl

theorem outlineLine_nil (tree : Tree) : tree.outlineLine [] = heading tree := rfl

theorem outlineLine_singleton (h : tree.children[index]? = some child) :
    tree.outlineLine [index] = branch (index + 1 == tree.children.length) ++ heading child := by
  have hsub : tree.get? [index] = some child := by
    rw [get?_cons, h]
    rfl
  have hgroup : tree.outlineGroup [index] 0 = branch (index + 1 == tree.children.length) := by
    have hlevel : 0 + 1 = [index].length := rfl
    rw [outlineGroup, if_pos hlevel, isLastChild_singleton h, branch_eq]
  rw [outlineLine, hsub, List.length_singleton, List.range_one, List.flatMap_singleton, hgroup]
  rfl

/-- Below a child a line is the line of the child's own outline behind one more trunk. -/
theorem outlineLine_cons (h : tree.children[index]? = some child) (hne : rest ≠ []) :
    tree.outlineLine (index :: rest) =
      trunk (index + 1 == tree.children.length) ++ child.outlineLine rest := by
  have hpos : 0 < rest.length := List.length_pos_iff.mpr hne
  have hsub : tree.get? (index :: rest) = child.get? rest := by
    rw [get?_cons, h]
    rfl
  have hfirst : tree.outlineGroup (index :: rest) 0 =
      trunk (index + 1 == tree.children.length) := by
    have hlevel : ¬ 0 + 1 = (index :: rest).length := by
      rw [List.length_cons]
      omega
    rw [outlineGroup, if_neg hlevel, trunk_eq, ← isLastChild_singleton h]
    rfl
  have hlater : ∀ level, tree.outlineGroup (index :: rest) (level + 1) =
      child.outlineGroup rest level := by
    intro level
    have htake : rest.take (level + 1) ≠ [] := by
      rw [← List.length_pos_iff, List.length_take]
      omega
    have hlevel : level + 1 + 1 = (index :: rest).length ↔ level + 1 = rest.length := by
      rw [List.length_cons]
      omega
    simp only [outlineGroup, hlevel, List.take_succ_cons, isLastChild_cons h hne,
      isLastChild_cons h htake]
  rw [outlineLine, outlineLine, hsub, List.length_cons, List.range_succ_eq_map, List.flatMap_cons,
    hfirst, List.flatMap_map, List.flatMap_congr fun level _ => hlater level, List.append_assoc]

end Tree

theorem Forest.outline_eq_flatMap (margin : List Char) (index : Nat) (trees : Forest) :
    Forest.outline margin trees =
      (trees.zipIdx index).flatMap fun child =>
        margin ++ branch (child.2 + 1 == index + trees.length) ++ heading child.1 ++
          '\n' :: child.1.outlineBelow (margin ++ trunk (child.2 + 1 == index + trees.length)) := by
  induction trees generalizing index with
  | nil => rfl
  | cons tree rest ih =>
    have hlast : rest.isEmpty = (index + 1 == index + (tree :: rest).length) := by
      rw [Bool.eq_iff_iff, List.isEmpty_iff, beq_iff_eq, List.length_cons,
        ← List.length_eq_zero_iff]
      omega
    have hlength : index + 1 + rest.length = index + (tree :: rest).length := by
      rw [List.length_cons]
      omega
    rw [Forest.outline, ih (index + 1), List.zipIdx_cons, List.flatMap_cons, hlast, hlength]

/-- Below its root line an outline has a line for each subtree below the root. -/
theorem Tree.outlineBelow_eq_flatMap (tree : Tree) (margin : List Char) :
    tree.outlineBelow margin =
      (Forest.placesWhere (fun _ => true) 0 tree.children).flatMap fun place =>
        margin ++ tree.outlineLine place ++ ['\n'] := by
  induction tree generalizing margin with
  | leaf text => rfl
  | node label children ih =>
    rw [outlineBelow, Forest.outline_eq_flatMap margin 0, Forest.placesWhere_eq_flatMap,
      Tree.children, List.flatMap_assoc]
    refine List.flatMap_congr ?_
    rintro ⟨child, index⟩ hmem
    have hchild : (node label children).children[index]? = some child :=
      List.mem_zipIdx_iff_getElem?.mp hmem
    have hbelow : ∀ place ∈ Forest.placesWhere (fun _ => true) 0 child.children,
        margin ++ (node label children).outlineLine (index :: place) ++ ['\n'] =
          margin ++ trunk (index + 1 == children.length) ++ child.outlineLine place ++ ['\n'] := by
      intro place hplace
      obtain ⟨_, _, _, rfl, -, -⟩ := Forest.mem_placesWhere_iff.mp hplace
      rw [outlineLine_cons hchild (List.cons_ne_nil _ _), ← List.append_assoc]
      rfl
    rw [placesWhere_eq, if_pos rfl, List.map_cons, List.flatMap_cons, List.flatMap_map,
      List.flatMap_congr hbelow, ← ih child (List.mem_of_getElem? hchild),
      outlineLine_singleton hchild, Nat.zero_add]
    simp [Tree.children]

/-- An outline has a line for each subtree, in reading order. -/
theorem Tree.toList_outline (tree : Tree) :
    tree.outline.toList = tree.places.flatMap fun place => tree.outlineLine place ++ ['\n'] := by
  rw [outline, String.toList_ofList, outlineBelow_eq_flatMap, places, placesWhere_eq, if_pos rfl,
    List.flatMap_cons, outlineLine_nil, List.append_assoc]
  rfl

section Shown

variable {tree sub : Tree} {place : Position}

theorem Outline.lineEnd_notMem_heading (h : ∀ text ∈ tree.texts, '\n' ∉ text.toList) :
    '\n' ∉ heading tree := by
  cases tree with
  | leaf text => exact h text List.mem_cons_self
  | node label children =>
    rw [heading]
    split
    case isTrue => decide
    case isFalse => exact h label List.mem_cons_self

theorem Tree.length_outlineGroup (tree : Tree) (place : Position) (level : Nat) :
    (tree.outlineGroup place level).length = 4 := by
  unfold outlineGroup
  split <;> split <;> rfl

theorem Tree.lineEnd_notMem_outlineLine (h : ∀ text ∈ tree.texts, '\n' ∉ text.toList)
    (place : Position) : '\n' ∉ tree.outlineLine place := by
  have hgroups : '\n' ∉ (List.range place.length).flatMap (tree.outlineGroup place) := by
    intro hmem
    obtain ⟨level, -, hlevel⟩ := List.mem_flatMap.mp hmem
    unfold outlineGroup at hlevel
    revert hlevel
    split <;> split <;> decide
  rw [outlineLine, List.mem_append, not_or]
  refine ⟨hgroups, ?_⟩
  cases hsub : tree.get? place with
  | none => exact List.not_mem_nil
  | some sub => exact lineEnd_notMem_heading fun text hmem => h text (mem_texts_of_get? hsub hmem)

end Shown

end TreeFigure
