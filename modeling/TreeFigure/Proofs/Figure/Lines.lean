import Mathlib.Data.List.Basic
import TreeFigure.Diagram

/-!
The lines of a diagram. A tree is laid out on one line after the other, each of which shows one
subtree at its column: the header of a node whose children follow on lines of their own, or the
whole subtree. At the end of a line stand the closing brackets of the nodes that end with it.
-/

namespace TreeFigure

/-- The names inside the subtree at this position. -/
def Naming.under (names : Naming) (place : Position) : Naming :=
  fun position => names (place ++ position)

theorem Naming.under_under (names : Naming) (place inner : Position) :
    (names.under place).under inner = names.under (place ++ inner) :=
  funext fun position => congrArg names (List.append_assoc place inner position).symm

namespace Diagram

/-- The column of a subtree at this depth: each level of the tree is two columns further in. -/
def columnAt (start : Nat) : Nat → Nat
  | 0 => start
  | depth + 1 => columnAt ((start + 2) % Text.wordBound) depth

/-- What a line shows: the subtree at a place. If it is broken, only its header, since its children
follow on lines of their own. -/
structure Line where
  place : Position
  tree : Tree
  broken : Bool
  /-- Number of closing brackets at the end of the line. -/
  closers : Nat

namespace Line

variable (names : Naming) (start : Nat)

/-- The line in a larger tree, in which its tree is the child with this number. -/
def below (index : Nat) (line : Line) : Line :=
  { line with place := index :: line.place }

/-- The line with one more closing bracket. -/
def close (line : Line) : Line :=
  { line with closers := line.closers + 1 }

def item (line : Line) : List Char :=
  if line.broken then header line.tree.text else line.tree.flat (names.under line.place)

/-- The characters of the line without its padding. -/
def chars (line : Line) : List Char :=
  line.item names ++ (List.replicate line.closers closer).flatten

def column (line : Line) : Nat :=
  columnAt start line.place.length

def padded (line : Line) : List Char :=
  List.replicate (line.column start) ' ' ++ line.chars names

/-- The line with the line end in front of it. -/
def row (line : Line) : List Char :=
  newLine (line.column start) ++ line.chars names

end Line

/-- Closes one more bracket on the last line. -/
def closeLast : List Line → List Line
  | [] => []
  | [line] => [line.close]
  | line :: next :: rest => line :: closeLast (next :: rest)

end Diagram

open Diagram

mutual

/-- The lines of a tree that is laid out from this column on. -/
def Tree.laidOutLines (margin : Nat) (names : Naming) (column : Nat) : Tree → List Line
  | .leaf text => [⟨[], .leaf text, false, 0⟩]
  | .node label children =>
    if (Tree.node label children).Fits margin column names then
      [⟨[], .node label children, false, 0⟩]
    else
      closeLast (⟨[], .node label children, true, 0⟩ ::
        Forest.laidOutLines margin names 0 (Width.add column 2) children)

/-- The lines of the trees of a forest, the first of them child number `index`. -/
def Forest.laidOutLines (margin : Nat) (names : Naming) (index column : Nat) : List Tree → List Line
  | [] => []
  | tree :: rest =>
    (tree.laidOutLines margin (names.below index) column).map (Line.below index) ++
      Forest.laidOutLines margin names (index + 1) column rest

end

namespace Diagram

variable {names : Naming} {start : Nat} {lines : List Line}

theorem Line.item_of_whole (names : Naming) {line : Line} (h : line.broken = false) :
    line.item names = line.tree.flat (names.under line.place) := by
  rw [item, if_neg (Bool.eq_false_iff.mp h)]

theorem Line.length_chars (names : Naming) (line : Line) :
    (line.chars names).length = (line.item names).length + 2 * line.closers := by
  have hcloser : closer.length = 2 := by decide
  simp [chars, hcloser, Nat.mul_comm]

theorem Line.chars_close (line : Line) :
    line.close.chars names = line.chars names ++ closer := by
  have hclosers : (List.replicate (line.closers + 1) closer).flatten =
      (List.replicate line.closers closer).flatten ++ closer := by
    rw [List.replicate_succ', List.flatten_concat]
  rw [chars, chars, List.append_assoc, ← hclosers]
  rfl

theorem Line.row_close (line : Line) :
    line.close.row names start = line.row names start ++ closer := by
  rw [row, row, chars_close, List.append_assoc]
  rfl

/-- A line on which a whole tree stands alone. -/
theorem Line.row_whole (tree : Tree) :
    Line.row names start ⟨[], tree, false, 0⟩ = newLine start ++ tree.flat names :=
  congrArg (newLine start ++ ·) (List.append_nil (tree.flat names))

theorem Line.row_header (label : String) (children : Forest) :
    Line.row names start ⟨[], .node label children, true, 0⟩ = newLine start ++ header label :=
  congrArg (newLine start ++ ·) (List.append_nil (header label))

theorem Line.row_below (index : Nat) (line : Line) :
    (line.below index).row names start = line.row (names.below index) (Width.add start 2) := by
  rw [Width.add_eq_mod]
  rfl

theorem flatMap_row_closeLast (hne : lines ≠ []) :
    (closeLast lines).flatMap (Line.row names start) =
      lines.flatMap (Line.row names start) ++ closer := by
  induction lines with
  | nil => exact absurd rfl hne
  | cons line rest ih =>
    cases rest with
    | nil => rw [closeLast, List.flatMap_singleton, List.flatMap_singleton, Line.row_close]
    | cons next more =>
      rw [closeLast, List.flatMap_cons, ih (List.cons_ne_nil next more), ← List.append_assoc,
        ← List.flatMap_cons]

/-- What the last bracket of a line does not change holds of a line before and after closing. -/
theorem exists_mem_closeLast_iff {lines : List Line} {p : Line → Prop}
    (hclose : ∀ line, p line.close ↔ p line) :
    (∃ line ∈ closeLast lines, p line) ↔ ∃ line ∈ lines, p line := by
  induction lines with
  | nil => exact Iff.rfl
  | cons line rest ih =>
    cases rest with
    | nil => simp only [closeLast, List.mem_singleton, exists_eq_left, hclose]
    | cons next more =>
      rw [closeLast, List.exists_mem_cons_iff, ih, ← List.exists_mem_cons_iff p line]

theorem map_place_closeLast : (closeLast lines).map Line.place = lines.map Line.place := by
  induction lines with
  | nil => rfl
  | cons line rest ih =>
    cases rest with
    | nil => rfl
    | cons next more => rw [closeLast, List.map_cons, ih, ← List.map_cons]

end Diagram

mutual

/-- A tree that starts on a new line is its lines, one after the other. -/
theorem Tree.newLine_laidOut (margin : Nat) (names : Naming) (column : Nat) :
    (tree : Tree) → newLine column ++ tree.laidOut margin names column =
      (tree.laidOutLines margin names column).flatMap (Line.row names column)
  | .leaf text => by
    rw [Tree.laidOutLines, List.flatMap_singleton, Line.row_whole]
    rfl
  | .node label children => by
    rw [Tree.laidOut, Tree.laidOutLines]
    split
    case isTrue => rw [List.flatMap_singleton, Line.row_whole]
    case isFalse =>
      rw [flatMap_row_closeLast (List.cons_ne_nil _ _), List.flatMap_cons, Line.row_header,
        Forest.laidOut_eq_flatMap margin names 0 column children, ← List.append_assoc,
        ← List.append_assoc]

theorem Forest.laidOut_eq_flatMap (margin : Nat) (names : Naming) (index column : Nat) :
    (trees : List Tree) → Forest.laidOut margin names index (Width.add column 2) trees =
      (Forest.laidOutLines margin names index (Width.add column 2) trees).flatMap
        (Line.row names column)
  | [] => rfl
  | tree :: rest => by
    have hrow : (fun line => Line.row names column (Line.below index line)) =
        Line.row (names.below index) (Width.add column 2) := funext (Line.row_below index)
    rw [Forest.laidOut, Tree.newLine_laidOut margin (names.below index) (Width.add column 2) tree,
      Forest.laidOut_eq_flatMap margin names (index + 1) column rest, Forest.laidOutLines,
      List.flatMap_append, List.flatMap_map, hrow]

end

theorem Diagram.exists_text_eq {tree : Tree} {anchors : Anchors}
    (h : tree.anchors? = some anchors) (layout : Layout) :
    ∃ diagram, ofTree? layout tree = some diagram ∧ diagram.text.toList =
      "\\Tree ".toList ++ tree.laidOut layout.margin anchors.naming layout.indent := by
  rw [ofTree?, h]
  exact ⟨_, rfl, String.toList_ofList⟩

theorem Tree.exists_lines_eq_cons (tree : Tree) (margin column : Nat) (names : Naming) :
    ∃ first rest, tree.laidOutLines margin names column = first :: rest ∧ first.place = [] := by
  cases tree with
  | leaf text => exact ⟨_, _, rfl, rfl⟩
  | node label children =>
    rw [laidOutLines]
    split
    case isTrue => exact ⟨_, _, rfl, rfl⟩
    case isFalse =>
      cases Forest.laidOutLines margin names 0 (Width.add column 2) children with
      | nil => exact ⟨_, _, rfl, rfl⟩
      | cons next more => exact ⟨_, _, rfl, rfl⟩

section Places

variable {margin column index : Nat}

theorem Forest.mem_laidOutLines_iff {names : Naming} {line : Line} {trees : Forest} :
    line ∈ Forest.laidOutLines margin names index column trees ↔
      ∃ (number : Nat) (child : Tree) (inside : Line), trees[number]? = some child ∧
        inside ∈ child.laidOutLines margin (names.below (index + number)) column ∧
        line = inside.below (index + number) := by
  induction trees generalizing index with
  | nil => simp [Forest.laidOutLines]
  | cons tree rest ih =>
    rw [Forest.laidOutLines, List.mem_append, List.mem_map, ih]
    constructor
    · rintro (⟨inside, hmem, rfl⟩ | ⟨number, child, inside, hchild, hmem, rfl⟩)
      · exact ⟨0, tree, inside, rfl, hmem, rfl⟩
      · have hnumber : index + 1 + number = index + (number + 1) := by omega
        rw [hnumber] at hmem ⊢
        exact ⟨number + 1, child, inside, hchild, hmem, rfl⟩
    · rintro ⟨number, child, inside, hchild, hmem, rfl⟩
      cases number with
      | zero =>
        obtain rfl := Option.some.inj hchild
        exact .inl ⟨inside, hmem, rfl⟩
      | succ number =>
        have hnumber : index + 1 + number = index + (number + 1) := by omega
        refine .inr ⟨number, child, inside, hchild, ?_, ?_⟩
        · rw [hnumber]
          exact hmem
        · rw [hnumber]

mutual

/-- The lines stand in reading order, each subtree on one line at most. -/
theorem Tree.pairwise_place (margin : Nat) (names : Naming) (column : Nat) :
    (tree : Tree) → ((tree.laidOutLines margin names column).map Line.place).Pairwise (· < ·)
  | .leaf text => List.pairwise_singleton _ _
  | .node label children => by
    rw [Tree.laidOutLines]
    split
    case isTrue => exact List.pairwise_singleton _ _
    case isFalse =>
      rw [map_place_closeLast, List.map_cons, List.pairwise_cons]
      refine ⟨?_, Forest.pairwise_place margin names 0 (Width.add column 2) children⟩
      intro place hplace
      obtain ⟨line, hmem, rfl⟩ := List.mem_map.mp hplace
      obtain ⟨number, child, inside, -, -, rfl⟩ := Forest.mem_laidOutLines_iff.mp hmem
      exact List.nil_lt_cons _ _

theorem Forest.pairwise_place (margin : Nat) (names : Naming) (index column : Nat) :
    (trees : List Tree) →
      ((Forest.laidOutLines margin names index column trees).map Line.place).Pairwise (· < ·)
  | [] => List.Pairwise.nil
  | tree :: rest => by
    have hfirst := Tree.pairwise_place margin (names.below index) column tree
    rw [Forest.laidOutLines, List.map_append, List.map_map, List.pairwise_append]
    refine ⟨?_, Forest.pairwise_place margin names (index + 1) column rest, ?_⟩
    · rw [List.pairwise_map] at hfirst ⊢
      exact hfirst.imp fun hlt => List.cons_lt_cons_iff.mpr (.inr ⟨rfl, hlt⟩)
    · intro place hplace other hother
      obtain ⟨line, -, rfl⟩ := List.mem_map.mp hplace
      obtain ⟨more, hmem, rfl⟩ := List.mem_map.mp hother
      obtain ⟨number, child, inside, -, -, rfl⟩ := Forest.mem_laidOutLines_iff.mp hmem
      have hlt : index < index + 1 + number := by omega
      exact List.cons_lt_cons_iff.mpr (.inl hlt)

end

end Places

end TreeFigure
