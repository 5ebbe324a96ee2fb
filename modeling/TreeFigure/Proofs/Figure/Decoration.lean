import Mathlib.Data.List.Nodup
import TreeFigure.Drawing
import TreeFigure.Proofs.Figure.Diagram
import TreeFigure.Proofs.Figure.Drawn
import TreeFigure.Proofs.Text.Occurrences

/-!
Naming leaves by position while a tree is drawn is decorating the tree first. The decorated tree
holds what is written for every label and every leaf, with the first and the last leaf as named
nodes, and it is printed without any notion of position.
-/

namespace TreeFigure

open Text Tex

/-- The name of the leaf with this number, if it is the first or the last one. -/
def anchorName? (count number : Nat) : Option String :=
  if number = 0 then some "n0" else if number + 1 = count then some "n1" else none

/-- What is written for a leaf: a named node for the first and the last one. -/
def decoratedText (count number : Nat) (text : String) : String :=
  match anchorName? count number with
  | some name => "\\edge; \\node(" ++ name ++ ") \x7b" ++ Tex.escape text ++ "\x7d;"
  | none => Tex.escape text

mutual

/-- The tree with what is written for its labels and leaves. Its leaves are numbered from `start`
on, among `count` of them. -/
def Tree.decoratedFrom (count start : Nat) : Tree → Tree
  | .leaf text => .leaf (decoratedText count start text)
  | .node label children =>
    .node (Tex.escape label) (Forest.decoratedFrom count start children)

def Forest.decoratedFrom (count start : Nat) : List Tree → List Tree
  | [] => []
  | tree :: rest =>
    tree.decoratedFrom count start ::
      Forest.decoratedFrom count (start + tree.leaves.length) rest

end

/-- The tree with what is written for its labels and leaves. -/
def Tree.decorated (tree : Tree) : Tree :=
  tree.decoratedFrom tree.leaves.length 0

mutual

/-- The tree on one line, with its texts as they are. -/
def Tree.line : Tree → List Char
  | .leaf text => text.toList
  | .node label children =>
    "[.".toList ++ label.toList ++ ' ' :: [' '].intercalate (Forest.lines children) ++
      " ]".toList

def Forest.lines : List Tree → List (List Char)
  | [] => []
  | tree :: rest => tree.line :: Forest.lines rest

end

mutual

/-- The tree from this column on, with its texts as they are: on one line while it is shorter than
the margin, and otherwise with a line for each child, two columns further in. Widths are added up
by `sum`. -/
def Tree.printed (sum : Nat → Nat → Nat) (margin column : Nat) : Tree → List Char
  | .leaf text => text.toList
  | .node label children =>
    if sum (Tree.node label children).line.length column < margin then
      (Tree.node label children).line
    else
      "[.".toList ++ label.toList ++ Forest.printed sum margin (sum column 2) children ++
        " ]".toList

def Forest.printed (sum : Nat → Nat → Nat) (margin column : Nat) : List Tree → List Char
  | [] => []
  | tree :: rest =>
    '\n' :: List.replicate column ' ' ++ tree.printed sum margin column ++
      Forest.printed sum margin column rest

end

/-- The positions have the names of leaves that are numbered from `start` on. -/
def Naming.Numbers (names : Naming) (count start : Nat) (positions : List Position) : Prop :=
  positions.map names = (List.range' start positions.length).map (anchorName? count)

theorem Naming.map_cons (names : Naming) (index : Nat) (positions : List Position) :
    (positions.map (index :: ·)).map names = positions.map (names.below index) := by
  rw [List.map_map]
  rfl

/-- The positions in the first tree of a forest are numbered before those in the others. -/
theorem Naming.Numbers.split {names : Naming} {count start index : Nat}
    {inside others : List Position}
    (h : names.Numbers count start (inside.map (index :: ·) ++ others)) :
    (names.below index).Numbers count start inside ∧
      names.Numbers count (start + inside.length) others := by
  unfold Numbers at h ⊢
  rw [List.map_append, names.map_cons, List.length_append, List.length_map, ← List.range'_append_1,
    List.map_append] at h
  have hlength : (inside.map (names.below index)).length =
      ((List.range' start inside.length).map (anchorName? count)).length := by
    rw [List.length_map, List.length_map, List.length_range']
  exact List.append_inj h hlength

theorem toList_decoratedText (count number : Nat) (text : String) :
    (decoratedText count number text).toList =
      Diagram.leafChars (anchorName? count number) text := by
  unfold decoratedText Diagram.leafChars
  cases anchorName? count number with
  | none => exact toList_escape text
  | some name =>
    have hopen : ") \x7b".toList = ") ".toList ++ ['\x7b'] := by decide
    have hclose : "\x7d;".toList = ['\x7d', ';'] := by decide
    dsimp only
    rw [String.toList_append, String.toList_append, String.toList_append, String.toList_append,
      hopen, hclose, toList_escape]
    unfold group
    simp only [List.append_assoc, List.cons_append, List.nil_append]

theorem header_eq (label : String) :
    Diagram.header label = "[.".toList ++ (Tex.escape label).toList := by
  rw [Diagram.header, toList_escape]

mutual

theorem Tree.flat_eq_line {names : Naming} {count start : Nat} :
    (tree : Tree) → names.Numbers count start tree.leafPositions →
      tree.flat names = (tree.decoratedFrom count start).line
  | .leaf text, h => by
    have hname : names [] = anchorName? count start := List.head_eq_of_cons_eq h
    rw [Tree.flat, hname, Tree.decoratedFrom, Tree.line, toList_decoratedText]
  | .node label children, h => by
    rw [Tree.flat, header_eq, Forest.flat_eq_lines 0 children h]
    rfl

theorem Forest.flat_eq_lines {names : Naming} {count start : Nat} (index : Nat) :
    (trees : List Tree) → names.Numbers count start (Forest.leafPositions index trees) →
      Forest.flat names index trees = Forest.lines (Forest.decoratedFrom count start trees)
  | [], _ => rfl
  | tree :: rest, h => by
    obtain ⟨htree, hrest⟩ := h.split
    rw [tree.length_leafPositions] at hrest
    rw [Forest.flat, Tree.flat_eq_line tree htree, Forest.flat_eq_lines (index + 1) rest hrest]
    rfl

end

mutual

/-- Naming leaves while a tree is laid out is printing the decorated tree. -/
theorem Tree.laidOut_eq_printed {names : Naming} {count start : Nat} (margin column : Nat) :
    (tree : Tree) → names.Numbers count start tree.leafPositions →
      tree.laidOut margin names column =
        (tree.decoratedFrom count start).printed Width.add margin column
  | .leaf text, h => Tree.flat_eq_line (.leaf text) h
  | .node label children, h => by
    have hflat := Tree.flat_eq_line (.node label children) h
    have hchildren := Forest.laidOut_eq_printed margin (Width.add column 2) 0 children h
    simp only [Tree.laidOut, Tree.Fits, hflat, header_eq, hchildren]
    rfl

theorem Forest.laidOut_eq_printed {names : Naming} {count start : Nat} (margin column : Nat)
    (index : Nat) :
    (trees : List Tree) → names.Numbers count start (Forest.leafPositions index trees) →
      Forest.laidOut margin names index column trees =
        Forest.printed Width.add margin column (Forest.decoratedFrom count start trees)
  | [], _ => rfl
  | tree :: rest, h => by
    obtain ⟨htree, hrest⟩ := h.split
    rw [tree.length_leafPositions] at hrest
    rw [Forest.laidOut, Tree.laidOut_eq_printed margin column tree htree,
      Forest.laidOut_eq_printed margin column (index + 1) rest hrest]
    rfl

end

/-- On one line a tree is longer than each of its children by the brackets at least. -/
theorem Tree.length_add_two_le {label : String} {children : Forest} {line : List Char}
    (h : line ∈ Forest.lines children) :
    line.length + 2 ≤ (Tree.node label children).line.length := by
  have hitem := (Diagram.isInfix_items h).length_le
  have hopen : "[.".toList.length = 2 := by decide
  rw [Tree.line, List.length_append, List.length_append, List.length_append, hopen]
  omega

mutual

/-- If the first sum fits into a word, no other one is greater, so that all of them are exact. -/
theorem Tree.printed_eq_of_lt (margin column : Nat) :
    (tree : Tree) → tree.line.length + column < Text.wordBound →
      tree.printed Width.add margin column = tree.printed (· + ·) margin column
  | .leaf text, _ => rfl
  | .node label children, h => by
    have hchildren : ∀ line ∈ Forest.lines children,
        line.length + (column + 2) < Text.wordBound := by
      intro line hline
      have hle : line.length + 2 ≤ (Tree.node label children).line.length :=
        Tree.length_add_two_le hline
      omega
    have hcolumn : column + 2 < Text.wordBound := by
      have hopen : 2 ≤ (Tree.node label children).line.length := by
        simp [Tree.line]
      omega
    rw [Tree.printed, Tree.printed, Width.add_eq h, Width.add_eq hcolumn,
      Forest.printed_eq_of_lt margin (column + 2) children hchildren]

theorem Forest.printed_eq_of_lt (margin column : Nat) :
    (trees : List Tree) → (∀ line ∈ Forest.lines trees, line.length + column < Text.wordBound) →
      Forest.printed Width.add margin column trees = Forest.printed (· + ·) margin column trees
  | [], _ => rfl
  | tree :: rest, h => by
    obtain ⟨htree, hrest⟩ := List.forall_mem_cons.mp h
    rw [Forest.printed, Forest.printed, Tree.printed_eq_of_lt margin column tree htree,
      Forest.printed_eq_of_lt margin column rest hrest]

end

/-- The anchors name the first and the last of the leaf positions and no other. -/
theorem Tree.numbers_of_anchors? {tree : Tree} {anchors : Anchors}
    (h : tree.anchors? = some anchors) :
    anchors.naming.Numbers tree.leaves.length 0 tree.leafPositions := by
  obtain ⟨hpos, hfirst, hlast⟩ := eq_getElem_of_anchors? h
  have hnodup := tree.nodup_leafPositions
  unfold Naming.Numbers
  apply List.ext_getElem
  · rw [List.length_map, List.length_map, List.length_range']
  · intro i hi _
    rw [List.length_map] at hi
    have hzero : tree.leafPositions[i] = anchors.first ↔ i = 0 := by
      rw [hfirst, hnodup.getElem_inj_iff]
    have hend : tree.leafPositions[i] = anchors.last ↔ i + 1 = tree.leaves.length := by
      rw [hlast, hnodup.getElem_inj_iff, ← tree.length_leafPositions]
      omega
    rw [List.getElem_map, List.getElem_map, List.getElem_range', Nat.zero_add, Nat.one_mul]
    unfold Anchors.naming anchorName?
    simp only [hzero, hend]

/-- The text of a diagram is its decorated tree, printed without a notion of position. -/
theorem Diagram.text_eq_printed {layout : Layout} {tree : Tree} {diagram : Diagram}
    (h : ofTree? layout tree = some diagram) :
    diagram.text.toList =
      "\\Tree ".toList ++ tree.decorated.printed Width.add layout.margin layout.indent := by
  obtain ⟨anchors, hanchors, rfl⟩ := Option.map_eq_some_iff.mp h
  have hprinted := tree.laidOut_eq_printed layout.margin layout.indent
    (tree.numbers_of_anchors? hanchors)
  rw [String.toList_ofList, hprinted]
  rfl

theorem Diagram.names_eq {layout : Layout} {tree : Tree} {diagram : Diagram}
    (h : ofTree? layout tree = some diagram) :
    diagram.first = "n0" ∧ diagram.last = if tree.leaves.length = 1 then "n0" else "n1" := by
  obtain ⟨anchors, hanchors, rfl⟩ := Option.map_eq_some_iff.mp h
  refine ⟨rfl, ?_⟩
  simp only [tree.first_eq_last_iff hanchors]

theorem Diagram.ofTree?_eq_none {tree : Tree} (h : tree.leaves = []) (layout : Layout) :
    ofTree? layout tree = none := by
  rw [ofTree?, Tree.anchors?_eq_none_iff.mpr h]
  rfl

end TreeFigure
