import TreeFigure.Diagram
import TreeFigure.Proofs.Text.Runs

/-!
Drawings of a tree, whatever the layout. Between the parts of a node stand spaces and line ends, as
many as the layout wants; the parts themselves depend only on the tree and the names of its leaves.
-/

namespace TreeFigure

open Text

theorem Anchors.naming_cases (anchors : Anchors) (position : Position) :
    anchors.naming position = none ∨ anchors.naming position = some "n0" ∨
      anchors.naming position = some "n1" := by
  unfold naming
  split
  case isTrue => exact .inr (.inl rfl)
  case isFalse =>
    split
    case isTrue => exact .inr (.inr rfl)
    case isFalse => exact .inl rfl

namespace Diagram

/-- The characters that a layout puts between the parts of a node. -/
def isSpacing (c : Char) : Bool :=
  c == ' ' || c == '\n'

def IsSpacing (text : List Char) : Prop :=
  text ≠ [] ∧ ∀ c ∈ text, isSpacing c = true

mutual

/-- The text draws this tree with these names. -/
inductive TreeDrawn : Naming → List Char → Tree → Prop
  | leaf {names : Naming} {text : String} :
      TreeDrawn names (leafChars (names []) text) (.leaf text)
  | node {names : Naming} {label : String} {items : List Char} {children : Forest}
      (hitems : ItemsDrawn names 0 items children) :
      TreeDrawn names (header label ++ items) (.node label children)

/-- The text draws these trees, the first of them child number `index`, up to the bracket that
closes their node. -/
inductive ItemsDrawn : Naming → Nat → List Char → Forest → Prop
  | close {names : Naming} {index : Nat} {gap : List Char} (hgap : IsSpacing gap) :
      ItemsDrawn names index (gap ++ [']']) []
  | item {names : Naming} {index : Nat} {gap text rest : List Char} {tree : Tree} {trees : Forest}
      (hgap : IsSpacing gap) (htree : TreeDrawn (names.below index) text tree)
      (hrest : ItemsDrawn names (index + 1) rest trees) :
      ItemsDrawn names index (gap ++ (text ++ rest)) (tree :: trees)

end

theorem isSpacing_cons {c : Char} {rest : List Char} (h : (c :: rest).all isSpacing = true) :
    IsSpacing (c :: rest) :=
  ⟨List.cons_ne_nil c rest, List.all_eq_true.mp h⟩

theorem isSpacing_space : IsSpacing [' '] :=
  isSpacing_cons rfl

theorem isSpacing_newLine (column : Nat) : IsSpacing (newLine column) := by
  refine ⟨List.cons_ne_nil _ _, ?_⟩
  intro c hc
  rcases List.mem_cons.mp hc with rfl | hspace
  · rfl
  · rw [List.eq_of_mem_replicate hspace]
    rfl

theorem IsSpacing.begins {gap : List Char} (h : IsSpacing gap) (rest : List Char) :
    Begins isSpacing (gap ++ rest) := by
  obtain ⟨c, tail, rfl⟩ := List.exists_cons_of_ne_nil h.1
  rw [List.cons_append, begins_cons]
  exact h.2 c List.mem_cons_self

theorem ItemsDrawn.begins {names : Naming} {index : Nat} {items : List Char} {trees : Forest}
    (h : ItemsDrawn names index items trees) (rest : List Char) :
    Begins isSpacing (items ++ rest) := by
  cases h with
  | close hgap =>
    rw [List.append_assoc]
    exact hgap.begins _
  | item hgap =>
    rw [List.append_assoc]
    exact hgap.begins _

/-- One space before each text is one before the first and one between any two. -/
theorem cons_intercalate_space {texts : List (List Char)} (h : texts ≠ []) :
    ' ' :: [' '].intercalate texts = texts.flatMap (' ' :: ·) := by
  induction texts with
  | nil => exact absurd rfl h
  | cons text rest ih =>
    cases rest with
    | nil => simp
    | cons next more =>
      rw [List.intercalate_cons_cons, List.flatMap_cons, ← ih (by simp)]
      simp

/-- Texts with spaces between them are parts of the whole. -/
theorem isInfix_items {text : List Char} {texts : List (List Char)} (h : text ∈ texts) :
    text <:+: ' ' :: [' '].intercalate texts := by
  rw [cons_intercalate_space (List.ne_nil_of_mem h), List.flatMap_def]
  exact (List.suffix_cons ' ' text).isInfix.trans
    (List.infix_of_mem_flatten (List.mem_map_of_mem h))

end Diagram

open Diagram

mutual

theorem Tree.drawn_flat (names : Naming) :
    (tree : Tree) → TreeDrawn names (tree.flat names) tree
  | .leaf text => .leaf
  | .node label children => by
    have hitems := Forest.drawn_flat names 0 children
    rw [Tree.flat, List.append_assoc]
    cases children with
    | nil =>
      have hgap : IsSpacing [' ', ' '] := isSpacing_cons rfl
      exact .node (.close hgap)
    | cons child rest =>
      rw [← cons_intercalate_space (by simp [Forest.flat])] at hitems
      exact .node hitems

theorem Forest.drawn_flat (names : Naming) (index : Nat) :
    (trees : List Tree) →
      ItemsDrawn names index ((Forest.flat names index trees).flatMap (' ' :: ·) ++ closer) trees
  | [] => .close isSpacing_space
  | tree :: rest => by
    have hitems := ItemsDrawn.item isSpacing_space (Tree.drawn_flat (names.below index) tree)
      (Forest.drawn_flat names (index + 1) rest)
    simpa [Forest.flat] using hitems

end

mutual

/-- However it is laid out, a tree is drawn. -/
theorem Tree.drawn_laidOut (names : Naming) (margin column : Nat) :
    (tree : Tree) → TreeDrawn names (tree.laidOut margin names column) tree
  | .leaf text => .leaf
  | .node label children => by
    rw [Tree.laidOut]
    split
    case isTrue => exact Tree.drawn_flat names (.node label children)
    case isFalse =>
      rw [List.append_assoc]
      exact .node (Forest.drawn_laidOut names margin (Width.add column 2) 0 children)

theorem Forest.drawn_laidOut (names : Naming) (margin column index : Nat) :
    (trees : List Tree) →
      ItemsDrawn names index (Forest.laidOut margin names index column trees ++ closer) trees
  | [] => .close isSpacing_space
  | tree :: rest => by
    have hitems := ItemsDrawn.item (isSpacing_newLine column)
      (Tree.drawn_laidOut (names.below index) margin column tree)
      (Forest.drawn_laidOut names margin column (index + 1) rest)
    simpa [Forest.laidOut] using hitems

end

/-- A diagram is a control word and a drawing of its tree. -/
theorem Diagram.exists_drawn {layout : Layout} {tree : Tree} {diagram : Diagram}
    (h : ofTree? layout tree = some diagram) :
    ∃ anchors body, tree.anchors? = some anchors ∧ diagram.text.toList = "\\Tree ".toList ++ body ∧
      TreeDrawn anchors.naming body tree := by
  obtain ⟨anchors, hanchors, rfl⟩ := Option.map_eq_some_iff.mp h
  exact ⟨anchors, _, hanchors, String.toList_ofList,
    tree.drawn_laidOut anchors.naming layout.margin layout.indent⟩

end TreeFigure
