import TreeFigure.Diagram
import TreeFigure.Proofs.Tex.Escaping
import TreeFigure.Proofs.Tree.LeafPositions

/-!
Diagrams are well formed. On one line or broken over lines, a tree is written as a fragment with
one pair of brackets for each node, whatever its labels and leaves hold.
-/

namespace TreeFigure

open Tex

mutual

/-- Number of nodes: of places that are no leaf. -/
def Tree.nodeCount : Tree → Nat
  | .leaf _ => 0
  | .node _ children => Forest.nodeCount children + 1

def Forest.nodeCount : List Tree → Nat
  | [] => 0
  | tree :: rest => tree.nodeCount + Forest.nodeCount rest

end

/-- The names have no characters with a meaning of their own. -/
def Naming.Plain (names : Naming) : Prop :=
  ∀ position name, names position = some name → name.toList.all isPlain = true

theorem Naming.Plain.below {names : Naming} (h : names.Plain) (index : Nat) :
    (names.below index).Plain :=
  fun position => h (index :: position)

theorem Anchors.naming_plain (anchors : Anchors) : anchors.naming.Plain := by
  intro position name hname
  rw [naming] at hname
  split at hname
  case isTrue =>
    cases hname
    decide
  case isFalse =>
    split at hname
    case isTrue =>
      cases hname
      decide
    case isFalse => cases hname

namespace Diagram

theorem fragment_leafChars {name : Option String} (text : String)
    (h : ∀ found, name = some found → found.toList.all isPlain = true) :
    Fragment [] (leafChars name text) := by
  cases name with
  | none => exact fragment_escapeChars text.toList
  | some name =>
    have hedge : Fragment [] "\\edge; \\node(".toList := by
      have hgap : Fragment [] "; ".toList := .run rfl
      have hnode : Fragment [] "\\node(".toList := .control rfl
      exact (Fragment.edge.append hgap).append hnode
    have hname : Fragment [] name.toList := .run (h name rfl)
    have hclose : Fragment [] ") ".toList := .run rfl
    have hbody := (fragment_escapeChars text.toList).group
    have hend : Fragment [] [';'] := .plain rfl
    exact (((hedge.append hname).append hclose).append hbody).append hend

/-- Something between the header of a label and the closer is in one pair of brackets. -/
theorem fragment_node {events : List Event} {inside : List Char} (label : String)
    (h : Fragment events inside) :
    Fragment (.brackets :: events) (header label ++ inside ++ closer) := by
  have hdot : Fragment [] ['.'] := .plain rfl
  have hlabel := hdot.append (fragment_escapeChars label.toList)
  have hnode := ((hlabel.append h).append_quiet Fragment.space).brackets
  simpa [header, closer] using hnode

theorem fragment_newLine (column : Nat) : Fragment [] (newLine column) := by
  have hspaces : (List.replicate column ' ').all isPlain = true := by
    rw [List.all_eq_true]
    intro c hc
    rw [List.eq_of_mem_replicate hc]
    decide
  exact .append (.plain rfl) (.run hspaces)

end Diagram

open Diagram

mutual

theorem Tree.fragment_flat {names : Naming} (h : names.Plain) :
    (tree : Tree) → Fragment (List.replicate tree.nodeCount .brackets) (tree.flat names)
  | .leaf text => fragment_leafChars text (h [])
  | .node label children => by
    have hinside := Fragment.space.append (Forest.fragment_flat h 0 children)
    rw [Tree.flat, Tree.nodeCount, List.replicate_succ]
    exact fragment_node label hinside

theorem Forest.fragment_flat {names : Naming} (h : names.Plain) (index : Nat) :
    (trees : List Tree) → Fragment (List.replicate (Forest.nodeCount trees) .brackets)
      ([' '].intercalate (Forest.flat names index trees))
  | [] => .nil
  | tree :: rest => by
    have htree := Tree.fragment_flat (h.below index) tree
    have hrest := Forest.fragment_flat h (index + 1) rest
    rw [Forest.flat, Forest.nodeCount, ← List.replicate_append_replicate]
    cases rest with
    | nil => exact htree.append .nil
    | cons next more =>
      rw [Forest.flat] at hrest ⊢
      rw [List.intercalate_cons_cons]
      exact (htree.append_quiet Fragment.space).append hrest

end

mutual

theorem Tree.fragment_laidOut (margin : Nat) {names : Naming} (h : names.Plain) (column : Nat) :
    (tree : Tree) →
      Fragment (List.replicate tree.nodeCount .brackets) (tree.laidOut margin names column)
  | .leaf text => fragment_leafChars text (h [])
  | .node label children => by
    rw [Tree.laidOut]
    split
    case isTrue => exact Tree.fragment_flat h (.node label children)
    case isFalse =>
      rw [Tree.nodeCount, List.replicate_succ]
      exact fragment_node label (Forest.fragment_laidOut margin h 0 (Width.add column 2) children)

theorem Forest.fragment_laidOut (margin : Nat) {names : Naming} (h : names.Plain)
    (index column : Nat) :
    (trees : List Tree) → Fragment (List.replicate (Forest.nodeCount trees) .brackets)
      (Forest.laidOut margin names index column trees)
  | [] => .nil
  | tree :: rest => by
    have hline := fragment_newLine column
    have htree := Tree.fragment_laidOut margin (h.below index) column tree
    have hrest := Forest.fragment_laidOut margin h (index + 1) column rest
    rw [Forest.laidOut, Forest.nodeCount, ← List.replicate_append_replicate]
    exact (hline.append htree).append hrest

end

/-- A tree with a leaf has a diagram under every layout. -/
theorem Diagram.exists_ofTree? {tree : Tree} (h : tree.leaves ≠ []) (layout : Layout) :
    ∃ diagram, ofTree? layout tree = some diagram := by
  cases hanchors : tree.anchors? with
  | none => exact absurd (Tree.anchors?_eq_none_iff.mp hanchors) h
  | some anchors =>
    rw [ofTree?, hanchors]
    exact ⟨_, rfl⟩

/-- The text of a diagram is a fragment with one pair of brackets for each node. -/
theorem Diagram.fragment_of_ofTree? {layout : Layout} {tree : Tree} {diagram : Diagram}
    (h : ofTree? layout tree = some diagram) :
    Fragment (List.replicate tree.nodeCount .brackets) diagram.text.toList := by
  obtain ⟨anchors, -, rfl⟩ := Option.map_eq_some_iff.mp h
  have hword : Fragment [] "\\Tree ".toList := .control rfl
  rw [String.toList_ofList]
  exact hword.append (Tree.fragment_laidOut layout.margin anchors.naming_plain layout.indent tree)

theorem Diagram.isPlain_names {layout : Layout} {tree : Tree} {diagram : Diagram}
    (h : ofTree? layout tree = some diagram) :
    diagram.first.toList.all isPlain = true ∧ diagram.last.toList.all isPlain = true := by
  obtain ⟨anchors, -, rfl⟩ := Option.map_eq_some_iff.mp h
  have hfirst : "n0".toList.all isPlain = true := rfl
  have hlast : "n1".toList.all isPlain = true := rfl
  refine ⟨hfirst, ?_⟩
  dsimp only
  split
  case isTrue => exact hfirst
  case isFalse => exact hlast

end TreeFigure
