import TreeFigure.Proofs.Figure.Columns
import TreeFigure.Proofs.Figure.Diagram

/-!
Wider layouts break less. With more margin or less indentation, what fitted still fits, so no node
is broken that was not. Line ends only become fewer: where the narrow diagram has a tree broken and
the wide one has it on one line, breaking it adds line ends to those in the texts. Sums that wrap
around would spoil the comparison, so the first sum of the narrow layout has to fit into a word.
-/

namespace TreeFigure

open Diagram

section Fitting

variable {narrow wide column deeper : Nat} {names : Naming} {tree : Tree} {place : Position}

theorem Tree.Fits.widen (h : tree.Fits narrow deeper names)
    (hroom : (tree.flat names).length + deeper < Text.wordBound) (hmargin : narrow ≤ wide)
    (hcolumn : column ≤ deeper) : tree.Fits wide column names := by
  unfold Fits at h ⊢
  rw [Width.add_eq hroom] at h
  rw [Width.add_eq (by omega)]
  omega

theorem Tree.FitsAt.widen (h : tree.FitsAt narrow deeper names place)
    (hroom : (tree.flat names).length + deeper < Text.wordBound) (hmargin : narrow ≤ wide)
    (hcolumn : column ≤ deeper) : tree.FitsAt wide column names place := by
  have hwide : (tree.flat names).length + column < Text.wordBound := by omega
  obtain ⟨label, children, hget, hfits⟩ := (fitsAt_iff_of_lt hroom).mp h
  exact (fitsAt_iff_of_lt hwide).mpr ⟨label, children, hget, by omega⟩

theorem Tree.FitsWithin.widen (h : tree.FitsWithin narrow deeper names place)
    (hroom : (tree.flat names).length + deeper < Text.wordBound) (hmargin : narrow ≤ wide)
    (hcolumn : column ≤ deeper) : tree.FitsWithin wide column names place := by
  obtain ⟨above, habove, hfits⟩ := h
  exact ⟨above, habove, hfits.widen hroom hmargin hcolumn⟩

end Fitting

namespace Diagram

/-- Number of line ends. -/
def lineEnds (text : List Char) : Nat :=
  text.count '\n'

theorem lineEnds_append (left right : List Char) :
    lineEnds (left ++ right) = lineEnds left + lineEnds right :=
  List.count_append

theorem lineEnds_newLine (column : Nat) : lineEnds (newLine column) = 1 := by
  have hspaces : (List.replicate column ' ').count '\n' = 0 :=
    List.count_eq_zero.mpr fun h => absurd (List.eq_of_mem_replicate h) (by decide)
  rw [lineEnds, newLine, List.count_cons_self, hspaces]

theorem lineEnds_intercalate_cons (text : List Char) (rest : List (List Char)) :
    lineEnds ([' '].intercalate (text :: rest)) =
      lineEnds text + lineEnds ([' '].intercalate rest) := by
  cases rest with
  | nil => rw [List.intercalate_singleton]; rfl
  | cons next more =>
    have hspace : lineEnds [' '] = 0 := by decide
    rw [List.intercalate_cons_cons, lineEnds_append, lineEnds_append, hspace, Nat.add_zero]

end Diagram

theorem Tree.lineEnds_flat_node (names : Naming) (label : String) (children : Forest) :
    lineEnds ((Tree.node label children).flat names) =
      lineEnds (header label) + lineEnds ([' '].intercalate (Forest.flat names 0 children)) := by
  have hcloser : lineEnds closer = 0 := by decide
  rw [flat, lineEnds_append, lineEnds_append, hcloser, Nat.add_zero]
  rfl

theorem Tree.lineEnds_laidOut_broken {margin column : Nat} {names : Naming} {label : String}
    {children : Forest} (h : ¬ (Tree.node label children).Fits margin column names) :
    lineEnds ((Tree.node label children).laidOut margin names column) =
      lineEnds (header label) +
        lineEnds (Forest.laidOut margin names 0 (Width.add column 2) children) := by
  have hcloser : lineEnds closer = 0 := by decide
  rw [laidOut, if_neg h, lineEnds_append, lineEnds_append, hcloser, Nat.add_zero]

mutual

/-- Breaking a tree removes none of the line ends in its texts. -/
theorem Tree.lineEnds_flat_le (margin : Nat) (names : Naming) (column : Nat) : (tree : Tree) →
    lineEnds (tree.flat names) ≤ lineEnds (tree.laidOut margin names column)
  | .leaf text => Nat.le_refl _
  | .node label children => by
    by_cases hfits : (Tree.node label children).Fits margin column names
    · have hflat : (Tree.node label children).laidOut margin names column =
          (Tree.node label children).flat names := by
        rw [Tree.laidOut, if_pos hfits]
      exact Nat.le_of_eq (congrArg lineEnds hflat.symm)
    · have hchildren := Forest.lineEnds_flat_le margin names 0 (Width.add column 2) children
      rw [Tree.lineEnds_flat_node, Tree.lineEnds_laidOut_broken hfits]
      exact Nat.add_le_add_left hchildren _

theorem Forest.lineEnds_flat_le (margin : Nat) (names : Naming) (index column : Nat) :
    (trees : List Tree) → lineEnds ([' '].intercalate (Forest.flat names index trees)) ≤
      lineEnds (Forest.laidOut margin names index column trees)
  | [] => Nat.le_refl _
  | tree :: rest => by
    have htree := Tree.lineEnds_flat_le margin (names.below index) column tree
    have hrest := Forest.lineEnds_flat_le margin names (index + 1) column rest
    rw [Forest.flat, Forest.laidOut, lineEnds_intercalate_cons, lineEnds_append, lineEnds_append]
    omega

end

mutual

/-- The narrow form of a tree has all the line ends of the wide one. -/
theorem Tree.lineEnds_laidOut_le {narrow wide : Nat} (hmargin : narrow ≤ wide) (names : Naming)
    {column deeper : Nat} (hcolumn : column ≤ deeper) : (tree : Tree) →
    (tree.flat names).length + deeper < Text.wordBound →
    lineEnds (tree.laidOut wide names column) ≤ lineEnds (tree.laidOut narrow names deeper)
  | .leaf text, _ => Nat.le_refl _
  | .node label children, hroom => by
    by_cases hwide : (Tree.node label children).Fits wide column names
    · rw [Tree.laidOut, if_pos hwide]
      exact Tree.lineEnds_flat_le narrow names deeper (.node label children)
    · have hnarrow : ¬ (Tree.node label children).Fits narrow deeper names :=
        fun hfits => hwide (hfits.widen hroom hmargin hcolumn)
      have hopen : 2 ≤ ((Tree.node label children).flat names).length := Tree.two_le_length_flat
      have hinside : ∀ item ∈ Forest.flat names 0 children,
          item.length + (deeper + 2) < Text.wordBound := by
        intro item hitem
        have hle : item.length + 2 ≤ ((Tree.node label children).flat names).length :=
          Tree.length_add_two_le_flat hitem
        omega
      have hdeeper : column + 2 ≤ deeper + 2 := Nat.add_le_add_right hcolumn 2
      have hchildren := Forest.lineEnds_laidOut_le hmargin names 0 hdeeper children hinside
      rw [Tree.lineEnds_laidOut_broken hwide, Tree.lineEnds_laidOut_broken hnarrow,
        Width.add_eq (by omega), Width.add_eq (by omega)]
      exact Nat.add_le_add_left hchildren _

theorem Forest.lineEnds_laidOut_le {narrow wide : Nat} (hmargin : narrow ≤ wide) (names : Naming)
    (index : Nat) {column deeper : Nat} (hcolumn : column ≤ deeper) : (trees : List Tree) →
    (∀ item ∈ Forest.flat names index trees, item.length + deeper < Text.wordBound) →
    lineEnds (Forest.laidOut wide names index column trees) ≤
      lineEnds (Forest.laidOut narrow names index deeper trees)
  | [], _ => Nat.le_refl _
  | tree :: rest, hroom => by
    obtain ⟨hfirst, hothers⟩ := List.forall_mem_cons.mp hroom
    have htree := Tree.lineEnds_laidOut_le hmargin (names.below index) hcolumn tree hfirst
    have hrest := Forest.lineEnds_laidOut_le hmargin names (index + 1) hcolumn rest hothers
    rw [Forest.laidOut, Forest.laidOut, lineEnds_append, lineEnds_append, lineEnds_append,
      lineEnds_append, lineEnds_newLine, lineEnds_newLine]
    omega

end

end TreeFigure
