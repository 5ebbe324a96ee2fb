import Mathlib.Data.List.Induction
import TreeFigure.Proofs.Figure.Lines
import TreeFigure.Proofs.Tree.Places

/-!
Which nodes of a diagram are broken over lines. A subtree has a line of its own if no node above it
has room, and then it is broken if it is a node and has no room either. So a node is broken exactly
if neither it nor any node above it fits, and everything else is drawn inside one line.
-/

namespace TreeFigure

open Diagram

variable {margin column : Nat} {names : Naming} {tree sub : Tree} {label : String}
  {children : Forest} {place : Position} {index : Nat} {broken : Bool}

/-- At this place there is a node that is short enough for one line. -/
def Tree.FitsAt (margin column : Nat) (names : Naming) (tree : Tree) (place : Position) : Prop :=
  ∃ label children, tree.get? place = some (.node label children) ∧
    (((Tree.node label children).flat (names.under place)).length +
      columnAt column place.length) % Text.wordBound < margin

/-- The subtree at this place, or one that it stands in, is a node short enough for one line. -/
def Tree.FitsWithin (margin column : Nat) (names : Naming) (tree : Tree) (place : Position) :
    Prop :=
  ∃ above, above <+: place ∧ tree.FitsAt margin column names above

/-- A subtree that the one at this place stands in is a node short enough for one line. -/
def Tree.FitsAbove (margin column : Nat) (names : Naming) (tree : Tree) (place : Position) :
    Prop :=
  ∃ above, above <+: place ∧ above ≠ place ∧ tree.FitsAt margin column names above

/-- Some line shows the subtree at this place, and whether it is broken. -/
def Tree.Shows (margin column : Nat) (names : Naming) (tree : Tree) (place : Position)
    (sub : Tree) (broken : Bool) : Prop :=
  ∃ line ∈ tree.laidOutLines margin names column,
    line.place = place ∧ line.tree = sub ∧ line.broken = broken

theorem Tree.fitsAt_node_nil :
    (Tree.node label children).FitsAt margin column names [] ↔
      (Tree.node label children).Fits margin column names := by
  rw [Fits, Width.add_eq_mod]
  constructor
  · rintro ⟨_, _, hsub, hfits⟩
    obtain ⟨rfl, rfl⟩ := Tree.node.inj (Option.some.inj hsub)
    exact hfits
  · intro hfits
    exact ⟨label, children, rfl, hfits⟩

/-- One level down the column is two further in. -/
theorem Tree.fitsAt_node_cons :
    (Tree.node label children).FitsAt margin column names (index :: place) ↔
      ∃ child, children[index]? = some child ∧
        child.FitsAt margin (Width.add column 2) (names.below index) place := by
  unfold FitsAt
  rw [get?_node_cons, Width.add_eq_mod]
  constructor
  · rintro ⟨head, inner, hsub, hfits⟩
    obtain ⟨child, hchild, hget⟩ := Option.bind_eq_some_iff.mp hsub
    exact ⟨child, hchild, head, inner, hget, hfits⟩
  · rintro ⟨child, hchild, head, inner, hget, hfits⟩
    exact ⟨head, inner, Option.bind_eq_some_iff.mpr ⟨child, hchild, hget⟩, hfits⟩

theorem Tree.fitsWithin_iff :
    tree.FitsWithin margin column names place ↔
      tree.FitsAbove margin column names place ∨ tree.FitsAt margin column names place := by
  constructor
  · rintro ⟨above, habove, hfits⟩
    by_cases heq : above = place
    · exact .inr (heq ▸ hfits)
    · exact .inl ⟨above, habove, heq, hfits⟩
  · rintro (⟨above, habove, -, hfits⟩ | hfits)
    · exact ⟨above, habove, hfits⟩
    · exact ⟨place, List.prefix_rfl, hfits⟩

theorem Tree.not_fitsAbove_nil : ¬ tree.FitsAbove margin column names [] := by
  rintro ⟨above, habove, hne, -⟩
  exact hne (List.prefix_nil.mp habove)

theorem Tree.fitsAbove_concat_iff :
    tree.FitsAbove margin column names (place ++ [index]) ↔
      tree.FitsWithin margin column names place := by
  constructor
  · rintro ⟨above, habove, hne, hfits⟩
    rcases List.prefix_concat_iff.mp habove with heq | hprefix
    · exact absurd heq hne
    · exact ⟨above, hprefix, hfits⟩
  · rintro ⟨above, habove, hfits⟩
    refine ⟨above, habove.trans (List.prefix_append place [index]), ?_, hfits⟩
    rintro rfl
    have hlength := habove.length_le
    rw [List.length_append, List.length_singleton] at hlength
    omega

theorem Tree.fitsAbove_node_cons :
    (Tree.node label children).FitsAbove margin column names (index :: place) ↔
      (Tree.node label children).Fits margin column names ∨
        ∃ child, children[index]? = some child ∧
          child.FitsAbove margin (Width.add column 2) (names.below index) place := by
  constructor
  · rintro ⟨above, habove, hne, hfits⟩
    cases above with
    | nil => exact .inl (fitsAt_node_nil.mp hfits)
    | cons first inside =>
      obtain ⟨rfl, hinside⟩ := List.cons_prefix_cons.mp habove
      obtain ⟨child, hchild, hfitsChild⟩ := fitsAt_node_cons.mp hfits
      have hother : inside ≠ place := fun heq => hne (congrArg (first :: ·) heq)
      exact .inr ⟨child, hchild, inside, hinside, hother, hfitsChild⟩
  · rintro (hfits | ⟨child, hchild, inside, hinside, hne, hfits⟩)
    · exact ⟨[], List.nil_prefix, (List.cons_ne_nil index place).symm, fitsAt_node_nil.mpr hfits⟩
    · refine ⟨index :: inside, List.cons_prefix_cons.mpr ⟨rfl, hinside⟩, ?_, ?_⟩
      · exact fun heq => hne (List.cons.inj heq).2
      · exact fitsAt_node_cons.mpr ⟨child, hchild, hfits⟩

theorem Tree.shows_leaf_iff {text : String} :
    (Tree.leaf text).Shows margin column names place sub broken ↔
      place = [] ∧ sub = .leaf text ∧ broken = false := by
  simp only [Shows, laidOutLines, List.mem_singleton, exists_eq_left, eq_comm]

/-- A node that fits has the one line of its own. -/
theorem Tree.shows_fitting_iff (h : (Tree.node label children).Fits margin column names) :
    (Tree.node label children).Shows margin column names place sub broken ↔
      place = [] ∧ sub = .node label children ∧ broken = false := by
  simp only [Shows, laidOutLines, if_pos h, List.mem_singleton, exists_eq_left, eq_comm]

/-- A node that does not fit is broken, and its other lines are those of its children. -/
theorem Tree.shows_broken_iff (h : ¬ (Tree.node label children).Fits margin column names) :
    (Tree.node label children).Shows margin column names place sub broken ↔
      (place = [] ∧ sub = .node label children ∧ broken = true) ∨
        ∃ index rest child, place = index :: rest ∧ children[index]? = some child ∧
          child.Shows margin (Width.add column 2) (names.below index) rest sub broken := by
  rw [Shows, laidOutLines, if_neg h, exists_mem_closeLast_iff fun line => Iff.rfl,
    List.exists_mem_cons_iff]
  apply or_congr
  · simp only [eq_comm]
  · constructor
    · rintro ⟨line, hmem, rfl, hsub, hbroken⟩
      obtain ⟨index, child, inside, hchild, hinside, rfl⟩ := Forest.mem_laidOutLines_iff.mp hmem
      rw [Nat.zero_add] at hinside ⊢
      exact ⟨index, inside.place, child, rfl, hchild, inside, hinside, rfl, hsub, hbroken⟩
    · rintro ⟨index, rest, child, rfl, hchild, inside, hinside, rfl, hsub, hbroken⟩
      refine ⟨inside.below index, ?_, rfl, hsub, hbroken⟩
      apply Forest.mem_laidOutLines_iff.mpr
      rw [← Nat.zero_add index] at hinside
      exact ⟨index, child, inside, hchild, hinside, by rw [Nat.zero_add]⟩

/-- A subtree has a line of its own if no node above it fits, and on this line it is broken if it is
a node that does not fit either. -/
theorem Tree.shows_iff :
    tree.Shows margin column names place sub broken ↔
      tree.get? place = some sub ∧ ¬ tree.FitsAbove margin column names place ∧
        (broken = true ↔ (∃ label children, sub = .node label children) ∧
          ¬ tree.FitsAt margin column names place) := by
  induction place generalizing tree names column with
  | nil =>
    have hget : tree.get? [] = some sub ↔ sub = tree := by
      rw [get?, Option.some_inj, eq_comm]
    rw [hget]
    cases tree with
    | leaf text =>
      rw [shows_leaf_iff]
      constructor
      · rintro ⟨-, rfl, rfl⟩
        simp [not_fitsAbove_nil]
      · rintro ⟨rfl, -, hbroken⟩
        simpa using hbroken
    | node label children =>
      by_cases hfits : (Tree.node label children).Fits margin column names
      · rw [shows_fitting_iff hfits, fitsAt_node_nil]
        constructor
        · rintro ⟨-, rfl, rfl⟩
          simp [not_fitsAbove_nil, hfits]
        · rintro ⟨rfl, -, hbroken⟩
          simpa [hfits] using hbroken
      · rw [shows_broken_iff hfits, fitsAt_node_nil]
        constructor
        · rintro (⟨-, rfl, rfl⟩ | ⟨index, rest, child, heq, -⟩)
          · simp [not_fitsAbove_nil, hfits]
          · cases heq
        · rintro ⟨rfl, -, hbroken⟩
          exact .inl ⟨rfl, rfl, by simpa [hfits] using hbroken⟩
  | cons index rest ih =>
    cases tree with
    | leaf text =>
      rw [shows_leaf_iff, get?_leaf_cons]
      simp
    | node label children =>
      rw [get?_node_cons, fitsAbove_node_cons, fitsAt_node_cons]
      by_cases hfits : (Tree.node label children).Fits margin column names
      · rw [shows_fitting_iff hfits]
        simp [hfits]
      · rw [shows_broken_iff hfits]
        cases hchild : children[index]? with
        | none => simp [hchild]
        | some child => simp [hchild, hfits, ih]

/-- A line stands for a subtree under broken nodes, and is broken itself if it has to be. -/
theorem Tree.line_stands {line : Line} (h : line ∈ tree.laidOutLines margin names column) :
    tree.get? line.place = some line.tree ∧ ¬ tree.FitsAbove margin column names line.place ∧
      (line.broken = true ↔ (∃ label children, line.tree = .node label children) ∧
        ¬ tree.FitsAt margin column names line.place) := by
  have hshows : tree.Shows margin column names line.place line.tree line.broken :=
    ⟨line, h, rfl, rfl, rfl⟩
  rwa [shows_iff] at hshows

/-- Where nothing above fits there is a line, and it is broken if it has to be. -/
theorem Tree.exists_line (hget : tree.get? place = some sub)
    (habove : ¬ tree.FitsAbove margin column names place) :
    ∃ line ∈ tree.laidOutLines margin names column, line.place = place ∧
      (line.broken = true ↔ (∃ label children, sub = .node label children) ∧
        ¬ tree.FitsAt margin column names place) := by
  by_cases hkind : (∃ label children, sub = .node label children) ∧
      ¬ tree.FitsAt margin column names place
  · obtain ⟨line, hmem, hplace, -, hbroken⟩ :=
      shows_iff.mpr ⟨hget, habove, iff_of_true rfl hkind⟩
    exact ⟨line, hmem, hplace, iff_of_true hbroken hkind⟩
  · obtain ⟨line, hmem, hplace, -, hwhole⟩ :=
      shows_iff.mpr ⟨hget, habove, iff_of_false Bool.false_ne_true hkind⟩
    exact ⟨line, hmem, hplace, iff_of_false (Bool.eq_false_iff.mp hwhole) hkind⟩

/-- A node is broken exactly if there is no room for it, nor for any node that it stands in. -/
theorem Tree.exists_broken_line_iff :
    (∃ line ∈ tree.laidOutLines margin names column, line.place = place ∧ line.broken = true) ↔
      (∃ label children, tree.get? place = some (.node label children)) ∧
        ¬ tree.FitsWithin margin column names place := by
  rw [fitsWithin_iff, not_or]
  constructor
  · rintro ⟨line, hmem, rfl, hbroken⟩
    obtain ⟨hget, habove, hkind⟩ := line_stands hmem
    obtain ⟨⟨label, children, heq⟩, hfits⟩ := hkind.mp hbroken
    exact ⟨⟨label, children, heq ▸ hget⟩, habove, hfits⟩
  · rintro ⟨⟨label, children, hget⟩, habove, hfits⟩
    obtain ⟨line, hmem, hplace, hkind⟩ := exists_line hget habove
    exact ⟨line, hmem, hplace, hkind.mpr ⟨⟨label, children, rfl⟩, hfits⟩⟩

/-- Each child of a broken node has a line of its own. -/
theorem Tree.exists_child_line (hget : tree.get? place = some (.node label children))
    (hfits : ¬ tree.FitsWithin margin column names place) (hindex : index < children.length) :
    ∃ line ∈ tree.laidOutLines margin names column, line.place = place ++ [index] := by
  have hchild : tree.get? (place ++ [index]) = some children[index] := by
    rw [get?_concat_node hget, List.getElem?_eq_getElem hindex]
  obtain ⟨line, hmem, hplace, -⟩ := exists_line hchild (mt fitsAbove_concat_iff.mp hfits)
  exact ⟨line, hmem, hplace⟩

/-- What stands above a line is broken. -/
theorem Tree.exists_parent_line {line : Line} (h : line ∈ tree.laidOutLines margin names column)
    (hplace : line.place = place ++ [index]) :
    ∃ above ∈ tree.laidOutLines margin names column, above.place = place ∧ above.broken = true := by
  obtain ⟨hget, habove, -⟩ := line_stands h
  rw [hplace] at hget habove
  exact exists_broken_line_iff.mpr
    ⟨exists_node_of_get?_concat hget, mt fitsAbove_concat_iff.mpr habove⟩

/-- Of the nodes on the way to a place that fit, the highest has no other above it. -/
theorem Tree.FitsWithin.exists_highest (h : tree.FitsWithin margin column names place) :
    ∃ above, above <+: place ∧ tree.FitsAt margin column names above ∧
      ¬ tree.FitsAbove margin column names above := by
  induction place using List.reverseRecOn with
  | nil =>
    obtain ⟨above, habove, hfits⟩ := h
    obtain rfl := List.prefix_nil.mp habove
    exact ⟨[], List.prefix_rfl, hfits, not_fitsAbove_nil⟩
  | append_singleton place index ih =>
    by_cases hhigher : tree.FitsAbove margin column names (place ++ [index])
    · obtain ⟨above, habove, hfits⟩ := ih (fitsAbove_concat_iff.mp hhigher)
      exact ⟨above, habove.trans (List.prefix_append place [index]), hfits⟩
    · have hfits := (fitsWithin_iff.mp h).resolve_left hhigher
      exact ⟨place ++ [index], List.prefix_rfl, hfits, hhigher⟩

theorem Tree.fitsAt_of_whole_line {line : Line} (h : line ∈ tree.laidOutLines margin names column)
    (hwhole : line.broken = false) (hnode : line.tree = .node label children) :
    tree.FitsAt margin column names line.place := by
  obtain ⟨-, -, hkind⟩ := line_stands h
  by_contra hfits
  have hbroken := hkind.mpr ⟨⟨label, children, hnode⟩, hfits⟩
  rw [hwhole] at hbroken
  cases hbroken

/-- A subtree stands inside the unbroken form of a line exactly if it is a leaf, or if there is room
for it or for a node that it stands in. -/
theorem Tree.exists_whole_line_iff (hget : tree.get? place = some sub) :
    (∃ line ∈ tree.laidOutLines margin names column, line.broken = false ∧ line.place <+: place) ↔
      (∃ text, sub = .leaf text) ∨ tree.FitsWithin margin column names place := by
  constructor
  · rintro ⟨line, hmem, hwhole, rest, rfl⟩
    obtain ⟨hline, -, -⟩ := line_stands hmem
    rw [get?_append, hline, Option.bind_some] at hget
    cases htree : line.tree with
    | leaf text =>
      rw [htree] at hget
      cases rest with
      | nil => exact .inl ⟨text, (Option.some.inj hget).symm⟩
      | cons index rest => cases hget
    | node label children =>
      have hfits := fitsAt_of_whole_line hmem hwhole htree
      exact .inr ⟨line.place, List.prefix_append line.place rest, hfits⟩
  · intro h
    by_cases hwithin : tree.FitsWithin margin column names place
    · obtain ⟨above, hprefix, hfits, hhighest⟩ := hwithin.exists_highest
      have ⟨label, children, hnode, _⟩ := hfits
      obtain ⟨line, hmem, rfl, hkind⟩ := exists_line hnode hhighest
      exact ⟨line, hmem, Bool.eq_false_iff.mpr fun hbroken => (hkind.mp hbroken).2 hfits, hprefix⟩
    · obtain ⟨text, rfl⟩ := h.resolve_right hwithin
      obtain ⟨line, hmem, rfl, hkind⟩ :=
        exists_line hget fun habove => hwithin (fitsWithin_iff.mpr (.inl habove))
      refine ⟨line, hmem, Bool.eq_false_iff.mpr fun hbroken => ?_, List.prefix_rfl⟩
      obtain ⟨⟨label, children, heq⟩, -⟩ := hkind.mp hbroken
      cases heq

end TreeFigure
