import Mathlib.Data.Finset.Dedup
import Mathlib.Data.Finset.Max
import TreeFigure.Proofs.Tree.LeafPositions

/-!
The height of a tree counts the levels down to its deepest subtree. This need not be a leaf: a node
without children can lie deeper than every leaf, and then the height exceeds the longest way from
the root to a leaf.
-/

namespace TreeFigure.Tree

variable {tree sub : Tree} {place : Position}

/-- A subtree stands at this place and none stands at a longer one. -/
structure Deepest (tree : Tree) (place : Position) : Prop where
  stands : (tree.get? place).isSome
  length_le : ∀ other, (tree.get? other).isSome → other.length ≤ place.length

/-- A leaf stands at this place and none stands at a longer one. -/
structure LongestLeaf (tree : Tree) (place : Position) : Prop where
  mem : place ∈ tree.leafPositions
  length_le : ∀ other ∈ tree.leafPositions, other.length ≤ place.length

/-- On the way down to a subtree each step costs one level at least. -/
theorem length_add_height_le (h : tree.get? place = some sub) :
    place.length + sub.height ≤ tree.height := by
  induction place generalizing tree with
  | nil =>
    obtain rfl := Option.some.inj h
    exact Nat.le_of_eq (Nat.zero_add _)
  | cons index rest ih =>
    cases tree with
    | leaf text => cases h
    | node label children =>
      rw [get?_node_cons] at h
      obtain ⟨child, hchild, hsub⟩ := Option.bind_eq_some_iff.mp h
      have hinside := ih hsub
      have hmost := (Forest.height_le_iff children _).mp (Nat.le_refl _) child
        (List.mem_of_getElem? hchild)
      rw [height, List.length_cons]
      omega

theorem one_le_height (tree : Tree) : 1 ≤ tree.height := by
  cases tree with
  | leaf text => exact Nat.le_refl 1
  | node label children => exact Nat.le_add_right 1 _

theorem length_lt_height (h : (tree.get? place).isSome) : place.length < tree.height := by
  obtain ⟨sub, hsub⟩ := Option.isSome_iff_exists.mp h
  have hle := length_add_height_le hsub
  have hone := sub.one_le_height
  omega

/-- Always going down to a highest child uses up the height and ends where nothing is below. -/
theorem exists_length_eq_height (tree : Tree) :
    ∃ place sub, tree.get? place = some sub ∧ sub.children = [] ∧
      tree.height = 1 + place.length := by
  induction tree with
  | leaf text => exact ⟨[], .leaf text, rfl, rfl, rfl⟩
  | node label children ih =>
    by_cases hne : children = []
    · subst hne
      exact ⟨[], .node label [], rfl, rfl, rfl⟩
    · obtain ⟨child, hmem, hmost⟩ :=
        children.toFinset.exists_max_image height (List.toFinset_nonempty_iff _ |>.mpr hne)
      rw [List.mem_toFinset] at hmem
      have hle : Forest.height children ≤ child.height :=
        (Forest.height_le_iff children _).mpr fun other hother =>
          hmost other (List.mem_toFinset.mpr hother)
      have hge := (Forest.height_le_iff children _).mp (Nat.le_refl _) child hmem
      obtain ⟨place, sub, hsub, hends, hheight⟩ := ih child hmem
      obtain ⟨index, hindex⟩ := List.mem_iff_getElem?.mp hmem
      refine ⟨index :: place, sub, ?_, hends, ?_⟩
      · rw [get?_node_cons, hindex, Option.bind_some, hsub]
      · rw [height, List.length_cons]
        omega

/-- The deepest place is one level less than the height below the root, and some subtree that
stands so deep has nothing below. -/
theorem exists_deepest (tree : Tree) :
    ∃ place sub, tree.Deepest place ∧ tree.get? place = some sub ∧ sub.children = [] ∧
      tree.height = 1 + place.length := by
  obtain ⟨place, sub, hsub, hends, hheight⟩ := tree.exists_length_eq_height
  refine ⟨place, sub, ⟨Option.isSome_iff_exists.mpr ⟨sub, hsub⟩, ?_⟩, hsub, hends, hheight⟩
  intro other hother
  have hlt := length_lt_height hother
  omega

theorem Deepest.height_eq (h : tree.Deepest place) : tree.height = 1 + place.length := by
  obtain ⟨other, sub, hother, -, -, hheight⟩ := tree.exists_deepest
  have hle := h.length_le other hother.stands
  have hge := hother.length_le place h.stands
  omega

theorem exists_longestLeaf (h : tree.leaves ≠ []) : ∃ place, tree.LongestLeaf place := by
  have hne : tree.leafPositions ≠ [] := by
    rw [← List.length_pos_iff, tree.length_leafPositions, List.length_pos_iff]
    exact h
  obtain ⟨place, hmem, hmost⟩ := tree.leafPositions.toFinset.exists_max_image List.length
    (List.toFinset_nonempty_iff _ |>.mpr hne)
  exact ⟨place, List.mem_toFinset.mp hmem, fun other hother =>
    hmost other (List.mem_toFinset.mpr hother)⟩

theorem LongestLeaf.isSome_get? (h : tree.LongestLeaf place) : (tree.get? place).isSome := by
  obtain ⟨text, hleaf⟩ := mem_leafPositions_iff.mp h.mem
  exact Option.isSome_iff_exists.mpr ⟨_, hleaf⟩

/-- Only a leaf that is a deepest subtree is as deep as the tree is high. -/
theorem LongestLeaf.height_eq_iff (h : tree.LongestLeaf place) :
    tree.height = 1 + place.length ↔
      ∃ deep text, tree.Deepest deep ∧ tree.get? deep = some (.leaf text) := by
  constructor
  · intro hheight
    obtain ⟨text, hleaf⟩ := mem_leafPositions_iff.mp h.mem
    refine ⟨place, text, ⟨h.isSome_get?, ?_⟩, hleaf⟩
    intro other hother
    have hlt := length_lt_height hother
    omega
  · rintro ⟨deep, text, hdeep, hleaf⟩
    have hle := h.length_le deep (mem_leafPositions_iff.mpr ⟨text, hleaf⟩)
    have hge := hdeep.length_le place h.isSome_get?
    rw [hdeep.height_eq]
    omega

/-- The height is one more than the length of the longest place in the tree. So it exceeds the
length of the longest leaf position, and by more than one exactly if no deepest subtree is a leaf.
If nothing but leaves is without children, some deepest subtree is a leaf. -/
theorem height_eq_deepest (tree : Tree) :
    (∃ place, tree.Deepest place) ∧
    (∀ place, tree.Deepest place → tree.height = 1 + place.length) ∧
    (tree.leaves ≠ [] → ∃ place, tree.LongestLeaf place) ∧
    ∀ longest, tree.LongestLeaf longest →
      1 + longest.length ≤ tree.height ∧
      (tree.height = 1 + longest.length ↔
        ∃ place text, tree.Deepest place ∧ tree.get? place = some (.leaf text)) ∧
      ((∀ place sub, tree.get? place = some sub → sub.children = [] → sub.isLeaf = true) →
        tree.height = 1 + longest.length) := by
  obtain ⟨deep, bottom, hdeep, hsub, hends, -⟩ := tree.exists_deepest
  refine ⟨⟨deep, hdeep⟩, fun place hplace => hplace.height_eq, exists_longestLeaf, ?_⟩
  intro longest hlongest
  refine ⟨?_, hlongest.height_eq_iff, ?_⟩
  · have hlt := length_lt_height hlongest.isSome_get?
    omega
  · intro hleaves
    have hleaf := hleaves deep bottom hsub hends
    cases bottom with
    | leaf text => exact hlongest.height_eq_iff.mpr ⟨deep, text, hdeep, hsub⟩
    | node label children => cases hleaf

/-- A node without children below the level of the only leaf, another one at the level of a leaf,
and a tree in which only leaves are without children. -/
theorem height_eq_deepest_childless :
    let high : Tree := .node "S" [.leaf "a", .node "A" [.node "" []]]
    let even : Tree := .node "S" [.node "B" [], .leaf "b"]
    let plain : Tree := .node "S" [.leaf "c"]
    (high.leaves ≠ [] ∧ high.LongestLeaf [0] ∧ high.Deepest [1, 0] ∧ high.height = 1 + 2 ∧
      ¬ ∃ place text, high.Deepest place ∧ high.get? place = some (.leaf text)) ∧
    (even.LongestLeaf [1] ∧ even.Deepest [1] ∧ even.height = 1 + 1) ∧
    (∀ place sub, plain.get? place = some sub → sub.children = [] → sub.isLeaf = true) ∧
      plain.LongestLeaf [0] ∧ plain.height = 1 + 1 := by
  intro high even plain
  have hdeep (tree : Tree) (place : Position) (hstands : (tree.get? place).isSome)
      (hplaces : ∀ other ∈ tree.places, other.length ≤ place.length) : tree.Deepest place :=
    ⟨hstands, fun other hother => hplaces other (mem_places_iff.mpr hother)⟩
  have hhigh : high.Deepest [1, 0] := hdeep _ _ rfl (by decide)
  have heven : even.Deepest [1] := hdeep _ _ rfl (by decide)
  have hfirst : high.LongestLeaf [0] := ⟨by decide, by decide⟩
  have hsecond : even.LongestLeaf [1] := ⟨by decide, by decide⟩
  have hthird : plain.LongestLeaf [0] := ⟨by decide, by decide⟩
  have hends : ∀ place sub, plain.get? place = some sub → sub.children = [] →
      sub.isLeaf = true := by
    intro place sub hsub
    have hmem : place ∈ plain.places :=
      mem_places_iff.mpr (Option.isSome_iff_exists.mpr ⟨sub, hsub⟩)
    have hplaces : plain.places = [[], [0]] := rfl
    simp only [hplaces, List.mem_cons, List.not_mem_nil, or_false] at hmem
    rcases hmem with rfl | rfl
    · obtain rfl := Option.some.inj hsub
      exact fun hnil => absurd hnil (List.cons_ne_nil _ _)
    · obtain rfl := Option.some.inj hsub
      exact fun _ => rfl
  obtain ⟨-, hheight, -, hleaf⟩ := height_eq_deepest high
  obtain ⟨-, hiff, -⟩ := hleaf [0] hfirst
  obtain ⟨-, heveniff, -⟩ := (height_eq_deepest even).2.2.2 [1] hsecond
  obtain ⟨-, -, hplain⟩ := (height_eq_deepest plain).2.2.2 [0] hthird
  refine ⟨⟨by decide, hfirst, hhigh, hheight [1, 0] hhigh, ?_⟩, ⟨hsecond, heven, ?_⟩, hends, hthird,
    hplain hends⟩
  · rw [← hiff]
    decide
  · exact heveniff.mpr ⟨[1], "b", heven, rfl⟩

end TreeFigure.Tree
