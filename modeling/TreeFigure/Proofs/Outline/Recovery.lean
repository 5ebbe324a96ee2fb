import TreeFigure.Proofs.Outline.Lines
import TreeFigure.Proofs.Text.Runs

/-!
Reading an outline back. All lines below a subtree begin at its margin, and what follows them does
not, so it is plain where they end even if texts look like branches. Hence two trees with one
outline have the same shape and show the same texts.
-/

namespace TreeFigure

open Outline

/-- Both trees have the same places and show the same there. -/
def Tree.LooksLike (tree other : Tree) : Prop :=
  ∀ place, (tree.get? place).map heading = (other.get? place).map heading

/-- What stands at a margin begins with it. This text does not, unless it is empty. -/
def Outline.Outside (margin text : List Char) : Prop :=
  margin <+: text → text = []

section LooksLike

variable {tree other : Tree} {trees others : Forest}

theorem Forest.map_heading_of_looksLike (h : List.Forall₂ Tree.LooksLike trees others)
    (index : Nat) (place : Position) :
    (trees[index]?.bind fun tree => tree.get? place).map heading =
      (others[index]?.bind fun tree => tree.get? place).map heading := by
  induction h generalizing index with
  | nil => rfl
  | cons hfirst _ ih =>
    cases index with
    | zero => exact hfirst place
    | succ index => exact ih index

theorem Tree.looksLike_of_children (hheading : heading tree = heading other)
    (hchildren : List.Forall₂ LooksLike tree.children other.children) : LooksLike tree other := by
  intro place
  cases place with
  | nil =>
    have hroot (sub : Tree) : sub.get? [] = some sub := rfl
    rw [hroot, hroot, Option.map_some, Option.map_some, hheading]
  | cons index place =>
    rw [get?_cons, get?_cons]
    exact Forest.map_heading_of_looksLike hchildren index place

end LooksLike

section Margins

variable {margin rest more : List Char} {trees others : Forest}

theorem Outline.length_branch (isLast : Bool) : (branch isLast).length = 4 := by
  cases isLast <;> rfl

theorem Outline.length_trunk (isLast : Bool) : (trunk isLast).length = 4 := by
  cases isLast <;> rfl

theorem Outline.branch_inj {isLast other : Bool} {left right : List Char}
    (h : branch isLast ++ left = branch other ++ right) : isLast = other ∧ left = right := by
  have hlength := (length_branch isLast).trans (length_branch other).symm
  obtain ⟨hbranch, hrest⟩ := List.append_inj h hlength
  refine ⟨?_, hrest⟩
  revert hbranch
  cases isLast <;> cases other <;> decide

theorem Outline.not_trunk_prefix_branch (isLast other : Bool) (text : List Char) :
    ¬ trunk isLast <+: branch other ++ text := by
  intro h
  have hlength := Nat.le_of_eq ((length_trunk isLast).trans (length_branch other).symm)
  have hstart : trunk isLast <+: branch other :=
    List.prefix_of_prefix_length_le h (List.prefix_append _ _) hlength
  revert hstart
  cases isLast <;> cases other <;> decide

theorem Forest.outline_cons_append (margin : List Char) (tree : Tree) (trees : Forest)
    (rest : List Char) :
    Forest.outline margin (tree :: trees) ++ rest =
      margin ++ (branch trees.isEmpty ++ (heading tree ++ '\n' ::
        (tree.outlineBelow (margin ++ trunk trees.isEmpty) ++
          (Forest.outline margin trees ++ rest)))) := by
  simp [Forest.outline]

/-- The lines of a forest stand at its margin. -/
theorem Outline.Outside.eq_nil (h : Outside margin (Forest.outline margin trees ++ rest)) :
    trees = [] := by
  cases trees with
  | nil => rfl
  | cons tree trees =>
    rw [Forest.outline_cons_append] at h
    have hnil := h (List.prefix_append _ _)
    simp at hnil

/-- The next lines at a margin do not stand at the margin below a child. -/
theorem Outline.Outside.deeper (h : Outside margin rest) (isLast : Bool) (trees : Forest) :
    Outside (margin ++ trunk isLast) (Forest.outline margin trees ++ rest) := by
  intro hstart
  cases trees with
  | nil => exact h ((List.prefix_append _ _).trans hstart)
  | cons tree trees =>
    rw [Forest.outline_cons_append, List.prefix_append_right_inj] at hstart
    exact absurd hstart (not_trunk_prefix_branch isLast _ _)

theorem Tree.outlineBelow_eq (tree : Tree) (margin : List Char) :
    tree.outlineBelow margin = Forest.outline margin tree.children := by
  cases tree with
  | leaf text => rfl
  | node label children => rfl

end Margins

section Recovery

variable {tree other : Tree} {trees others : Forest} {margin rest more : List Char}

/-- The text of a heading ends where its line ends. -/
theorem Outline.heading_inj (htree : ∀ text ∈ tree.texts, '\n' ∉ text.toList)
    (hother : ∀ text ∈ other.texts, '\n' ∉ text.toList)
    (h : heading tree ++ '\n' :: rest = heading other ++ '\n' :: more) :
    heading tree = heading other ∧ rest = more := by
  have hinside {sub : Tree} (hsub : ∀ text ∈ sub.texts, '\n' ∉ text.toList) :
      ∀ c ∈ heading sub, (c != '\n') = true := by
    intro c hmem
    rw [bne_iff_ne]
    rintro rfl
    exact lineEnd_notMem_heading hsub hmem
  have hend (after : List Char) : ¬ Text.Begins (· != '\n') ('\n' :: after) := by simp
  obtain ⟨hheading, hafter⟩ :=
    Text.append_inj_of_run (hinside htree) (hinside hother) (hend rest) (hend more) h
  exact ⟨hheading, (List.cons.inj hafter).2⟩

/-- The lines below a subtree determine what they show and where they end. -/
def Tree.Recovers (tree : Tree) : Prop :=
  ∀ (other : Tree) (margin rest more : List Char),
    (∀ text ∈ tree.texts, '\n' ∉ text.toList) → (∀ text ∈ other.texts, '\n' ∉ text.toList) →
    Outside margin rest → Outside margin more →
    tree.outlineBelow margin ++ rest = other.outlineBelow margin ++ more →
    List.Forall₂ LooksLike tree.children other.children ∧ rest = more

theorem Forest.recovers (h : ∀ tree ∈ trees, tree.Recovers)
    (htrees : ∀ tree ∈ trees, ∀ text ∈ tree.texts, '\n' ∉ text.toList)
    (hothers : ∀ other ∈ others, ∀ text ∈ other.texts, '\n' ∉ text.toList)
    (hrest : Outside margin rest) (hmore : Outside margin more)
    (heq : Forest.outline margin trees ++ rest = Forest.outline margin others ++ more) :
    List.Forall₂ Tree.LooksLike trees others ∧ rest = more := by
  induction trees generalizing others with
  | nil =>
    have hsame : rest = Forest.outline margin others ++ more := heq
    rw [hsame] at hrest
    obtain rfl := hrest.eq_nil
    exact ⟨List.Forall₂.nil, hsame⟩
  | cons tree trees ih =>
    cases others with
    | nil =>
      have hsame : Forest.outline margin (tree :: trees) ++ rest = more := heq
      rw [← hsame] at hmore
      exact absurd hmore.eq_nil (List.cons_ne_nil tree trees)
    | cons other others =>
      rw [List.forall_mem_cons] at h htrees hothers
      rw [Forest.outline_cons_append, Forest.outline_cons_append, List.append_cancel_left_eq] at heq
      obtain ⟨hlast, hlines⟩ := branch_inj heq
      obtain ⟨hheading, hbelow⟩ := heading_inj htrees.1 hothers.1 hlines
      rw [← hlast] at hbelow
      obtain ⟨hchildren, hnext⟩ := h.1 other _ _ _ htrees.1 hothers.1
        (hrest.deeper trees.isEmpty trees) (hmore.deeper trees.isEmpty others) hbelow
      obtain ⟨hsiblings, hend⟩ := ih h.2 htrees.2 hothers.2 hnext
      exact ⟨.cons (Tree.looksLike_of_children hheading hchildren) hsiblings, hend⟩

theorem Tree.recovers_of_children (h : ∀ child ∈ tree.children, child.Recovers) :
    tree.Recovers := by
  intro other margin rest more htexts hothers hrest hmore heq
  rw [outlineBelow_eq, outlineBelow_eq] at heq
  exact Forest.recovers h (forall_mem_texts_children htexts) (forall_mem_texts_children hothers)
    hrest hmore heq

theorem Tree.recovers (tree : Tree) : tree.Recovers := by
  induction tree with
  | leaf text => exact recovers_of_children fun _ hmem => absurd hmem List.not_mem_nil
  | node label children ih => exact recovers_of_children ih

/-- Trees with one outline look alike, whatever their texts imitate. -/
theorem Tree.looksLike_of_outline_eq (htree : ∀ text ∈ tree.texts, '\n' ∉ text.toList)
    (hother : ∀ text ∈ other.texts, '\n' ∉ text.toList) (h : tree.outline = other.outline) :
    LooksLike tree other := by
  have hlines := congrArg String.toList h
  rw [outline, outline, String.toList_ofList, String.toList_ofList] at hlines
  obtain ⟨hheading, hbelow⟩ := heading_inj htree hother hlines
  have houtside : Outside [] [] := fun _ => rfl
  have hempty : tree.outlineBelow [] ++ [] = other.outlineBelow [] ++ [] := by
    rw [List.append_nil, List.append_nil, hbelow]
  obtain ⟨hchildren, -⟩ := tree.recovers other [] [] [] htree hother houtside houtside hempty
  exact looksLike_of_children hheading hchildren

/-- An outline has one line for each subtree, in reading order: a group of four characters for each
level, which tells the last children, and then the text or the sign for a missing label. The lines
determine the shape of the tree and all that it shows. -/
theorem Tree.outline_shows_subtrees_in_preorder (tree : Tree)
    (h : ∀ text ∈ tree.texts, '\n' ∉ text.toList) :
    (∀ place, place ∈ tree.places ↔ (tree.get? place).isSome) ∧
      tree.places.Pairwise (· < ·) ∧
      Text.pieces (· == '\n') tree.outline.toList = tree.places.map tree.outlineLine ++ [[]] ∧
      (∀ place sub, tree.get? place = some sub →
        tree.outlineLine place =
            (List.range place.length).flatMap (tree.outlineGroup place) ++ heading sub ∧
          ∀ level, (tree.outlineGroup place level).length = 4) ∧
      ∀ other : Tree, (∀ text ∈ other.texts, '\n' ∉ text.toList) → tree.outline = other.outline →
        LooksLike tree other := by
  refine ⟨fun place => mem_places_iff, pairwise_placesWhere _ tree, ?_, ?_, ?_⟩
  · have hlines : ∀ line ∈ tree.places.map tree.outlineLine, '\n' ∉ line := by
      intro line hmem
      obtain ⟨place, -, rfl⟩ := List.mem_map.mp hmem
      exact lineEnd_notMem_outlineLine h place
    have hpieces := Text.pieces_flatMap_concat hlines []
    rwa [List.flatMap_map, List.append_nil, ← toList_outline] at hpieces
  · intro place sub hsub
    refine ⟨?_, length_outlineGroup tree place⟩
    rw [outlineLine, hsub]
    rfl
  · exact fun other hother heq => looksLike_of_outline_eq h hother heq

/-- A leaf that imitates a branch is not taken for a node without a label. -/
theorem Tree.outline_shows_subtrees_in_preorder_imitated :
    Text.pieces (· == '\n') (Tree.node "" [.node "a" [.leaf "b"], .leaf "└── b"]).outline.toList =
        ["∅".toList, "├── a".toList, "│   └── b".toList, "└── └── b".toList, []] ∧
      (Tree.node "" [.node "a" [.leaf "b"], .leaf "└── b"]).outline ≠
        (Tree.node "" [.node "a" [.leaf "b"], .node "" [.leaf "b"]]).outline := by
  have hshown := Tree.outline_shows_subtrees_in_preorder
    (.node "" [.node "a" [.leaf "b"], .leaf "└── b"]) (by decide)
  obtain ⟨-, -, hlines, -, hdetermined⟩ := hshown
  refine ⟨hlines.trans (by decide), fun heq => ?_⟩
  exact absurd (hdetermined _ (by decide) heq [1]) (by decide)

end Recovery

end TreeFigure
