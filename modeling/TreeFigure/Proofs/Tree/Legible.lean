import TreeFigure.Proofs.Literal.Hiding
import TreeFigure.Proofs.Text.Joining
import TreeFigure.Proofs.Tree.Canonical
import TreeFigure.Proofs.Tree.Texts

/-!
Trees whose texts can be told apart in a line: no text holds a blank and no leaf is empty. Every
tree that was read is one, also with literals protected.
-/

namespace TreeFigure

open Text Grammar LiteralTable

/-- No label and no leaf holds a blank, and no leaf is empty. -/
structure Tree.Legible (tree : Tree) : Prop where
  noBlank : ∀ text ∈ tree.texts, ∀ c ∈ text.toList, isBlank c = false
  noEmptyLeaf : "" ∉ tree.leaves

namespace Tree

theorem legible_leaf_iff {text : String} : Legible (.leaf text) ↔ IsToken text.toList := by
  constructor
  · intro h
    refine ⟨?_, h.noBlank text List.mem_cons_self⟩
    intro hnil
    apply h.noEmptyLeaf
    rw [leaves, List.mem_singleton]
    exact (String.toList_eq_nil_iff.mp hnil).symm
  · rintro ⟨hne, hblank⟩
    refine ⟨?_, ?_⟩
    · intro other hmem
      rw [List.mem_singleton.mp hmem]
      exact hblank
    · intro hmem
      rw [← List.mem_singleton.mp hmem] at hne
      exact hne rfl

theorem legible_node_iff {label : String} {children : Forest} :
    Legible (.node label children) ↔
      (∀ c ∈ label.toList, isBlank c = false) ∧ ∀ child ∈ children, child.Legible := by
  have hleaves : (node label children).leaves = children.flatMap leaves :=
    Forest.leaves_eq_flatMap children
  constructor
  · intro h
    obtain ⟨hlabel, htexts⟩ := forall_mem_texts_node.mp h.noBlank
    refine ⟨hlabel, ?_⟩
    intro child hmem
    refine ⟨htexts child hmem, ?_⟩
    intro hempty
    apply h.noEmptyLeaf
    rw [hleaves]
    exact List.mem_flatMap.mpr ⟨child, hmem, hempty⟩
  · rintro ⟨hlabel, hchildren⟩
    refine ⟨?_, ?_⟩
    · exact forall_mem_texts_node.mpr ⟨hlabel, fun child hmem => (hchildren child hmem).noBlank⟩
    · intro hempty
      rw [hleaves] at hempty
      obtain ⟨child, hin, hmem⟩ := List.mem_flatMap.mp hempty
      exact (hchildren child hin).noEmptyLeaf hmem

end Tree

theorem Text.IsWord.isToken {word : List Char} (h : IsWord word) : IsToken word :=
  ⟨h.1, fun c hc => isBlank_eq_false_of_isInner (h.2 c hc)⟩

namespace Tree

theorem Canonical.legible {tree : Tree} (h : tree.Canonical) : tree.Legible := by
  induction tree with
  | leaf text =>
    cases h with
    | leaf hword => exact legible_leaf_iff.mpr hword.isToken
  | node label children ih =>
    cases h with
    | node hlabel hfirst hchildren =>
      exact legible_node_iff.mpr ⟨fun c hc => isBlank_eq_false_of_isInner (hlabel c hc),
        fun child hmem => ih child hmem (hchildren child hmem)⟩

/-- A tree that was read is legible. -/
theorem Legible.of_parse {text : String} {tree : Tree} (h : parse text = .ok tree) :
    tree.Legible :=
  (Canonical.of_parse h).1.legible

theorem isToken_shownChar (c : Char) (h : isBlank c = false) : IsToken (shownChar c) := by
  unfold shownChar
  split
  case isTrue => decide
  case isFalse =>
    split
    case isTrue => decide
    case isFalse => simp [IsToken, h]

/-- Showing the literals of a text makes no blank and leaves no text empty. -/
theorem Legible.mapText_reveal {tree : Tree} (h : tree.Legible) :
    (tree.mapText brackets.reveal).Legible := by
  refine ⟨?_, ?_⟩
  · intro text hmem c hc
    rw [texts_mapText] at hmem
    obtain ⟨origin, horigin, rfl⟩ := List.mem_map.mp hmem
    rw [toList_reveal_brackets] at hc
    obtain ⟨d, hd, hc⟩ := List.mem_flatMap.mp hc
    exact (isToken_shownChar d (h.noBlank origin horigin d hd)).2 c hc
  · intro hmem
    rw [leaves_mapText] at hmem
    obtain ⟨origin, horigin, hempty⟩ := List.mem_map.mp hmem
    have hnil : origin.toList.flatMap shownChar = [] := by
      rw [← toList_reveal_brackets, hempty]
      rfl
    cases horiginal : origin.toList with
    | nil =>
      apply h.noEmptyLeaf
      rwa [← String.toList_eq_nil_iff.mp horiginal]
    | cons d rest =>
      rw [horiginal, List.flatMap_cons] at hnil
      have hshown := (List.append_eq_nil_iff.mp hnil).1
      unfold shownChar at hshown
      split at hshown
      · cases hshown
      · split at hshown <;> cases hshown

theorem Legible.of_parseWith {text : String} {tree : Tree}
    (h : parseWith .brackets text = .ok tree) : tree.Legible := by
  obtain ⟨-, found, hfound, rfl⟩ := parseWith_eq_ok_iff.mp h
  exact (Legible.of_parse hfound).mapText_reveal

end Tree

end TreeFigure
