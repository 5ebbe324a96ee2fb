import Mathlib.Data.List.Basic
import TreeFigure.Tree.Bracketed
import TreeFigure.Proofs.Tree.Syntax

/-!
The labels and leaf texts of a tree. A bracketed form has no other characters but those of the
notation, two rewritings of the texts are one, and the texts of a tree that was read are pieces of
the text it was read from.
-/

namespace TreeFigure

mutual

/-- The labels and the leaf texts, each node before its children. -/
def Tree.texts : Tree → List String
  | .leaf text => [text]
  | .node label children => label :: Forest.texts children

def Forest.texts : List Tree → List String
  | [] => []
  | tree :: rest => tree.texts ++ Forest.texts rest

end

mutual

/-- The labels alone, in the same order. -/
def Tree.labels : Tree → List String
  | .leaf _ => []
  | .node label children => label :: Forest.labels children

def Forest.labels : List Tree → List String
  | [] => []
  | tree :: rest => tree.labels ++ Forest.labels rest

end

theorem Forest.labels_eq_flatMap (forest : Forest) :
    Forest.labels forest = forest.flatMap Tree.labels := by
  induction forest with
  | nil => rfl
  | cons tree rest ih => rw [Forest.labels, ih, List.flatMap_cons]

theorem Forest.texts_eq_flatMap (forest : Forest) :
    Forest.texts forest = forest.flatMap Tree.texts := by
  induction forest with
  | nil => rfl
  | cons tree rest ih => rw [Forest.texts, ih, List.flatMap_cons]

theorem Tree.mem_texts_of_mem_children {label : String} {children : Forest} {child : Tree}
    {text : String} (hmem : child ∈ children) (htext : text ∈ child.texts) :
    text ∈ (Tree.node label children).texts := by
  rw [texts, Forest.texts_eq_flatMap]
  exact List.mem_cons_of_mem label (List.mem_flatMap.mpr ⟨child, hmem, htext⟩)

theorem Tree.forall_mem_texts_node {label : String} {children : Forest} {p : String → Prop} :
    (∀ text ∈ (Tree.node label children).texts, p text) ↔
      p label ∧ ∀ child ∈ children, ∀ text ∈ child.texts, p text := by
  rw [texts, List.forall_mem_cons, Forest.texts_eq_flatMap]
  simp only [List.forall_mem_flatMap]

theorem Tree.forall_mem_texts_children {tree : Tree} {p : String → Prop}
    (h : ∀ text ∈ tree.texts, p text) :
    ∀ child ∈ tree.children, ∀ text ∈ child.texts, p text := by
  cases tree with
  | leaf text => exact fun _ hmem => absurd hmem List.not_mem_nil
  | node label children => exact (forall_mem_texts_node.mp h).2

theorem Tree.forall_mem_labels_node {label : String} {children : Forest} {p : String → Prop} :
    (∀ text ∈ (Tree.node label children).labels, p text) ↔
      p label ∧ ∀ child ∈ children, ∀ text ∈ child.labels, p text := by
  rw [labels, List.forall_mem_cons, Forest.labels_eq_flatMap]
  simp only [List.forall_mem_flatMap]

/-- The texts are the labels and the leaf texts. -/
theorem Tree.forall_mem_texts_iff {tree : Tree} {p : String → Prop} :
    (∀ text ∈ tree.texts, p text) ↔
      (∀ label ∈ tree.labels, p label) ∧ ∀ text ∈ tree.leaves, p text := by
  induction tree with
  | leaf text => simp [texts, labels, leaves]
  | node label children ih =>
    rw [forall_mem_texts_node, forall_mem_labels_node, leaves, Forest.leaves_eq_flatMap,
      List.forall_mem_flatMap, and_assoc, ← forall₂_and]
    exact and_congr_right fun _ => forall₂_congr ih

theorem Forest.bracketedChars_eq_flatMap (forest : Forest) :
    Forest.bracketedChars forest = forest.flatMap fun tree => ' ' :: tree.bracketedChars := by
  induction forest with
  | nil => rfl
  | cons tree rest ih => rw [Forest.bracketedChars, ih, List.flatMap_cons]

theorem Tree.mem_bracketedChars {tree : Tree} {c : Char} (h : c ∈ tree.bracketedChars) :
    c ∈ ['(', ' ', ')'] ∨ ∃ text ∈ tree.texts, c ∈ text.toList := by
  induction tree with
  | leaf text => exact .inr ⟨text, by simp [texts], h⟩
  | node label children ih =>
    rw [bracketedChars, Forest.bracketedChars_eq_flatMap, List.mem_append, List.cons_append,
      List.mem_cons, List.mem_append] at h
    rcases h with (rfl | hlabel | hchildren) | hclose
    · exact .inl (by simp)
    · exact .inr ⟨label, by simp [texts], hlabel⟩
    · obtain ⟨child, hmem, hc⟩ := List.mem_flatMap.mp hchildren
      rcases List.mem_cons.mp hc with rfl | hc
      · exact .inl (by simp)
      · rcases ih child hmem hc with hnotation | ⟨text, htext, hin⟩
        · exact .inl hnotation
        · exact .inr ⟨text, mem_texts_of_mem_children hmem htext, hin⟩
    · rw [List.mem_singleton.mp hclose]
      exact .inl (by simp)

theorem Tree.mapText_mapText (f g : String → String) (tree : Tree) :
    (tree.mapText f).mapText g = tree.mapText fun text => g (f text) := by
  induction tree with
  | leaf text => rfl
  | node label children ih =>
    simp only [mapText, Forest.mapText_eq_map, List.map_map, Tree.node.injEq, true_and]
    exact List.map_congr_left ih

theorem Tree.mapText_eq_self {f : String → String} {tree : Tree}
    (h : ∀ text ∈ tree.texts, f text = text) : tree.mapText f = tree := by
  induction tree with
  | leaf text => rw [mapText, h text (by simp [texts])]
  | node label children ih =>
    obtain ⟨hlabel, htexts⟩ := forall_mem_texts_node.mp h
    have hchildren : children.map (mapText f) = children.map id :=
      List.map_congr_left fun child hmem => ih child hmem (htexts child hmem)
    rw [mapText, Forest.mapText_eq_map, hchildren, List.map_id, hlabel]

theorem Tree.texts_mapText (f : String → String) (tree : Tree) :
    (tree.mapText f).texts = tree.texts.map f := by
  induction tree with
  | leaf text => rfl
  | node label children ih =>
    rw [mapText, texts, texts, Forest.mapText_eq_map, Forest.texts_eq_flatMap,
      Forest.texts_eq_flatMap, List.flatMap_map, List.map_cons, List.map_flatMap]
    congr 1
    exact List.flatMap_congr ih

/-- A rewriting that changes no text fixes every one of them. -/
theorem Tree.mapText_eq_self_iff {f : String → String} {tree : Tree} :
    tree.mapText f = tree ↔ ∀ text ∈ tree.texts, f text = text := by
  refine ⟨fun h => ?_, mapText_eq_self⟩
  have htexts : tree.texts.map f = tree.texts.map id := by
    rw [← texts_mapText, h, List.map_id]
  exact List.map_inj_left.mp htexts

theorem Tree.leaves_mapText (f : String → String) (tree : Tree) :
    (tree.mapText f).leaves = tree.leaves.map f := by
  induction tree with
  | leaf text => rfl
  | node label children ih =>
    rw [mapText, leaves, leaves, Forest.mapText_eq_map, Forest.leaves_eq_flatMap,
      Forest.leaves_eq_flatMap, List.flatMap_map, List.map_flatMap]
    exact List.flatMap_congr ih

namespace Token

/-- The label or the word of a token. -/
def content : Token → List Char
  | .opening _ label => label
  | .closing => []
  | .word text => text

theorem texts_part {left right : List Sign} (h : left <:+: right) :
    Sign.texts left <:+: Sign.texts right := by
  obtain ⟨before, after, rfl⟩ := h
  rw [Sign.texts_append, Sign.texts_append]
  exact ⟨_, _, rfl⟩

theorem content_part (offset : Nat) (signs : List Sign) :
    ∀ placed ∈ ofSigns offset signs, placed.token.content <:+: Sign.texts signs := by
  fun_induction ofSigns offset signs with
  | case1 => simp
  | case2 offset c rest ih =>
    intro placed hmem
    exact (ih placed hmem).trans (texts_part (List.suffix_cons _ rest).isInfix)
  | case3 offset rest ih =>
    intro placed hmem
    rcases List.mem_cons.mp hmem with rfl | hmem
    · exact (List.nil_suffix).isInfix
    · exact (ih placed hmem).trans (texts_part (List.suffix_cons _ rest).isInfix)
  | case4 offset text rest tail word ih =>
    have hsplit : tail ++ rest.dropWhile Sign.isPiece = rest := List.takeWhile_append_dropWhile
    intro placed hmem
    rcases List.mem_cons.mp hmem with rfl | hmem
    · have hprefix : Sign.piece text :: tail <:+: .piece text :: rest :=
        ⟨[], rest.dropWhile Sign.isPiece, by simp [hsplit]⟩
      exact texts_part hprefix
    · have hsuffix : rest.dropWhile Sign.isPiece <:+: .piece text :: rest :=
        ((List.dropWhile_suffix _).trans (List.suffix_cons _ rest)).isInfix
      exact (ih placed hmem).trans (texts_part hsuffix)
  | case5 offset rest gap inner label ih =>
    have hinner : inner <:+: .opening :: rest :=
      ((List.dropWhile_suffix _).trans (List.suffix_cons _ rest)).isInfix
    intro placed hmem
    rcases List.mem_cons.mp hmem with rfl | hmem
    · exact texts_part ((List.takeWhile_prefix _).isInfix.trans hinner)
    · exact (ih placed hmem).trans
        (texts_part ((List.dropWhile_suffix _).isInfix.trans hinner))

end Token

namespace Tree

mutual

theorem TreeTokens.exists_content {tokens : List Token.Placed} {tree : Tree}
    (h : TreeTokens tokens tree) :
    ∀ text ∈ tree.texts, ∃ placed ∈ tokens, text = String.ofList placed.token.content := by
  cases h with
  | @node start stop gap label inner children hinner =>
    intro text hmem
    rw [Tree.texts] at hmem
    rcases List.mem_cons.mp hmem with rfl | hmem
    · exact ⟨⟨start, .opening gap label⟩, by simp, rfl⟩
    · obtain ⟨placed, hplaced, htext⟩ := hinner.exists_content text hmem
      exact ⟨placed, by simp [hplaced], htext⟩

theorem ForestTokens.exists_content {tokens : List Token.Placed} {trees : Forest}
    (h : ForestTokens tokens trees) :
    ∀ text ∈ Forest.texts trees,
      ∃ placed ∈ tokens, text = String.ofList placed.token.content := by
  cases h with
  | nil => simp [Forest.texts]
  | @leaf start word rest trees hrest =>
    intro text hmem
    simp only [Forest.texts, Tree.texts, List.singleton_append] at hmem
    rcases List.mem_cons.mp hmem with rfl | hmem
    · exact ⟨⟨start, .word word⟩, by simp, rfl⟩
    · obtain ⟨placed, hplaced, htext⟩ := hrest.exists_content text hmem
      exact ⟨placed, by simp [hplaced], htext⟩
  | tree hfirst hrest =>
    intro text hmem
    rw [Forest.texts] at hmem
    rcases List.mem_append.mp hmem with hmem | hmem
    · obtain ⟨placed, hplaced, htext⟩ := hfirst.exists_content text hmem
      exact ⟨placed, by simp [hplaced], htext⟩
    · obtain ⟨placed, hplaced, htext⟩ := hrest.exists_content text hmem
      exact ⟨placed, by simp [hplaced], htext⟩

end

/-- Every label and leaf text of a tree stands in the signs it was read from. -/
theorem infix_of_ofSigns?_eq_ok {signs : List Sign} {tree : Tree}
    (h : ofSigns? signs = .ok tree) :
    ∀ text ∈ tree.texts, text.toList <:+: Sign.texts signs := by
  intro text hmem
  have htokens := (run_finish_eq_ok_iff _ _ tree).mp h
  obtain ⟨placed, hplaced, rfl⟩ := htokens.exists_content text hmem
  rw [String.toList_ofList]
  exact Token.content_part 0 signs placed hplaced

end Tree

end TreeFigure
