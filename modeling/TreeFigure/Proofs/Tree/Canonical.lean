import Mathlib.Data.List.Infix
import TreeFigure.Tree.Bracketed
import TreeFigure.Proofs.Tree.Grammar

/-!
Trees whose bracketed form is read back. The grammar derives the bracketed form of a canonical
tree, with one blank before each item and no other blanks; and it gives no other trees, so the
canonical trees with a node at the root are exactly those that are read from some text.
-/

namespace TreeFigure

open Text Grammar

/-- Every leaf is a word, every label consists of inner characters, and no leaf stands where a
missing label would take it. -/
inductive Tree.Canonical : Tree → Prop
  | leaf {text : String} (hword : IsWord text.toList) : Canonical (.leaf text)
  | node {label : String} {children : Forest} (hlabel : ∀ c ∈ label.toList, isInner c = true)
      (hfirst : label = "" → ¬ LeafFirst children)
      (hchildren : ∀ child ∈ children, Canonical child) : Canonical (.node label children)

namespace Tree

theorem itemsText_bracketedChars {children : Forest}
    (hchildren : ∀ child ∈ children, child.Canonical)
    (htexts : ∀ child ∈ children, ∀ label inner, child = .node label inner →
      TreeText child.bracketedChars child) (afterWord : Bool) :
    ItemsText afterWord (Forest.bracketedChars children) children := by
  have hgap : IsGap [' '] := by
    intro c hc
    rw [List.mem_singleton.mp hc]
    decide
  induction children generalizing afterWord with
  | nil => exact .nil
  | cons child rest ih =>
    have hrest := ih (fun other hmem => hchildren other (by simp [hmem]))
      (fun other hmem => htexts other (by simp [hmem]))
    cases child with
    | leaf text =>
      cases hchildren (.leaf text) (by simp) with
      | leaf hword =>
        have hitems := ItemsText.word hgap (fun _ : afterWord = true => by simp) hword (hrest true)
        rw [String.ofList_toList] at hitems
        exact hitems
    | node label inner =>
      have htext := htexts (.node label inner) (by simp) label inner rfl
      exact .tree hgap htext (hrest false)

theorem Canonical.treeText {label : String} {children : Forest}
    (h : Canonical (.node label children)) :
    TreeText (Tree.node label children).bracketedChars (.node label children) := by
  suffices hall : ∀ tree : Tree, tree.Canonical → ∀ label children, tree = .node label children →
      TreeText tree.bracketedChars tree from hall _ h label children rfl
  intro tree
  induction tree with
  | leaf text =>
    intro _ label children heq
    cases heq
  | node label children ih =>
    intro hcanonical other more heq
    cases heq
    cases hcanonical with
    | node hlabel hfirst hchildren =>
      have hitems := itemsText_bracketedChars hchildren
        fun child hmem => ih child hmem (hchildren child hmem)
      by_cases hempty : label = ""
      · subst hempty
        have htext := TreeText.unlabelled isGap_nil (hitems false) (hfirst rfl) isGap_nil
        simpa [bracketedChars] using htext
      · have hword : IsWord label.toList := ⟨by simpa using hempty, hlabel⟩
        have htext := TreeText.labelled isGap_nil hword (hitems true) isGap_nil
        simpa [bracketedChars] using htext

/-- What is written in brackets is read back. -/
theorem Canonical.parse_bracketed {label : String} {children : Forest}
    (h : Canonical (.node label children)) :
    parse (Tree.node label children).bracketed = .ok (.node label children) := by
  rw [parse_eq_ok_iff, bracketed, String.toList_ofList]
  have hdocument := DocumentText.intro isGap_nil h.treeText isGap_nil
  rwa [List.nil_append, List.append_nil] at hdocument

end Tree

namespace Grammar

mutual

/-- The grammar gives a tree no text with a blank or a bracket, no empty leaf, and no leaf in the
place of its label. -/
theorem TreeText.canonical {text : List Char} {tree : Tree} (h : TreeText text tree) :
    tree.Canonical := by
  cases h with
  | @labelled _ label _ _ _ _ hlabel hitems =>
    refine .node ?_ ?_ hitems.canonical
    · rw [String.toList_ofList]
      exact hlabel.2
    · intro hempty
      have hnil : (String.ofList label).toList = [] := by rw [hempty, String.toList_empty]
      rw [String.toList_ofList] at hnil
      exact absurd hnil hlabel.1
  | unlabelled _ hitems hfirst => exact .node (by simp) (fun _ => hfirst) hitems.canonical

theorem ItemsText.canonical {items : List Char} {trees : Forest} {afterWord : Bool}
    (h : ItemsText afterWord items trees) : ∀ tree ∈ trees, tree.Canonical := by
  cases h with
  | nil => simp
  | @word _ _ word _ _ _ _ hword hrest =>
    have hleaf : Tree.Canonical (.leaf (String.ofList word)) := by
      apply Tree.Canonical.leaf
      rwa [String.toList_ofList]
    exact List.forall_mem_cons.mpr ⟨hleaf, hrest.canonical⟩
  | tree _ htree hrest => exact List.forall_mem_cons.mpr ⟨htree.canonical, hrest.canonical⟩

end

end Grammar

namespace Tree

theorem Canonical.of_parse {text : String} {tree : Tree} (h : parse text = .ok tree) :
    tree.Canonical ∧ ∃ label children, tree = .node label children := by
  rw [parse_eq_ok_iff] at h
  generalize text.toList = chars at h
  cases h with
  | intro _ htree => exact ⟨htree.canonical, htree.isNode⟩

theorem parse_bracketed_of_parse {text : String} {tree : Tree} (h : parse text = .ok tree) :
    parse tree.bracketed = .ok tree := by
  obtain ⟨hcanonical, label, children, rfl⟩ := Canonical.of_parse h
  exact hcanonical.parse_bracketed

/-- The trees that are read are the canonical ones with a node at the root, and these are also the
trees that are read back from their bracketed form. So writing what was read and reading it again
changes nothing. -/
theorem parse_image_canonical :
    (∀ tree, (∃ text, parse text = .ok tree) ↔
      tree.Canonical ∧ ∃ label children, tree = .node label children) ∧
    (∀ tree, parse tree.bracketed = .ok tree ↔
      tree.Canonical ∧ ∃ label children, tree = .node label children) ∧
    ∀ text tree, parse text = .ok tree → parse tree.bracketed = .ok tree := by
  refine ⟨?_, ?_, fun text tree => parse_bracketed_of_parse⟩
  · intro tree
    constructor
    · rintro ⟨text, htext⟩
      exact Canonical.of_parse htext
    · rintro ⟨hcanonical, label, children, rfl⟩
      exact ⟨_, hcanonical.parse_bracketed⟩
  · intro tree
    constructor
    · exact Canonical.of_parse
    · rintro ⟨hcanonical, label, children, rfl⟩
      exact hcanonical.parse_bracketed

/-- An empty label and an empty node survive, the blanks of the text do not. -/
theorem parse_image_canonical_empty_label :
    let tree := Tree.node "" [.node "S" [.leaf "a"], .node "" []]
    parse "( (S  a)( ) )" = .ok tree ∧ tree.bracketed = "( (S a) ())" ∧
      parse tree.bracketed = .ok tree := by
  intro tree
  have hread : parse "( (S  a)( ) )" = .ok tree := by decide +kernel
  exact ⟨hread, by decide +kernel, parse_image_canonical.2.2 _ tree hread⟩

end Tree

end TreeFigure
