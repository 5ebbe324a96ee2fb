import TreeFigure.Proofs.Literal.Bracketed

/-!
Writing a tree whose texts hold bracket literals. A writable text is a word once its literals are
hidden: each of its brackets has the underscore behind it in the text itself. A writable tree has
such texts and no label that begins with an underscore, so it is read back.
-/

namespace TreeFigure

open Text LiteralTable Grammar

namespace LiteralTable

/-- Every bracket is followed by an underscore, in the text itself. -/
def Guarded : List Char → Prop
  | [] => True
  | c :: rest => (c = '(' ∨ c = ')' → rest.head? = some '_') ∧ Guarded rest

/-- A text without blanks and placeholders whose brackets all are literals. -/
structure Writable (text : List Char) : Prop where
  noBlank : ∀ c ∈ text, isBlank c = false
  unmarked : Unmarked text
  guarded : Guarded text

instance decidableGuarded : (text : List Char) → Decidable (Guarded text)
  | [] => .isTrue trivial
  | _ :: rest => @instDecidableAnd _ _ inferInstance (decidableGuarded rest)

instance (text : List Char) : Decidable (Writable text) :=
  @decidable_of_iff _ ((∀ c ∈ text, isBlank c = false) ∧ Unmarked text ∧ Guarded text)
    ⟨fun ⟨hblank, hmark, hguarded⟩ => ⟨hblank, hmark, hguarded⟩,
      fun ⟨hblank, hmark, hguarded⟩ => ⟨hblank, hmark, hguarded⟩⟩
    (@instDecidableAnd _ _ (List.decidableBAll (fun c => isBlank c = false) text)
      (@instDecidableAnd _ _ inferInstance (decidableGuarded text)))

/-- A guarded text that does not begin with a literal does not begin with a bracket. -/
theorem Guarded.not_bracket {c : Char} {rest : List Char} (h : Guarded (c :: rest))
    (hopen : ∀ tail, c = '(' → rest = '_' :: tail → False)
    (hclose : ∀ tail, c = ')' → rest = '_' :: tail → False) : ¬ (c = '(' ∨ c = ')') := by
  intro hbracket
  obtain ⟨tail, hrest⟩ := List.head?_eq_some_iff.mp (h.1 hbracket)
  rcases hbracket with hc | hc
  · exact hopen tail hc hrest
  · exact hclose tail hc hrest

theorem isInner_of_mem_hideOnce {text : List Char} (hblank : ∀ c ∈ text, isBlank c = false)
    (hguarded : Guarded text) : ∀ c ∈ hideOnce text, isInner c = true := by
  fun_induction hideOnce text with
  | case1 => simp
  | case2 rest ih =>
    rw [List.forall_mem_cons]
    exact ⟨by decide, ih (fun c hc => hblank c (by simp [hc])) hguarded.2.2⟩
  | case3 rest ih =>
    rw [List.forall_mem_cons]
    exact ⟨by decide, ih (fun c hc => hblank c (by simp [hc])) hguarded.2.2⟩
  | case4 c rest hopen hclose ih =>
    have hplain := hguarded.not_bracket hopen hclose
    rw [not_or] at hplain
    rw [List.forall_mem_cons]
    refine ⟨?_, ih (fun d hd => hblank d (by simp [hd])) hguarded.2⟩
    simp [isInner, hblank c (by simp), hplain]

theorem hideOnce_eq_nil_iff {text : List Char} : hideOnce text = [] ↔ text = [] := by
  fun_induction hideOnce text <;> simp

end LiteralTable

/-- A tree that is read back from a line. Besides the conditions on its texts, no label begins
with an underscore, no leaf stands where a missing label would take it, and a leaf that looks like
the bars of a mark is a last child. -/
inductive Tree.Writable : Tree → Prop
  | leaf {text : String} (htext : LiteralTable.Writable text.toList) (hne : text ≠ "") :
      Writable (.leaf text)
  | node {label : String} {children : Forest} (hlabel : LiteralTable.Writable label.toList)
      (hplain : label.toList.head? ≠ some '_') (hfirst : label = "" → ¬ LeafFirst children)
      (hbars : .leaf "|||||" ∉ children.dropLast)
      (hchildren : ∀ child ∈ children, Writable child) : Writable (.node label children)

namespace Tree

theorem leafFirst_mapText_iff (f : String → String) (children : Forest) :
    LeafFirst (Forest.mapText f children) ↔ LeafFirst children := by
  cases children with
  | nil => rfl
  | cons child rest => cases child <;> rfl

/-- Hiding the literals of a writable tree makes it canonical. -/
theorem Writable.canonical {tree : Tree} (h : tree.Writable) :
    (tree.mapText brackets.hide).Canonical := by
  induction tree with
  | leaf text =>
    cases h with
    | leaf htext hne =>
      have hword : IsWord (brackets.hide text).toList := by
        rw [toList_hide_brackets]
        refine ⟨?_, isInner_of_mem_hideOnce htext.noBlank htext.guarded⟩
        rw [Ne, hideOnce_eq_nil_iff]
        simpa using hne
      exact .leaf hword
  | node label children ih =>
    cases h with
    | node hlabel hplain hfirst hbars hchildren =>
      refine .node ?_ ?_ ?_
      · rw [toList_hide_brackets]
        exact isInner_of_mem_hideOnce hlabel.noBlank hlabel.guarded
      · intro hempty
        rw [leafFirst_mapText_iff]
        apply hfirst
        have hnil : (brackets.hide label).toList = [] := by rw [hempty]; rfl
        rw [toList_hide_brackets, hideOnce_eq_nil_iff] at hnil
        simpa using hnil
      · intro child hmem
        rw [Forest.mapText_eq_map] at hmem
        obtain ⟨origin, hin, rfl⟩ := List.mem_map.mp hmem
        exact ih origin hin (hchildren origin hin)

theorem Writable.writable_of_mem_texts {tree : Tree} (h : tree.Writable) :
    ∀ text ∈ tree.texts, LiteralTable.Writable text.toList := by
  induction tree with
  | leaf text =>
    cases h with
    | leaf htext hne =>
      intro other hmem
      rw [List.mem_singleton.mp hmem]
      exact htext
  | node label children ih =>
    cases h with
    | node hlabel hplain hfirst hbars hchildren =>
      exact forall_mem_texts_node.mpr
        ⟨hlabel, fun child hmem => ih child hmem (hchildren child hmem)⟩

theorem Writable.head?_label_ne {tree : Tree} (h : tree.Writable) :
    ∀ label ∈ tree.labels, label.toList.head? ≠ some '_' := by
  induction tree with
  | leaf text => simp [labels]
  | node label children ih =>
    cases h with
    | node hlabel hplain hfirst hbars hchildren =>
      exact forall_mem_labels_node.mpr
        ⟨hplain, fun child hmem => ih child hmem (hchildren child hmem)⟩

theorem Writable.shown {tree : Tree} (h : tree.Writable) : tree.Shown :=
  ⟨h.canonical, fun text hmem => (h.writable_of_mem_texts text hmem).unmarked⟩

/-- What is written with bracket literals is read back. -/
theorem Writable.parseWith_bracketed {label : String} {children : Forest}
    (h : Writable (.node label children)) :
    parseWith brackets (Tree.node label children).bracketed = .ok (.node label children) :=
  h.shown.parseWith_bracketed h.head?_label_ne

end Tree

end TreeFigure
