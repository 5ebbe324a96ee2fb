import TreeFigure.Proofs.Literal.Bijection
import TreeFigure.Proofs.Tree.Canonical
import TreeFigure.Proofs.Tree.Texts

/-!
The bracketed form of a tree with its literals hidden. Hiding works text by text, with one
exception: an underscore in front of a label makes a literal of the bracket before it. A tree that
was read with literals is read back from its bracketed form if it has no such label. If it has one,
the hidden form lacks an opening bracket and is refused.
-/

namespace TreeFigure

open Text LiteralTable

namespace LiteralTable

/-- Hiding looks across a seam only for an underscore. -/
theorem hideOnce_append (left : List Char) {right : List Char} (h : right.head? ≠ some '_') :
    hideOnce (left ++ right) = hideOnce left ++ hideOnce right := by
  fun_induction hideOnce left with
  | case1 => rfl
  | case2 rest ih => rw [List.cons_append, List.cons_append, hideOnce, ih, List.cons_append]
  | case3 rest ih => rw [List.cons_append, List.cons_append, hideOnce, ih, List.cons_append]
  | case4 c rest hopen hclose ih =>
    rw [List.cons_append, hideOnce_cons, ih, List.cons_append]
    intro hbracket hhead
    cases rest with
    | nil => exact h hhead
    | cons d tail =>
      have hd : d = '_' := by simpa using hhead
      rcases hbracket with hc | hc
      · exact hopen tail hc (by rw [hd])
      · exact hclose tail hc (by rw [hd])

/-- The bracket before a label stays an opening bracket unless an underscore follows it. -/
theorem count_hideOnce_label {label : List Char}
    (h : ∀ c ∈ hideOnce label, isInner c = true) :
    (hideOnce ('(' :: label)).count '(' + (if label.head? = some '_' then 1 else 0) = 1 ∧
      (hideOnce ('(' :: label)).count ')' = 0 := by
  by_cases hhead : label.head? = some '_'
  · obtain ⟨rest, rfl⟩ := List.head?_eq_some_iff.mp hhead
    have hkeep : hideOnce ('_' :: rest) = '_' :: hideOnce rest := hideOnce_cons (by simp)
    have hrest : ∀ c ∈ hideOnce rest, isInner c = true := by
      intro c hc
      apply h
      rw [hkeep]
      exact List.mem_cons_of_mem '_' hc
    have hinner : ∀ c ∈ openMark :: hideOnce rest, isInner c = true :=
      List.forall_mem_cons.mpr ⟨by decide, hrest⟩
    rw [hideOnce, if_pos hhead]
    exact ⟨by rw [count_run hinner (by decide)], count_run hinner (by decide)⟩
  · have hkeep : hideOnce ('(' :: label) = '(' :: hideOnce label := hideOnce_cons fun _ => hhead
    rw [hkeep, if_neg hhead, List.count_cons_self, List.count_cons_of_ne (by decide)]
    exact ⟨by rw [count_run h (by decide)], count_run h (by decide)⟩

theorem literalFree_of_isInner {text : List Char} (h : ∀ c ∈ text, isInner c = true) :
    LiteralFree text := by
  refine ⟨fun hopen => ?_, fun hclose => ?_⟩
  · exact absurd (h '(' (hopen.subset (by simp))) (by decide)
  · exact absurd (h ')' (hclose.subset (by simp))) (by decide)

end LiteralTable

namespace Tree

theorem head?_bracketedChars_ne (children : Forest) {tail : List Char}
    (htail : tail.head? ≠ some '_') :
    (Forest.bracketedChars children ++ tail).head? ≠ some '_' := by
  cases children with
  | nil => exact htail
  | cons child rest =>
    rw [Forest.bracketedChars]
    simp

theorem hideOnce_forest (children : Forest) {tail : List Char}
    (htail : tail.head? ≠ some '_') :
    hideOnce (Forest.bracketedChars children ++ tail) =
      (children.flatMap fun child => ' ' :: hideOnce child.bracketedChars) ++ hideOnce tail := by
  induction children with
  | nil => rfl
  | cons child rest ih =>
    have hspace : ¬ (' ' = '(' ∨ ' ' = ')') := by decide
    rw [Forest.bracketedChars, List.flatMap_cons, List.cons_append, List.cons_append,
      List.append_assoc, hideOnce_cons fun hbracket => absurd hbracket hspace,
      hideOnce_append _ (head?_bracketedChars_ne rest htail), ih, List.cons_append,
      List.cons_append, List.append_assoc]

/-- No bracket of the notation but the one before a label is hidden. -/
theorem hideOnce_node (label : String) (children : Forest) :
    hideOnce (Tree.node label children).bracketedChars =
      hideOnce ('(' :: label.toList) ++
        ((children.flatMap fun child => ' ' :: hideOnce child.bracketedChars) ++ [')']) := by
  have hclose : ([')'] : List Char).head? ≠ some '_' := by simp
  rw [bracketedChars, List.append_assoc,
    hideOnce_append _ (head?_bracketedChars_ne children hclose), hideOnce_forest children hclose]
  rfl

/-- The literals of a bracketed form are hidden text by text if no label begins with an
underscore. -/
theorem hideOnce_bracketedChars {tree : Tree}
    (h : ∀ label ∈ tree.labels, label.toList.head? ≠ some '_') :
    hideOnce tree.bracketedChars = (tree.mapText brackets.hide).bracketedChars := by
  induction tree with
  | leaf text => rw [bracketedChars, mapText, bracketedChars, toList_hide_brackets]
  | node label children ih =>
    obtain ⟨hplain, hlabels⟩ := forall_mem_labels_node.mp h
    have hlabel : hideOnce ('(' :: label.toList) = '(' :: hideOnce label.toList :=
      hideOnce_cons fun _ => hplain
    have hchildren : (children.flatMap fun child => ' ' :: hideOnce child.bracketedChars) =
        children.flatMap fun child => ' ' :: (child.mapText brackets.hide).bracketedChars := by
      apply List.flatMap_congr
      intro child hmem
      rw [ih child hmem (hlabels child hmem)]
    rw [hideOnce_node, hlabel, hchildren, mapText, bracketedChars, toList_hide_brackets,
      Forest.mapText_eq_map, Forest.bracketedChars_eq_flatMap, List.flatMap_map,
      List.append_assoc]

/-- Number of labels that begin with an underscore. -/
def underscored (labels : List String) : Nat :=
  labels.countP fun label => label.toList.head? = some '_'

theorem underscored_cons (label : String) (labels : List String) :
    underscored (label :: labels) =
      underscored labels + if label.toList.head? = some '_' then 1 else 0 := by
  simp [underscored, List.countP_cons]

theorem underscored_append (left right : List String) :
    underscored (left ++ right) = underscored left + underscored right :=
  List.countP_append

theorem underscored_eq_zero_iff {labels : List String} :
    underscored labels = 0 ↔ ∀ label ∈ labels, label.toList.head? ≠ some '_' := by
  simp [underscored]

/-- Trees side by side lack the brackets that each of them lacks. -/
theorem count_hideOnce_forest {children : Forest}
    (h : ∀ child ∈ children, (hideOnce child.bracketedChars).count '(' + underscored child.labels =
      (hideOnce child.bracketedChars).count ')') :
    (children.flatMap fun child => ' ' :: hideOnce child.bracketedChars).count '(' +
        underscored (Forest.labels children) =
      (children.flatMap fun child => ' ' :: hideOnce child.bracketedChars).count ')' := by
  have hspace : (' ' : Char) ≠ '(' ∧ (' ' : Char) ≠ ')' := by decide
  induction children with
  | nil => rfl
  | cons child rest ih =>
    have hfirst := h child List.mem_cons_self
    have hrest := ih fun other hmem => h other (List.mem_cons_of_mem child hmem)
    rw [Forest.labels, underscored_append]
    simp only [List.flatMap_cons, List.count_append, List.count_cons_of_ne hspace.1,
      List.count_cons_of_ne hspace.2]
    omega

/-- A bracketed form with its literals hidden lacks one opening bracket for each label that begins
with an underscore. -/
theorem count_hideOnce_bracketedChars {tree : Tree}
    (h : ∀ text ∈ tree.texts, ∀ c ∈ hideOnce text.toList, isInner c = true) :
    (hideOnce tree.bracketedChars).count '(' + underscored tree.labels =
      (hideOnce tree.bracketedChars).count ')' := by
  induction tree with
  | leaf text =>
    have htext := h text (by simp [texts])
    rw [bracketedChars, count_run htext (by decide), count_run htext (by decide)]
    rfl
  | node label children ih =>
    obtain ⟨hlabel, htexts⟩ := forall_mem_texts_node.mp h
    obtain ⟨hopen, hclose⟩ := count_hideOnce_label hlabel
    have hforest := count_hideOnce_forest fun child hmem => ih child hmem (htexts child hmem)
    have hlast : [')'].count '(' = 0 ∧ [')'].count ')' = 1 := by decide
    rw [hideOnce_node, labels, underscored_cons]
    simp only [List.count_append, hclose]
    omega

theorem Canonical.isInner_of_mem_texts {tree : Tree} (h : tree.Canonical) :
    ∀ text ∈ tree.texts, ∀ c ∈ text.toList, isInner c = true := by
  induction tree with
  | leaf text =>
    cases h with
    | leaf hword =>
      intro other hmem
      rw [List.mem_singleton.mp hmem]
      exact hword.2
  | node label children ih =>
    cases h with
    | node hlabel hfirst hchildren =>
      exact forall_mem_texts_node.mpr
        ⟨hlabel, fun child hmem => ih child hmem (hchildren child hmem)⟩

/-- A tree that can be read with literals: it is canonical with its literals hidden, and it has no
placeholder. -/
structure Shown (tree : Tree) : Prop where
  canonical : (tree.mapText brackets.hide).Canonical
  unmarked : ∀ text ∈ tree.texts, Unmarked text.toList

namespace Shown

variable {tree : Tree}

theorem isInner_hideOnce (h : tree.Shown) :
    ∀ text ∈ tree.texts, ∀ c ∈ hideOnce text.toList, isInner c = true := by
  intro text hmem
  rw [← toList_hide_brackets]
  apply h.canonical.isInner_of_mem_texts
  rw [texts_mapText]
  exact List.mem_map_of_mem hmem

/-- Showing the literals of a canonical tree can be undone. -/
theorem of_canonical {found : Tree} (h : found.Canonical) :
    (found.mapText brackets.reveal).Shown := by
  have hhidden : (found.mapText brackets.reveal).mapText brackets.hide = found := by
    rw [mapText_mapText]
    apply mapText_eq_self
    intro text hmem
    exact hide_reveal_brackets (literalFree_of_isInner (h.isInner_of_mem_texts text hmem))
  refine ⟨hhidden.symm ▸ h, ?_⟩
  intro text hmem
  rw [texts_mapText] at hmem
  obtain ⟨origin, -, rfl⟩ := List.mem_map.mp hmem
  exact unmarked_reveal origin

theorem of_parseWith {text : String} (h : parseWith .brackets text = .ok tree) :
    tree.Shown ∧ ∃ label children, tree = .node label children := by
  obtain ⟨-, found, hfound, rfl⟩ := parseWith_eq_ok_iff.mp h
  obtain ⟨hcanonical, label, children, rfl⟩ := Canonical.of_parse hfound
  exact ⟨of_canonical hcanonical, _, _, rfl⟩

theorem unmarked_bracketedChars (h : tree.Shown) : Unmarked tree.bracketedChars := by
  intro c hc
  rcases mem_bracketedChars hc with hnotation | ⟨text, htext, hin⟩
  · have hplain : ∀ d ∈ ['(', ' ', ')'], ¬ IsMark d := by simp [IsMark, openMark, closeMark]
    exact hplain c hnotation
  · exact h.unmarked text htext c hin

/-- What is written with bracket literals is read back if no label begins with an underscore. -/
theorem parseWith_bracketed {label : String} {children : Forest}
    (h : Shown (.node label children))
    (hplain : ∀ text ∈ (Tree.node label children).labels, text.toList.head? ≠ some '_') :
    parseWith .brackets (Tree.node label children).bracketed = .ok (.node label children) := by
  let tree := Tree.node label children
  have hnone : brackets.firstPlaceholder? tree.bracketed = none := by
    rw [firstPlaceholder?_brackets_eq_none_iff, bracketed, String.toList_ofList]
    exact h.unmarked_bracketedChars
  have hhide : brackets.hide tree.bracketed = (tree.mapText brackets.hide).bracketed := by
    rw [← String.toList_inj, toList_hide_brackets, bracketed, bracketed, String.toList_ofList,
      String.toList_ofList, hideOnce_bracketedChars hplain]
  have hparse : parse (brackets.hide tree.bracketed) = .ok (tree.mapText brackets.hide) := by
    rw [hhide]
    exact h.canonical.parse_bracketed
  have hreveal : (tree.mapText brackets.hide).mapText brackets.reveal = tree := by
    rw [mapText_mapText]
    apply mapText_eq_self
    intro text hmem
    exact reveal_hide_brackets (h.unmarked text hmem)
  exact parseWith_eq_ok_iff.mpr ⟨hnone, _, hparse, hreveal⟩

/-- A bracketed form that is read at all has no label that begins with an underscore: such a label
takes away an opening bracket, and every closing bracket stays. -/
theorem head?_label_ne_of_parseWith (h : tree.Shown) {other : Tree}
    (hread : parseWith .brackets tree.bracketed = .ok other) :
    ∀ label ∈ tree.labels, label.toList.head? ≠ some '_' := by
  obtain ⟨-, found, hfound, -⟩ := parseWith_eq_ok_iff.mp hread
  have hbalance := Grammar.count_opening_of_parse hfound
  rw [toList_hide_brackets, bracketed, String.toList_ofList] at hbalance
  have hlacking := count_hideOnce_bracketedChars h.isInner_hideOnce
  rw [← underscored_eq_zero_iff]
  omega

end Shown

/-- A tree that was read with literals is read back from its bracketed form exactly if no label
begins with an underscore. Otherwise the bracketed form is refused; it is never read as another
tree. -/
theorem parseWith_bracketed_iff {text : String} {tree : Tree}
    (h : parseWith .brackets text = .ok tree) :
    (parseWith .brackets tree.bracketed = .ok tree ↔
      ∀ label ∈ tree.labels, label.toList.head? ≠ some '_') ∧
    ((∃ fault, parseWith .brackets tree.bracketed = .error fault) ↔
      ∃ label ∈ tree.labels, label.toList.head? = some '_') := by
  obtain ⟨hshown, label, children, rfl⟩ := Shown.of_parseWith h
  have hback : parseWith .brackets (Tree.node label children).bracketed =
      .ok (.node label children) ↔
        ∀ text ∈ (Tree.node label children).labels, text.toList.head? ≠ some '_' :=
    ⟨hshown.head?_label_ne_of_parseWith, hshown.parseWith_bracketed⟩
  refine ⟨hback, ?_⟩
  constructor
  · rintro ⟨fault, hfault⟩
    by_contra hplain
    rw [hback.mpr fun text hmem hhead => hplain ⟨text, hmem, hhead⟩] at hfault
    cases hfault
  · rintro ⟨text, hmem, hhead⟩
    cases hread : parseWith .brackets (Tree.node label children).bracketed with
    | error fault => exact ⟨fault, rfl⟩
    | ok other => exact absurd hhead (hshown.head?_label_ne_of_parseWith hread text hmem)

/-- The label stands apart from its bracket in the text, but not in the bracketed form. -/
theorem parseWith_bracketed_underscore :
    parseWith .brackets "(S ( _x (_))" = .ok (.node "S" [.node "_x" [.leaf "(_"]]) ∧
      (Tree.node "S" [.node "_x" [.leaf "(_"]]).bracketed = "(S (_x (_))" ∧
      ∃ fault, parseWith .brackets "(S (_x (_))" = .error fault := by
  have hread : parseWith .brackets "(S ( _x (_))" =
      .ok (.node "S" [.node "_x" [.leaf "(_"]]) := by decide +kernel
  exact ⟨hread, by decide +kernel,
    (parseWith_bracketed_iff hread).2.mpr ⟨"_x", by decide, by decide⟩⟩

end Tree

end TreeFigure
