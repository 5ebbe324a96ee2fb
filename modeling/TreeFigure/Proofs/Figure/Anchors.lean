import TreeFigure.Proofs.Figure.Decoration
import TreeFigure.Proofs.Figure.Drawn

/-!
The anchors of a diagram. No escaped text starts a node or the edge to one, so their control words
stand in a diagram as often as leaves are named: at the first and the last leaf, which may be one.
-/

namespace TreeFigure

open Text Tex

namespace Diagram

/-- What stands before the text of a leaf with this name. -/
def edgeTo (name : String) : List Char :=
  "\\edge; \\node(".toList ++ name.toList ++ ") ".toList

/-- The pattern starts like `\node` or like `\edge`. -/
def NodePattern (pattern : List Char) : Prop :=
  ∃ rest, pattern = '\\' :: 'n' :: rest ∨ pattern = '\\' :: 'e' :: rest

variable {pattern : List Char}

theorem NodePattern.adds_of_notMem (h : NodePattern pattern) {text : List Char}
    (htext : '\\' ∉ text) : Adds pattern text 0 := by
  obtain ⟨rest, rfl | rfl⟩ := h
  · exact Text.adds_of_notMem htext
  · exact Text.adds_of_notMem htext

theorem NodePattern.adds_escapeChar (h : NodePattern pattern) (c : Char) :
    Adds pattern (escapeChar c) 0 := by
  unfold escapeChar
  split
  case h_13 =>
    apply h.adds_of_notMem
    grind
  all_goals
    obtain ⟨rest, rfl | rfl⟩ := h
    · exact fun _ => rfl
    · exact fun _ => rfl

theorem NodePattern.adds_escapeChars (h : NodePattern pattern) (text : List Char) :
    Adds pattern (escapeChars text) 0 := by
  induction text using escape_induction with
  | nil => exact escapeChars_nil ▸ adds_nil
  | bars text ih =>
    rw [escapeChars_bars]
    exact (h.adds_of_notMem (by decide)).append ih
  | cons c text hfirst ih =>
    rw [escapeChars_cons hfirst]
    exact (h.adds_escapeChar c).append ih

/-- A named leaf adds what its name adds, whatever its text is. -/
theorem NodePattern.adds_named (h : NodePattern pattern) {name : String} {count : Nat}
    (hname : Adds pattern (edgeTo name) count) (text : String) :
    Adds pattern (leafChars (some name) text) count := by
  have hopen : Adds pattern ['{'] 0 := h.adds_of_notMem (by decide)
  have hclose : Adds pattern ['}'] 0 := h.adds_of_notMem (by decide)
  have hend : Adds pattern [';'] 0 := h.adds_of_notMem (by decide)
  have hgroup := (hopen.append (h.adds_escapeChars text.toList)).append hclose
  exact (hname.append hgroup).append hend

theorem NodePattern.adds_header (h : NodePattern pattern) (label : String) :
    Adds pattern (header label) 0 :=
  (h.adds_of_notMem (by decide)).append (h.adds_escapeChars label.toList)

theorem NodePattern.adds_spacing (h : NodePattern pattern) {gap : List Char}
    (hgap : IsSpacing gap) : Adds pattern gap 0 := by
  apply h.adds_of_notMem
  intro hmem
  exact absurd (hgap.2 '\\' hmem) (by decide)

end Diagram

open Diagram

section Weight

variable {pattern : List Char} {weight : Option String → Nat}

/-- A leaf adds the weight of its name. -/
def Naming.Adds (names : Naming) (pattern : List Char) (weight : Option String → Nat) : Prop :=
  ∀ position text, Text.Adds pattern (leafChars (names position) text) (weight (names position))

theorem Naming.Adds.below {names : Naming} (h : names.Adds pattern weight) (index : Nat) :
    (names.below index).Adds pattern weight :=
  fun position => h (index :: position)

def totalWeight (weight : Option String → Nat) : List (Option String) → Nat
  | [] => 0
  | name :: rest => weight name + totalWeight weight rest

theorem totalWeight_append (names others : List (Option String)) :
    totalWeight weight (names ++ others) =
      totalWeight weight names + totalWeight weight others := by
  induction names with
  | nil => exact (Nat.zero_add _).symm
  | cons name rest ih => rw [List.cons_append, totalWeight, totalWeight, ih, Nat.add_assoc]

theorem totalWeight_replicate_none (hnone : weight none = 0) (count : Nat) :
    totalWeight weight (List.replicate count none) = 0 := by
  induction count with
  | zero => rfl
  | succ count ih => rw [List.replicate_succ, totalWeight, hnone, ih]

/-- The weight of the names at some positions. -/
def Naming.weightAt (names : Naming) (weight : Option String → Nat) (positions : List Position) :
    Nat :=
  totalWeight weight (positions.map names)

theorem Naming.weightAt_cons (names : Naming) (index : Nat) (inside others : List Position) :
    names.weightAt weight (inside.map (index :: ·) ++ others) =
      (names.below index).weightAt weight inside + names.weightAt weight others := by
  unfold weightAt
  rw [List.map_append, names.map_cons, totalWeight_append]

mutual

/-- A drawing adds the weight of the names of its leaves. -/
theorem Diagram.TreeDrawn.adds {names : Naming} {text : List Char} {tree : Tree}
    (h : TreeDrawn names text tree) (hpattern : NodePattern pattern)
    (hnames : names.Adds pattern weight) :
    Text.Adds pattern text (names.weightAt weight tree.leafPositions) := by
  cases h with
  | leaf => exact hnames [] _
  | @node _ label items children hitems =>
    have hnode := (hpattern.adds_header label).append (hitems.adds hpattern hnames)
    rwa [Nat.zero_add] at hnode

theorem Diagram.ItemsDrawn.adds {names : Naming} {index : Nat} {items : List Char}
    {trees : Forest} (h : ItemsDrawn names index items trees) (hpattern : NodePattern pattern)
    (hnames : names.Adds pattern weight) :
    Text.Adds pattern items (names.weightAt weight (Forest.leafPositions index trees)) := by
  cases h with
  | close hgap =>
    have hbracket : Text.Adds pattern [']'] 0 := hpattern.adds_of_notMem (by decide)
    exact (hpattern.adds_spacing hgap).append hbracket
  | item hgap htree hrest =>
    have hfirst := htree.adds hpattern (hnames.below index)
    have hall := (hpattern.adds_spacing hgap).append (hfirst.append (hrest.adds hpattern hnames))
    rw [Nat.zero_add] at hall
    rw [Forest.leafPositions, names.weightAt_cons]
    exact hall

end

/-- Between the first and the last leaf no leaf has a name. -/
theorem map_anchorName? (inner : Nat) :
    (List.range' 0 (inner + 2)).map (anchorName? (inner + 2)) =
      some "n0" :: (List.replicate inner none ++ [some "n1"]) := by
  have hinner : (List.range' 1 inner).map (anchorName? (inner + 2)) =
      List.replicate inner none := by
    rw [List.eq_replicate_iff, List.length_map, List.length_range']
    refine ⟨rfl, ?_⟩
    intro name hname
    obtain ⟨number, hmem, rfl⟩ := List.mem_map.mp hname
    obtain ⟨hlow, hhigh⟩ := List.mem_range'_1.mp hmem
    unfold anchorName?
    rw [if_neg (by omega), if_neg (by omega)]
  have hlast : anchorName? (inner + 2) (1 + inner) = some "n1" := by
    unfold anchorName?
    rw [if_neg (by omega), if_pos (by omega)]
  rw [List.range'_succ, List.range'_1_concat, List.map_cons, List.map_append, hinner,
    List.map_singleton, hlast]
  rfl

theorem totalWeight_anchorNames (hnone : weight none = 0) {count : Nat} (h : count ≠ 0) :
    totalWeight weight ((List.range' 0 count).map (anchorName? count)) =
      weight (some "n0") + if count = 1 then 0 else weight (some "n1") := by
  obtain ⟨before, rfl⟩ := Nat.exists_eq_succ_of_ne_zero h
  cases before with
  | zero => rfl
  | succ inner =>
    have hmany : inner + 1 + 1 ≠ 1 := by omega
    rw [map_anchorName?, totalWeight, totalWeight_append, totalWeight_replicate_none hnone,
      if_neg hmany, Nat.zero_add]
    rfl

theorem Tree.weightAt_anchors {tree : Tree} {anchors : Anchors}
    (h : tree.anchors? = some anchors) (hnone : weight none = 0) :
    anchors.naming.weightAt weight tree.leafPositions =
      weight (some "n0") + if tree.leaves.length = 1 then 0 else weight (some "n1") := by
  obtain ⟨hpos, -⟩ := tree.eq_getElem_of_anchors? h
  unfold Naming.weightAt
  rw [tree.numbers_of_anchors? h, tree.length_leafPositions]
  apply totalWeight_anchorNames hnone
  rw [← tree.length_leafPositions]
  exact Nat.pos_iff_ne_zero.mp hpos

end Weight

/-- The weights of two names, the one of the first leaf and any other. -/
def anchorWeight (first last : Nat) : Option String → Nat
  | none => 0
  | some name => if name = "n0" then first else last

/-- A pattern of a node stands in a diagram as often as in the edge of the first leaf and, if it is
another, of the last leaf. -/
theorem Diagram.occurrences_text {layout : Layout} {tree : Tree} {diagram : Diagram}
    (hdiagram : ofTree? layout tree = some diagram) {pattern : List Char}
    (h : NodePattern pattern) {first last : Nat}
    (hfirst : Adds pattern (edgeTo "n0") first) (hlast : Adds pattern (edgeTo "n1") last) :
    occurrences pattern diagram.text.toList =
      first + if tree.leaves.length = 1 then 0 else last := by
  obtain ⟨anchors, body, hanchors, htext, hbody⟩ := exists_drawn hdiagram
  have hnames : anchors.naming.Adds pattern (anchorWeight first last) := by
    intro position text
    rcases anchors.naming_cases position with hname | hname | hname
    · rw [hname]
      exact h.adds_escapeChars text.toList
    · rw [hname]
      exact h.adds_named hfirst text
    · rw [hname]
      exact h.adds_named hlast text
  have hword : Adds pattern "\\Tree ".toList 0 := by
    obtain ⟨rest, rfl | rfl⟩ := h
    · exact fun _ => rfl
    · exact fun _ => rfl
  have hall := hword.append (hbody.adds h hnames)
  rw [htext, hall.occurrences_eq, Nat.zero_add, tree.weightAt_anchors hanchors rfl]
  rfl

/-- Each name that a diagram gives stands at one node. -/
theorem Diagram.occurrences_name {layout : Layout} {tree : Tree} {diagram : Diagram}
    (h : ofTree? layout tree = some diagram) :
    ∀ name ∈ [diagram.first, diagram.last],
      occurrences ("\\node(" ++ name ++ ")").toList diagram.text.toList = 1 := by
  obtain ⟨hfirst, hlast⟩ := names_eq h
  have hn0 : occurrences ("\\node(" ++ "n0" ++ ")").toList diagram.text.toList = 1 := by
    have hpattern : NodePattern ("\\node(" ++ "n0" ++ ")").toList :=
      ⟨"ode(n0)".toList, .inl rfl⟩
    have hother : Adds ("\\node(" ++ "n0" ++ ")").toList (edgeTo "n1") 0 := fun _ => rfl
    rw [occurrences_text h hpattern (fun _ => rfl) hother, ite_self]
  rw [hfirst, hlast, List.forall_mem_cons, List.forall_mem_singleton]
  refine ⟨hn0, ?_⟩
  split
  case isTrue => exact hn0
  case isFalse hmany =>
    have hpattern : NodePattern ("\\node(" ++ "n1" ++ ")").toList :=
      ⟨"ode(n1)".toList, .inl rfl⟩
    have hother : Adds ("\\node(" ++ "n1" ++ ")").toList (edgeTo "n0") 0 := fun _ => rfl
    rw [occurrences_text h hpattern hother (fun _ => rfl), if_neg hmany]

/-- A diagram is its decorated tree, printed without a notion of position. If the length of the tree
and the indentation together fit into a word, no sum of widths wraps around. Whatever the texts
hold, only the anchors are nodes with an edge of their own, each name stands at one node, and there
are two names if there are two leaves. Without a leaf there is no diagram. -/
theorem Diagram.ofTree?_prints_decorated (layout : Layout) (tree : Tree) :
    (tree.leaves = [] → ofTree? layout tree = none ∧
      ∀ (settings : Settings) (record : Record),
        Drawing.document settings ⟨record, tree⟩ = .error .noLeaves) ∧
    (tree.leaves ≠ [] → ∃ diagram, ofTree? layout tree = some diagram ∧
      diagram.text.toList = "\\Tree ".toList ++
        tree.decorated.printed (fun a b => (a + b) % Text.wordBound) layout.margin layout.indent ∧
      (tree.decorated.line.length + layout.indent < Text.wordBound → diagram.text.toList =
        "\\Tree ".toList ++ tree.decorated.printed (· + ·) layout.margin layout.indent) ∧
      occurrences "\\node(".toList diagram.text.toList = min 2 tree.leaves.length ∧
      occurrences "\\edge".toList diagram.text.toList = min 2 tree.leaves.length ∧
      (diagram.first, diagram.last) =
        (if tree.leaves.length = 1 then ("n0", "n0") else ("n0", "n1")) ∧
      ∀ name ∈ [diagram.first, diagram.last],
        occurrences ("\\node(" ++ name ++ ")").toList diagram.text.toList = 1) := by
  constructor
  · intro hleaves
    refine ⟨ofTree?_eq_none hleaves layout, ?_⟩
    intro settings record
    rw [Drawing.document, Document.render?, ofTree?_eq_none hleaves]
    rfl
  · intro hleaves
    obtain ⟨diagram, hdiagram⟩ := exists_ofTree? hleaves layout
    have hpos : 0 < tree.leaves.length := List.length_pos_iff.mpr hleaves
    obtain ⟨hfirst, hlast⟩ := names_eq hdiagram
    have hmin : (1 + if tree.leaves.length = 1 then 0 else 1) = min 2 tree.leaves.length := by
      split <;> omega
    have hnode : NodePattern "\\node(".toList := ⟨"ode(".toList, .inl rfl⟩
    have hedge : NodePattern "\\edge".toList := ⟨"dge".toList, .inr rfl⟩
    have htext := text_eq_printed hdiagram
    have hwords : Width.add = fun a b => (a + b) % Text.wordBound := funext₂ Width.add_eq_mod
    refine ⟨diagram, hdiagram, hwords ▸ htext, ?_, ?_, ?_, ?_, occurrences_name hdiagram⟩
    · intro hroom
      rw [htext, Tree.printed_eq_of_lt _ _ _ hroom]
    · rw [occurrences_text hdiagram hnode (fun _ => rfl) (fun _ => rfl), hmin]
    · rw [occurrences_text hdiagram hedge (fun _ => rfl) (fun _ => rfl), hmin]
    · rw [hfirst, hlast]
      split
      case isTrue => rfl
      case isFalse => rfl

/-- Three leaves with one text that imitates a node, and a tree without a leaf. -/
theorem Diagram.ofTree?_prints_decorated_imitations :
    let tree : Tree :=
      .node "\\edge" [.node "" [], .leaf "\\node(n0)", .node "_" [.leaf "\\node(n0)"],
        .leaf "\\node(n0)"]
    let written := "\\textbackslash\x7b\x7dnode(n0)"
    tree.decorated = .node "\\textbackslash\x7b\x7dedge" [.node "" [],
        .leaf ("\\edge; \\node(n0) \x7b" ++ written ++ "\x7d;"), .node "\\ " [.leaf written],
        .leaf ("\\edge; \\node(n1) \x7b" ++ written ++ "\x7d;")] ∧
      (∃ diagram, ofTree? { margin := 40 } tree = some diagram ∧
        diagram.text.toList = "\\Tree ".toList ++ tree.decorated.printed (· + ·) 40 6 ∧
        occurrences "\\node(".toList diagram.text.toList = 2 ∧
        (diagram.first, diagram.last) = ("n0", "n1")) ∧
      ofTree? {} (.node "" []) = none := by
  intro tree written
  have hdecorated : tree.decorated = .node "\\textbackslash\x7b\x7dedge" [.node "" [],
      .leaf ("\\edge; \\node(n0) \x7b" ++ written ++ "\x7d;"), .node "\\ " [.leaf written],
      .leaf ("\\edge; \\node(n1) \x7b" ++ written ++ "\x7d;")] := by decide +kernel
  have hleaves : tree.leaves ≠ [] := by decide
  obtain ⟨diagram, hdiagram, -, htext, hnode, -, hnames, -⟩ :=
    (ofTree?_prints_decorated { margin := 40 } tree).2 hleaves
  obtain ⟨hnone, -⟩ := (ofTree?_prints_decorated {} (.node "" [])).1 rfl
  exact ⟨hdecorated, ⟨diagram, hdiagram, htext (by decide +kernel), hnode, hnames⟩, hnone⟩

end TreeFigure
