import TreeFigure.Proofs.Figure.Columns
import TreeFigure.Proofs.Figure.Diagram
import TreeFigure.Proofs.Text.Joining

/-!
Diagrams cut at their line ends. If no text of the tree holds a line end, the pieces are the lines
of the diagram. On a line stands a label, a leaf or a node that fits, and closing brackets behind
it, so only a label or a leaf can overrun the margin.
-/

namespace TreeFigure

open Diagram

theorem Tex.lineEnd_mem_escapeChar_iff {c : Char} : '\n' ∈ escapeChar c ↔ c = '\n' := by
  unfold escapeChar
  split <;> simp [eq_comm]

theorem Tex.lineEnd_notMem_escapeChars {text : List Char} (h : '\n' ∉ text) :
    '\n' ∉ escapeChars text := by
  intro hmem
  rcases Text.mem_of_mem_replace hmem with hbars | hescaped
  · exact absurd hbars (by decide)
  · obtain ⟨c, hc, hin⟩ := List.mem_flatMap.mp hescaped
    exact h (lineEnd_mem_escapeChar_iff.mp hin ▸ hc)

/-- No name holds a line end. -/
def Naming.OneLine (names : Naming) : Prop :=
  ∀ position name, names position = some name → '\n' ∉ name.toList

theorem Naming.OneLine.under {names : Naming} (h : names.OneLine) (place : Position) :
    (names.under place).OneLine :=
  fun position => h (place ++ position)

theorem Anchors.naming_oneLine (anchors : Anchors) : anchors.naming.OneLine := by
  intro position name hname
  rcases anchors.naming_cases position with hnone | hfirst | hlast
  · rw [hnone] at hname
    cases hname
  · rw [hfirst] at hname
    cases hname
    decide
  · rw [hlast] at hname
    cases hname
    decide

namespace Diagram

theorem lineEnd_notMem_leafChars {name : Option String} {text : String}
    (hname : ∀ found, name = some found → '\n' ∉ found.toList) (htext : '\n' ∉ text.toList) :
    '\n' ∉ leafChars name text := by
  have hescaped := Tex.lineEnd_notMem_escapeChars htext
  cases name with
  | none => exact hescaped
  | some name =>
    have hedge : '\n' ∉ "\\edge; \\node(".toList := by decide
    have hgap : '\n' ∉ ") ".toList := by decide
    have hend : '\n' ∉ [';'] := by decide
    have hgroup : '\n' ∉ Tex.group (Tex.escapeChars text.toList) := by
      simp [Tex.group, hescaped]
    have hfound := hname name rfl
    unfold leafChars
    simp only [List.mem_append, hedge, hfound, hgap, hgroup, hend, or_self, not_false_eq_true]

theorem lineEnd_notMem_header {label : String} (h : '\n' ∉ label.toList) :
    '\n' ∉ header label := by
  simp [header, Tex.lineEnd_notMem_escapeChars h]

end Diagram

theorem Tree.lineEnd_notMem_flat {tree : Tree} {names : Naming} (hnames : names.OneLine)
    (htexts : ∀ text ∈ tree.texts, '\n' ∉ text.toList) : '\n' ∉ tree.flat names := by
  induction tree generalizing names with
  | leaf text =>
    exact lineEnd_notMem_leafChars (hnames []) (htexts text List.mem_cons_self)
  | node label children ih =>
    obtain ⟨hlabel, hchildren⟩ := forall_mem_texts_node.mp htexts
    have hinside : '\n' ∉ [' '].intercalate (Forest.flat names 0 children) := by
      intro hmem
      rcases Text.mem_intercalate hmem with hspace | ⟨part, hpart, hin⟩
      · exact absurd hspace (by decide)
      · rw [Forest.flat_eq_mapIdx] at hpart
        obtain ⟨number, hnumber, rfl⟩ := List.mem_mapIdx.mp hpart
        have hchild := List.getElem_mem hnumber
        exact ih _ hchild (hnames.under [0 + number]) (hchildren _ hchild) hin
    simp [flat, closer, lineEnd_notMem_header hlabel, hinside]

/-- On one line the subtrees of a tree stand one inside the other. -/
theorem Tree.flat_isInfix {tree sub : Tree} {place : Position} (h : tree.get? place = some sub)
    (names : Naming) : sub.flat (names.under place) <:+: tree.flat names := by
  induction place generalizing tree names with
  | nil =>
    obtain rfl := Option.some.inj h
    exact List.infix_rfl
  | cons index rest ih =>
    cases tree with
    | leaf text => cases h
    | node label children =>
      rw [get?_node_cons] at h
      obtain ⟨child, hchild, hsub⟩ := Option.bind_eq_some_iff.mp h
      have hitems : child.flat (names.below index) <:+:
          ' ' :: [' '].intercalate (Forest.flat names 0 children) :=
        isInfix_items (Forest.flat_mem hchild)
      have hnode : ' ' :: [' '].intercalate (Forest.flat names 0 children) <:+:
          (Tree.node label children).flat names :=
        ⟨header label, closer, rfl⟩
      exact (ih hsub (names.below index)).trans (hitems.trans hnode)

section Lines

variable {margin column : Nat} {names : Naming} {tree : Tree} {line first : Line}
  {rest : List Line}

theorem Tree.lineEnd_notMem_chars (hnames : names.OneLine)
    (htexts : ∀ text ∈ tree.texts, '\n' ∉ text.toList)
    (h : line ∈ tree.laidOutLines margin names column) : '\n' ∉ line.chars names := by
  obtain ⟨hget, -, hkind⟩ := line_stands h
  have hinside : ∀ text ∈ line.tree.texts, '\n' ∉ text.toList :=
    fun text hmem => htexts text (mem_texts_of_get? hget hmem)
  have hitem : '\n' ∉ line.item names := by
    rw [Line.item]
    split
    case isTrue hbroken =>
      obtain ⟨⟨label, children, heq⟩, -⟩ := hkind.mp hbroken
      rw [heq] at hinside ⊢
      exact lineEnd_notMem_header (hinside label List.mem_cons_self)
    case isFalse => exact lineEnd_notMem_flat (hnames.under line.place) hinside
  have hcloser : '\n' ∉ closer := by decide
  simp [Line.chars, hitem, hcloser]

/-- Behind the first line, each line has its line end in front of it. -/
theorem Tree.laidOut_eq_append (hlines : tree.laidOutLines margin names column = first :: rest)
    (hplace : first.place = []) :
    tree.laidOut margin names column =
      first.chars names ++ rest.flatMap (Line.row names column) := by
  have hcolumn : first.column column = column := by rw [Line.column, hplace]; rfl
  have hrows := tree.newLine_laidOut margin names column
  rw [hlines, List.flatMap_cons, Line.row, hcolumn, List.append_assoc] at hrows
  exact List.append_cancel_left hrows

theorem Diagram.pieces_rows {lead : List Char} (hlead : '\n' ∉ lead)
    (hrest : ∀ line ∈ rest, '\n' ∉ line.chars names) :
    Text.pieces (· == '\n') (lead ++ rest.flatMap (Line.row names column)) =
      lead :: rest.map (Line.padded names column) := by
  induction rest generalizing lead with
  | nil => rw [List.flatMap_nil, List.append_nil, Text.pieces_of_notMem hlead, List.map_nil]
  | cons line rest ih =>
    obtain ⟨hline, hmore⟩ := List.forall_mem_cons.mp hrest
    have hpadded : '\n' ∉ line.padded names column := by
      simp [Line.padded, hline]
    have hrow : lead ++ (line :: rest).flatMap (Line.row names column) =
        lead ++ '\n' :: (line.padded names column ++ rest.flatMap (Line.row names column)) := by
      rw [List.flatMap_cons]
      rfl
    rw [hrow, Text.pieces_append_mark, Text.pieces_of_notMem hlead, ih hpadded hmore,
      List.map_cons]
    rfl

/-- A line is the header of a broken node, a leaf, or a node that is short enough. -/
theorem Tree.line_cases (h : line ∈ tree.laidOutLines margin names column) :
    (∃ label children, line.tree = .node label children ∧ line.broken = true ∧
        line.item names = "[.".toList ++ Tex.escapeChars label.toList) ∨
      (∃ text, line.tree = .leaf text ∧ line.broken = false ∧
        line.item names = leafChars (names line.place) text) ∨
      ∃ label children, line.tree = .node label children ∧ line.broken = false ∧
        line.item names = (Tree.node label children).flat (names.under line.place) ∧
        ((line.item names).length + line.column column) % Text.wordBound < margin := by
  obtain ⟨hget, -, hkind⟩ := line_stands h
  cases hbroken : line.broken with
  | true =>
    obtain ⟨⟨label, children, htree⟩, -⟩ := hkind.mp hbroken
    exact .inl ⟨label, children, htree, rfl, by rw [Line.item, if_pos hbroken, htree]; rfl⟩
  | false =>
    have hitem := Line.item_of_whole names hbroken
    cases htree : line.tree with
    | leaf text =>
      have hname : names.under line.place [] = names line.place :=
        congrArg names (List.append_nil line.place)
      refine .inr (.inl ⟨text, rfl, rfl, ?_⟩)
      rw [hitem, htree, flat, hname]
    | node label children =>
      obtain ⟨head, inside, hsub, hfits⟩ := fitsAt_of_whole_line h hbroken htree
      have hsame : line.tree = .node head inside := Option.some.inj (hget.symm.trans hsub)
      rw [← hsame, ← hitem] at hfits
      exact .inr (.inr ⟨label, children, rfl, rfl, by rw [hitem, htree], hfits⟩)

/-- If the first sum fits into a word, a node on one line reaches the margin with brackets only. -/
theorem Tree.length_whole_line_lt {label : String} {children : Forest}
    (hroom : (tree.flat names).length + column < Text.wordBound)
    (h : line ∈ tree.laidOutLines margin names column) (hwhole : line.broken = false)
    (hnode : line.tree = .node label children) :
    line.column column + (line.chars names).length < margin + 2 * line.closers := by
  obtain ⟨hget, -, -⟩ := line_stands h
  obtain ⟨head, inside, hsub, hfits⟩ :=
    (fitsAt_iff_of_lt hroom).mp (fitsAt_of_whole_line h hwhole hnode)
  have hsame : line.tree = .node head inside := Option.some.inj (hget.symm.trans hsub)
  rw [← hsame, ← Line.item_of_whole names hwhole] at hfits
  rw [Line.length_chars, Line.column, columnAt_eq_of_get? hroom hget]
  omega

/-- Below the first line every line stands under a broken node. -/
theorem Tree.exists_above (hlines : tree.laidOutLines margin names column = first :: rest)
    (hplace : first.place = []) (h : line ∈ rest) :
    ∃ above ∈ tree.laidOutLines margin names column, ∃ index,
      line.place = above.place ++ [index] ∧ above.broken = true := by
  have hne : line.place ≠ [] := by
    intro hnil
    have hsorted := tree.pairwise_place margin names column
    rw [hlines, List.map_cons, List.pairwise_cons, hplace] at hsorted
    have hlt := hsorted.1 line.place (List.mem_map_of_mem h)
    rw [hnil] at hlt
    exact List.lt_irrefl [] hlt
  have hmem : line ∈ tree.laidOutLines margin names column :=
    hlines ▸ List.mem_cons_of_mem first h
  have hparent := (List.dropLast_concat_getLast hne).symm
  obtain ⟨above, habove, hplaces, hbroken⟩ := exists_parent_line hmem hparent
  exact ⟨above, habove, _, hplaces ▸ hparent, hbroken⟩

/-- Below the first line stand the children of each node that does not fit. -/
theorem Tree.exists_child_below {children : Forest} {place : Position} {label : String}
    {index : Nat}
    (hlines : tree.laidOutLines margin names column = first :: rest) (hplace : first.place = [])
    (hget : tree.get? place = some (.node label children))
    (hfits : ¬ tree.FitsWithin margin column names place) (hindex : index < children.length) :
    ∃ line ∈ rest, line.place = place ++ [index] := by
  obtain ⟨line, hmem, hchild⟩ := exists_child_line hget hfits hindex
  rw [hlines] at hmem
  have hne : line ≠ first := by
    rintro rfl
    exact List.append_ne_nil_of_right_ne_nil place (List.cons_ne_nil index [])
      (hchild.symm.trans hplace)
  exact ⟨line, (List.mem_cons.mp hmem).resolve_left hne, hchild⟩

/-- A line that is not broken shows every subtree of its own as it is written on one line. -/
theorem Tree.isInfix_item {sub : Tree} {place : Position}
    (h : line ∈ tree.laidOutLines margin names column) (hwhole : line.broken = false)
    (hinside : line.place <+: place) (hget : tree.get? place = some sub) :
    sub.flat (names.under place) <:+: line.item names := by
  obtain ⟨inner, rfl⟩ := hinside
  obtain ⟨hline, -, -⟩ := line_stands h
  rw [get?_append, hline, Option.bind_some] at hget
  rw [Line.item_of_whole names hwhole, ← Naming.under_under]
  exact flat_isInfix hget (names.under line.place)

end Lines

/-- The layout breaks exactly what does not fit, and only what cannot be broken overruns the margin.
Cut at its line ends, a laid out tree is its lines. A leaf is drawn on one line, and so is a node
that fits or stands inside one that does. Any other node is broken, and each of its children starts
a line two columns further in. Every line is the header of a broken node, a leaf, or a node drawn on
one line, and closing brackets behind it. If the length of the tree and the indentation together
fit into a word, no sum wraps around, and in the last case only brackets can reach the margin. -/
theorem Tree.laidOut_breaks_what_does_not_fit {tree : Tree}
    (h : ∀ text ∈ tree.texts, '\n' ∉ text.toList) (layout : Layout) (anchors : Anchors) :
    let names := anchors.naming
    let fits := tree.FitsWithin layout.margin layout.indent names
    let lines := tree.laidOutLines layout.margin names layout.indent
    let chars := tree.laidOut layout.margin names layout.indent
    ∃ first rest, lines = first :: rest ∧ first.place = [] ∧
      Text.pieces (· == '\n') chars =
        first.chars names :: rest.map (Line.padded names layout.indent) ∧
      (tree.anchors? = some anchors → ∃ diagram, Diagram.ofTree? layout tree = some diagram ∧
        diagram.text.toList = "\\Tree ".toList ++ chars) ∧
      (lines.map Line.place).Pairwise (· < ·) ∧
      (∀ place sub, tree.get? place = some sub →
        ((∃ line ∈ lines, line.broken = false ∧ line.place <+: place ∧
            sub.flat (names.under place) <:+: line.item names) ↔
          (∃ text, sub = .leaf text) ∨ fits place)) ∧
      (∀ place label children, tree.get? place = some (.node label children) →
        ((∃ line ∈ lines, line.place = place ∧ line.broken = true) ↔ ¬ fits place) ∧
        (¬ fits place → ∀ index < children.length, ∃ line ∈ rest,
          line.place = place ++ [index] ∧
          line.column layout.indent = (columnAt layout.indent place.length + 2) % Text.wordBound)) ∧
      (∀ line ∈ rest, ∃ above ∈ lines, ∃ index, line.place = above.place ++ [index] ∧
        above.broken = true) ∧
      (∀ line ∈ lines, tree.get? line.place = some line.tree ∧
        line.chars names = line.item names ++ (List.replicate line.closers " ]".toList).flatten ∧
        ((∃ label children, line.tree = .node label children ∧ line.broken = true ∧
            line.item names = "[.".toList ++ Tex.escapeChars label.toList) ∨
          (∃ text, line.tree = .leaf text ∧ line.broken = false ∧
            line.item names = leafChars (names line.place) text) ∨
          ∃ label children, line.tree = .node label children ∧ line.broken = false ∧
            line.item names = (Tree.node label children).flat (names.under line.place) ∧
            ((line.item names).length + line.column layout.indent) % Text.wordBound <
              layout.margin)) ∧
      ((tree.flat names).length + layout.indent < Text.wordBound →
        (∀ place, tree.FitsAt layout.margin layout.indent names place ↔
          ∃ label children, tree.get? place = some (.node label children) ∧
            ((Tree.node label children).flat (names.under place)).length +
              (layout.indent + 2 * place.length) < layout.margin) ∧
        ∀ line ∈ lines, line.column layout.indent = layout.indent + 2 * line.place.length ∧
          ∀ label children, line.tree = .node label children → line.broken = false →
            line.column layout.indent + (line.chars names).length <
              layout.margin + 2 * line.closers) := by
  intro names fits lines chars
  obtain ⟨first, rest, hlines, hplace⟩ :=
    tree.exists_lines_eq_cons layout.margin layout.indent names
  have hfeeds : ∀ line ∈ first :: rest, '\n' ∉ line.chars names := by
    intro line hmem
    exact lineEnd_notMem_chars anchors.naming_oneLine h (hlines ▸ hmem)
  obtain ⟨hfirst, hrest⟩ := List.forall_mem_cons.mp hfeeds
  refine ⟨first, rest, hlines, hplace, ?_, ?_, tree.pairwise_place _ _ _, ?_, ?_, ?_, ?_, ?_⟩
  · rw [← pieces_rows hfirst hrest]
    exact congrArg (Text.pieces (· == '\n')) (laidOut_eq_append hlines hplace)
  · exact fun hanchors => exists_text_eq hanchors layout
  · intro place sub hget
    rw [← exists_whole_line_iff hget]
    constructor
    · rintro ⟨line, hmem, hwhole, hprefix, -⟩
      exact ⟨line, hmem, hwhole, hprefix⟩
    · rintro ⟨line, hmem, hwhole, hprefix⟩
      exact ⟨line, hmem, hwhole, hprefix, isInfix_item hmem hwhole hprefix hget⟩
  · intro place label children hget
    refine ⟨?_, ?_⟩
    · rw [exists_broken_line_iff]
      exact and_iff_right ⟨label, children, hget⟩
    · intro hfits index hindex
      obtain ⟨line, hmem, hchild⟩ := exists_child_below hlines hplace hget hfits hindex
      refine ⟨line, hmem, hchild, ?_⟩
      rw [Line.column, hchild, List.length_append, List.length_singleton, columnAt_succ]
  · exact fun line hmem => exists_above hlines hplace hmem
  · intro line hmem
    obtain ⟨hget, -, -⟩ := line_stands hmem
    exact ⟨hget, rfl, line_cases hmem⟩
  · intro hroom
    refine ⟨fun place => fitsAt_iff_of_lt hroom, ?_⟩
    intro line hmem
    obtain ⟨hget, -, -⟩ := line_stands hmem
    refine ⟨columnAt_eq_of_get? hroom hget, ?_⟩
    exact fun label children hnode hwhole => length_whole_line_lt hroom hmem hwhole hnode

/-- A node in the middle fits, and the two leaves with names overrun the margin. -/
theorem Tree.laidOut_breaks_what_does_not_fit_middle :
    let tree : Tree := .node "S" [.leaf "a_b",
      .node "NP" [.leaf "c", .node "N" [.leaf "d"]], .node "" [.leaf "e"]]
    let layout : Layout := { margin := 30 }
    let anchors : Anchors := ⟨[0], [2, 0]⟩
    let lines := tree.laidOutLines layout.margin anchors.naming layout.indent
    (∀ text ∈ tree.texts, '\n' ∉ text.toList) ∧
      (∃ diagram, Diagram.ofTree? layout tree = some diagram ∧
        Text.pieces (· == '\n') diagram.text.toList =
          ["\\Tree [.S".toList,
            "        \\edge; \\node(n0) \x7ba\\ b\x7d;".toList,
            "        [.NP c [.N d ] ]".toList,
            "        [.".toList,
            "          \\edge; \\node(n1) \x7be\x7d; ] ]".toList]) ∧
      (∃ line ∈ lines, line.broken = false ∧ line.place <+: [1, 1] ∧
        "[.N d ]".toList <:+: line.item anchors.naming) ∧
      (¬ ∃ line ∈ lines, line.place = [1] ∧ line.broken = true) ∧
      ∀ line ∈ lines, line.column 6 = 6 + 2 * line.place.length := by
  intro tree layout anchors lines
  have htexts : ∀ text ∈ tree.texts, '\n' ∉ text.toList := by decide +kernel
  have hfits : tree.FitsAt layout.margin layout.indent anchors.naming [1] :=
    ⟨"NP", _, rfl, by decide +kernel⟩
  obtain ⟨first, rest, -, -, -, hdiagram, -, hwhole, hbroken, -, -, hexact⟩ :=
    laidOut_breaks_what_does_not_fit htexts layout anchors
  obtain ⟨diagram, hdiagram, htext⟩ := hdiagram (by decide)
  obtain ⟨-, hlines⟩ := hexact (by decide +kernel)
  refine ⟨htexts, ⟨diagram, hdiagram, ?_⟩, ?_, ?_, fun line hmem => (hlines line hmem).1⟩
  · rw [htext]
    decide +kernel
  · have hinside : [1] <+: [1, 1] := ⟨[1], rfl⟩
    exact (hwhole [1, 1] _ rfl).mpr (.inr ⟨[1], hinside, hfits⟩)
  · intro hline
    exact (hbroken [1] _ _ rfl).1.mp hline ⟨[1], List.prefix_rfl, hfits⟩

end TreeFigure
