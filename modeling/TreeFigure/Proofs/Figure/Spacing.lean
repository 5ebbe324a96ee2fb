import TreeFigure.Proofs.Figure.Decoration
import TreeFigure.Proofs.Figure.Drawn

/-!
A layout chooses spacing and nothing else. Two drawings of a tree with the same names differ only in
their gaps. A gap is squeezed to one space together with the spacing that the texts around it begin
or end with, so the drawings are equal once they are squeezed.
-/

namespace TreeFigure.Diagram

/-- Drops every spacing character that follows another and makes each of the others a space.
`spaced` tells whether a spacing character stands right before the text. -/
def squeezeAfter (spaced : Bool) : List Char → List Char
  | [] => []
  | c :: rest =>
    if isSpacing c then
      if spaced then squeezeAfter true rest else ' ' :: squeezeAfter true rest
    else c :: squeezeAfter false rest

/-- The text with one space in place of every longest run of spacing characters. -/
def squeeze (text : String) : String :=
  String.ofList (squeezeAfter false text.toList)

/-- The texts are squeezed to one text, whatever stands before them. -/
def Alike (text other : List Char) : Prop :=
  ∀ spaced, squeezeAfter spaced text = squeezeAfter spaced other

section Alike

variable {rest after : List Char}

theorem Alike.append_left (h : Alike rest after) (text : List Char) :
    Alike (text ++ rest) (text ++ after) := by
  induction text with
  | nil => exact h
  | cons c text ih =>
    intro spaced
    simp only [List.cons_append, squeezeAfter, ih true, ih false]

/-- A run of spacing is one space, or none behind other spacing. -/
theorem squeezeAfter_run {run : List Char} (hrun : ∀ c ∈ run, isSpacing c = true) :
    squeezeAfter true (run ++ rest) = squeezeAfter true rest := by
  induction run with
  | nil => rfl
  | cons c run ih =>
    obtain ⟨hc, htail⟩ := List.forall_mem_cons.mp hrun
    rw [List.cons_append, squeezeAfter, if_pos hc, if_pos rfl, ih htail]

theorem squeezeAfter_gap {gap : List Char} (hgap : IsSpacing gap) (spaced : Bool) :
    squeezeAfter spaced (gap ++ rest) =
      (if spaced then [] else [' ']) ++ squeezeAfter true rest := by
  obtain ⟨c, run, rfl⟩ := List.exists_cons_of_ne_nil hgap.1
  obtain ⟨hc, hrun⟩ := List.forall_mem_cons.mp hgap.2
  rw [List.cons_append, squeezeAfter, if_pos hc, squeezeAfter_run hrun]
  cases spaced with
  | false => rfl
  | true => rfl

theorem Alike.gap {gap other : List Char} (hgap : IsSpacing gap) (hother : IsSpacing other)
    (h : Alike rest after) : Alike (gap ++ rest) (other ++ after) := by
  intro spaced
  rw [squeezeAfter_gap hgap, squeezeAfter_gap hother, h true]

end Alike

mutual

/-- Two drawings of a tree with the same names are alike, and so are they with what follows. -/
theorem TreeDrawn.alike {names : Naming} {text other : List Char} {tree : Tree}
    (h : TreeDrawn names text tree) (hother : TreeDrawn names other tree) {rest after : List Char}
    (hrest : Alike rest after) : Alike (text ++ rest) (other ++ after) := by
  cases h with
  | leaf =>
    cases hother with
    | leaf => exact hrest.append_left _
  | node hitems =>
    cases hother with
    | node hmore =>
      rw [List.append_assoc, List.append_assoc]
      exact (hitems.alike hmore hrest).append_left _

theorem ItemsDrawn.alike {names : Naming} {index : Nat} {items others : List Char}
    {trees : Forest} (h : ItemsDrawn names index items trees)
    (hother : ItemsDrawn names index others trees) {rest after : List Char}
    (hrest : Alike rest after) : Alike (items ++ rest) (others ++ after) := by
  cases h with
  | close hgap =>
    cases hother with
    | close hspace =>
      rw [List.append_assoc, List.append_assoc]
      exact .gap hgap hspace (hrest.append_left [']'])
  | item hgap htree htrees =>
    cases hother with
    | item hspace hfirst hmore =>
      simp only [List.append_assoc]
      exact .gap hgap hspace (htree.alike hfirst (htrees.alike hmore hrest))

end

/-- Diagrams of one tree are alike. -/
theorem squeeze_text {layout wide : Layout} {tree : Tree} {diagram drawing : Diagram}
    (h : ofTree? layout tree = some diagram) (hother : ofTree? wide tree = some drawing) :
    squeeze diagram.text = squeeze drawing.text := by
  obtain ⟨anchors, body, hanchors, htext, hbody⟩ := exists_drawn h
  obtain ⟨places, more, hplaces, hchars, hmore⟩ := exists_drawn hother
  obtain rfl : anchors = places := Option.some.inj (hanchors.symm.trans hplaces)
  have hend : Alike [] [] := fun _ => rfl
  have hdrawings := (hbody.alike hmore hend).append_left "\\Tree ".toList
  rw [List.append_nil, List.append_nil] at hdrawings
  rw [squeeze, squeeze, htext, hchars, hdrawings false]

/-- A layout changes spacing only. Under any two layouts a tree with a leaf has diagrams with the
same anchors, and their texts are equal once every run of spaces and line ends is one space. -/
theorem ofTree?_squeeze_layout {tree : Tree} (h : tree.leaves ≠ []) (layout wide : Layout) :
    ∃ diagram drawing, ofTree? layout tree = some diagram ∧ ofTree? wide tree = some drawing ∧
      diagram.first = drawing.first ∧ diagram.last = drawing.last ∧
      squeeze diagram.text = squeeze drawing.text := by
  obtain ⟨diagram, hdiagram⟩ := exists_ofTree? h layout
  obtain ⟨drawing, hdrawing⟩ := exists_ofTree? h wide
  obtain ⟨hfirst, hlast⟩ := names_eq hdiagram
  obtain ⟨hstart, hend⟩ := names_eq hdrawing
  exact ⟨diagram, drawing, hdiagram, hdrawing, hfirst.trans hstart.symm, hlast.trans hend.symm,
    squeeze_text hdiagram hdrawing⟩

/-- Texts that begin and end with spacing, and a node without children, on one line and broken. -/
theorem ofTree?_squeeze_layout_spaced_texts :
    let tree : Tree := .node "a " [.leaf " b\n", .node "" [], .leaf "\n\n c_"]
    let layout : Layout := { margin := 200 }
    let narrow : Layout := { margin := 0, indent := 3 }
    tree.leaves ≠ [] ∧
      (ofTree? layout tree).map Diagram.text ≠ (ofTree? narrow tree).map Diagram.text ∧
      (ofTree? layout tree).map (fun diagram => squeeze diagram.text) =
        (ofTree? narrow tree).map (fun diagram => squeeze diagram.text) := by
  intro tree layout narrow
  have hleaf : tree.leaves ≠ [] := by decide
  obtain ⟨diagram, drawing, hdiagram, hdrawing, -, -, htext⟩ :=
    ofTree?_squeeze_layout hleaf layout narrow
  refine ⟨hleaf, by decide +kernel, ?_⟩
  rw [hdiagram, hdrawing, Option.map_some, Option.map_some, htext]

end TreeFigure.Diagram
