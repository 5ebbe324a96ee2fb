import TreeFigure.Proofs.Figure.Drawn
import TreeFigure.Proofs.Tex.Unescaping
import TreeFigure.Proofs.Tree.Legible

/-!
The notation of diagrams can be read back. A text is the drawing of at most one legible tree,
whatever the layout and whichever leaves are named as anchors, and it tells where the drawing ends.
-/

namespace TreeFigure

open Text Tex

/-- Names of anchors, whichever positions have them. -/
def Naming.OfAnchors (names : Naming) : Prop :=
  ∀ position, ∀ name ∈ names position, name = "n0" ∨ name = "n1"

theorem Naming.OfAnchors.below {names : Naming} (h : names.OfAnchors) (index : Nat) :
    (names.below index).OfAnchors :=
  fun position => h (index :: position)

theorem Anchors.naming_ofAnchors (anchors : Anchors) : anchors.naming.OfAnchors := by
  intro position name hname
  rcases anchors.naming_cases position with hnone | hfirst | hlast
  · rw [hnone] at hname
    cases hname
  · rw [hfirst] at hname
    exact .inl (Option.some.inj hname).symm
  · rw [hlast] at hname
    exact .inr (Option.some.inj hname).symm

namespace Diagram

theorem isBlank_of_isSpacing {c : Char} (h : isSpacing c = true) : isBlank c = true := by
  rw [isSpacing, Bool.or_eq_true, beq_iff_eq, beq_iff_eq] at h
  rcases h with rfl | rfl <;> decide

/-- Spacing ends every text without blanks. -/
theorem closes_of_isSpacing {stop : Char} {text : List Char} (h : isSpacing stop = true)
    (htext : ∀ c ∈ text, isBlank c = false) : Closes stop text := by
  have hnot : stop ∉ text := by
    intro hmem
    have hblank := isBlank_of_isSpacing h
    rw [htext stop hmem] at hblank
    cases hblank
  rw [isSpacing, Bool.or_eq_true, beq_iff_eq, beq_iff_eq] at h
  refine closes_of_notMem ?_ ?_ hnot <;> rcases h with rfl | rfl <;> decide

/-- Neither spacing nor a closing bracket starts the drawing of a tree. -/
theorem TreeDrawn.head?_ne {names : Naming} {text : List Char} {tree : Tree}
    (h : TreeDrawn names text tree) (htree : tree.Legible) (rest : List Char) {stop : Char}
    (hstop : isSpacing stop = true ∨ stop = ']') : (text ++ rest).head? ≠ some stop := by
  cases h with
  | @leaf _ text =>
    have htext := Tree.legible_leaf_iff.mp htree
    cases names [] with
    | none =>
      refine Closes.head?_ne ?_ htext.1 rest
      rcases hstop with hspacing | rfl
      · exact closes_of_isSpacing hspacing htext.2
      · exact closes_of_escaped (by decide) (by decide) (by decide) _
    | some name =>
      have hhead : (leafChars (some name) text ++ rest).head? = some '\\' := rfl
      rw [hhead]
      rintro ⟨rfl⟩
      revert hstop
      decide
  | @node _ label items children hitems =>
    have hhead : (header label ++ items ++ rest).head? = some '[' := rfl
    rw [hhead]
    rintro ⟨rfl⟩
    revert hstop
    decide

theorem TreeDrawn.not_begins_isSpacing {names : Naming} {text : List Char} {tree : Tree}
    (h : TreeDrawn names text tree) (htree : tree.Legible) (rest : List Char) :
    ¬ Begins isSpacing (text ++ rest) := by
  intro hbegins
  obtain ⟨c, tail, htext, hc⟩ := hbegins.exists_cons
  apply h.head?_ne htree rest (.inl hc)
  rw [htext, List.head?_cons]

theorem not_begins_isSpacing_bracket (rest : List Char) : ¬ Begins isSpacing (']' :: rest) := by
  rw [begins_cons]
  decide

/-- Named or not, a leaf is not drawn like a node. -/
theorem leafChars_append_ne_bracket {name : Option String} {text : String}
    (htext : IsToken text.toList) (rest more : List Char) :
    leafChars name text ++ rest ≠ '[' :: more := by
  intro h
  cases name with
  | none =>
    have hcloses : Closes '[' text.toList :=
      closes_of_escaped (by decide) (by decide) (by decide) text.toList
    exact hcloses.head?_ne htext.1 rest (congrArg List.head? h)
  | some name => exact absurd (List.cons.inj h).1 (by decide)

theorem leafChars_some_append (name text : String) (rest : List Char) :
    leafChars (some name) text ++ rest = "\\edge; \\node(".toList ++
      (name.toList ++ ')' :: ' ' :: (group (escapeChars text.toList) ++ ';' :: rest)) := by
  have hclose : ") ".toList = [')', ' '] := by decide
  unfold leafChars
  dsimp only
  rw [hclose]
  simp only [List.append_assoc, List.cons_append, List.nil_append]

/-- The drawing of a leaf determines its text and where it ends, whether the leaf is named or
not. -/
theorem leafChars_append_inj {name label : Option String} {text other : String}
    (hname : ∀ found ∈ name, found = "n0" ∨ found = "n1")
    (hlabel : ∀ found ∈ label, found = "n0" ∨ found = "n1") (htext : IsToken text.toList)
    (hother : IsToken other.toList) {rest more : List Char} (hrest : Begins isSpacing rest)
    (hmore : Begins isSpacing more)
    (h : leafChars name text ++ rest = leafChars label other ++ more) :
    text = other ∧ rest = more := by
  cases name with
  | none =>
    cases label with
    | none =>
      obtain ⟨c, tail, rfl, hc⟩ := hrest.exists_cons
      obtain ⟨d, after, rfl, hd⟩ := hmore.exists_cons
      obtain ⟨hchars, heq⟩ := escapeChars_append_inj (closes_of_isSpacing hc hother.2)
        (closes_of_isSpacing hd htext.2) h
      exact ⟨String.toList_inj.mp hchars, heq⟩
    | some label => exact absurd h (escapeChars_append_ne_edge htext.1 rest _)
  | some name =>
    cases label with
    | none => exact absurd h.symm (escapeChars_append_ne_edge hother.1 more _)
    | some label =>
      have hnamed (found : String) (hfound : found = "n0" ∨ found = "n1") :
          ∀ c ∈ found.toList, (c != ')') = true := by
        apply List.all_eq_true.mp
        rcases hfound with rfl | rfl
        · rfl
        · rfl
      have hstop (tail : List Char) : ¬ Begins (· != ')') (')' :: tail) := by
        rw [begins_cons]
        decide
      rw [leafChars_some_append, leafChars_some_append] at h
      obtain ⟨-, hafter⟩ := append_inj_of_run (hnamed name (hname name rfl))
        (hnamed label (hlabel label rfl)) (hstop _) (hstop _) (List.append_cancel_left h)
      obtain ⟨hchars, heq⟩ :=
        group_escapeChars_append_inj (List.cons.inj (List.cons.inj hafter).2).2
      exact ⟨String.toList_inj.mp hchars, (List.cons.inj heq).2⟩

theorem header_append_inj {label other : String} (hlabel : ∀ c ∈ label.toList, isBlank c = false)
    (hother : ∀ c ∈ other.toList, isBlank c = false) {rest more : List Char}
    (hrest : Begins isSpacing rest) (hmore : Begins isSpacing more)
    (h : header label ++ rest = header other ++ more) : label = other ∧ rest = more := by
  obtain ⟨c, tail, rfl, hc⟩ := hrest.exists_cons
  obtain ⟨d, after, rfl, hd⟩ := hmore.exists_cons
  unfold header at h
  rw [List.append_assoc, List.append_assoc] at h
  obtain ⟨hchars, heq⟩ := escapeChars_append_inj (closes_of_isSpacing hc hother)
    (closes_of_isSpacing hd hlabel) (List.append_cancel_left h)
  exact ⟨String.toList_inj.mp hchars, heq⟩

mutual

/-- A text draws one tree at most, and the tree tells where its drawing ends. -/
theorem TreeDrawn.unique {names labels : Naming} {text more : List Char} {tree other : Tree}
    (h : TreeDrawn names text tree) (hother : TreeDrawn labels more other)
    (hnames : names.OfAnchors) (hlabels : labels.OfAnchors) (htree : tree.Legible)
    (hlegible : other.Legible) {rest after : List Char} (hrest : Begins isSpacing rest)
    (hafter : Begins isSpacing after) (heq : text ++ rest = more ++ after) :
    tree = other ∧ rest = after := by
  cases h with
  | leaf =>
    have htext := Tree.legible_leaf_iff.mp htree
    cases hother with
    | leaf =>
      have hword := Tree.legible_leaf_iff.mp hlegible
      obtain ⟨rfl, htail⟩ :=
        leafChars_append_inj (hnames []) (hlabels []) htext hword hrest hafter heq
      exact ⟨rfl, htail⟩
    | node => exact absurd heq (leafChars_append_ne_bracket htext rest _)
  | node hitems =>
    obtain ⟨hlabel, hchildren⟩ := Tree.legible_node_iff.mp htree
    cases hother with
    | leaf =>
      have hword := Tree.legible_leaf_iff.mp hlegible
      exact absurd heq.symm (leafChars_append_ne_bracket hword after _)
    | node hmore =>
      obtain ⟨hname, hothers⟩ := Tree.legible_node_iff.mp hlegible
      rw [List.append_assoc, List.append_assoc] at heq
      obtain ⟨rfl, hbody⟩ :=
        header_append_inj hlabel hname (hitems.begins rest) (hmore.begins after) heq
      obtain ⟨rfl, htail⟩ := hitems.unique hmore hnames hlabels hchildren hothers hbody
      exact ⟨rfl, htail⟩

/-- The same for the trees in a node, whose bracket ends the drawing. -/
theorem ItemsDrawn.unique {names labels : Naming} {index : Nat} {items more : List Char}
    {trees others : Forest} (h : ItemsDrawn names index items trees)
    (hother : ItemsDrawn labels index more others) (hnames : names.OfAnchors)
    (hlabels : labels.OfAnchors) (htrees : ∀ tree ∈ trees, tree.Legible)
    (hlegible : ∀ tree ∈ others, tree.Legible) {rest after : List Char}
    (heq : items ++ rest = more ++ after) : trees = others ∧ rest = after := by
  -- Both gaps end where spacing ends, so what follows them starts at the same place.
  cases h with
  | close hgap =>
    have hstop := not_begins_isSpacing_bracket rest
    cases hother with
    | close hspace =>
      rw [List.append_assoc, List.append_assoc] at heq
      obtain ⟨-, hbody⟩ := append_inj_of_run hgap.2 hspace.2 hstop
        (not_begins_isSpacing_bracket after) heq
      exact ⟨rfl, (List.cons.inj hbody).2⟩
    | item hspace hfirst hmore =>
      have hword := hlegible _ List.mem_cons_self
      rw [List.append_assoc, List.append_assoc, List.append_assoc] at heq
      obtain ⟨-, hbody⟩ := append_inj_of_run hgap.2 hspace.2 hstop
        (hfirst.not_begins_isSpacing hword _) heq
      exact absurd (congrArg List.head? hbody).symm (hfirst.head?_ne hword _ (.inr rfl))
  | item hgap htree hrest =>
    obtain ⟨hhead, htail⟩ := List.forall_mem_cons.mp htrees
    have hstart := htree.not_begins_isSpacing hhead
    cases hother with
    | close hspace =>
      rw [List.append_assoc, List.append_assoc, List.append_assoc] at heq
      obtain ⟨-, hbody⟩ := append_inj_of_run hgap.2 hspace.2 (hstart _)
        (not_begins_isSpacing_bracket after) heq
      exact absurd (congrArg List.head? hbody) (htree.head?_ne hhead _ (.inr rfl))
    | item hspace hfirst hmore =>
      obtain ⟨hword, hothers⟩ := List.forall_mem_cons.mp hlegible
      repeat rw [List.append_assoc] at heq
      obtain ⟨-, hbody⟩ := append_inj_of_run hgap.2 hspace.2 (hstart _)
        (hfirst.not_begins_isSpacing hword _) heq
      obtain ⟨rfl, hitems⟩ := htree.unique hfirst (hnames.below index) (hlabels.below index)
        hhead hword (hrest.begins rest) (hmore.begins after) hbody
      obtain ⟨rfl, hend⟩ := hrest.unique hmore hnames hlabels htail hothers hitems
      exact ⟨rfl, hend⟩

end

/-- A diagram determines its tree, under whatever layouts it is drawn, and spacing after it is
told from it. -/
theorem text_append_inj {layout wide : Layout} {tree other : Tree}
    {diagram drawing : Diagram} (h : ofTree? layout tree = some diagram)
    (hother : ofTree? wide other = some drawing) (htree : tree.Legible) (hlegible : other.Legible)
    {rest after : List Char} (hrest : Begins isSpacing rest) (hafter : Begins isSpacing after)
    (heq : diagram.text.toList ++ rest = drawing.text.toList ++ after) :
    tree = other ∧ rest = after := by
  obtain ⟨anchors, body, -, htext, hbody⟩ := exists_drawn h
  obtain ⟨places, more, -, hchars, hmore⟩ := exists_drawn hother
  rw [htext, hchars, List.append_assoc, List.append_assoc] at heq
  exact hbody.unique hmore anchors.naming_ofAnchors places.naming_ofAnchors htree hlegible hrest
    hafter (List.append_cancel_left heq)

end Diagram

end TreeFigure
