import TreeFigure.Proofs.Figure.Document
import TreeFigure.Proofs.Figure.Notation

/-!
Nothing is lost in a drawing. A diagram determines its tree, whatever the layout, and a document
determines its tree and its tokens.
-/

namespace TreeFigure

open Text Tex

namespace Document

theorem natChars_inj {n m : Nat} (h : natChars n = natChars m) : n = m := by
  have hdigits : Nat.toDigits 10 n = Nat.toDigits 10 m := by
    rw [← Nat.toList_repr, ← Nat.toList_repr]
    exact h
  have hvalue := congrArg (Nat.ofDigitChars 10 · 0) hdigits
  simpa only [Nat.ofDigitChars_ten_toDigits] using hvalue

theorem group_natChars_append_inj {n m : Nat} {rest more : List Char}
    (h : group (natChars n) ++ rest = group (natChars m) ++ more) : n = m ∧ rest = more := by
  have hrun (k : Nat) : ∀ c ∈ natChars k, (c != '}') = true := by
    intro c hc
    rw [bne_iff_ne]
    rintro rfl
    have hplain : isPlain '}' = true := List.all_eq_true.mp (isPlain_natChars k) _ hc
    exact absurd hplain (by decide)
  have hstop (after : List Char) : ¬ Begins (· != '}') ('}' :: after) := by
    rw [begins_cons]
    decide
  have hbody : natChars n ++ '}' :: rest = natChars m ++ '}' :: more := by
    simpa [group] using h
  obtain ⟨hchars, hrest⟩ := append_inj_of_run (hrun n) (hrun m) (hstop rest) (hstop more) hbody
  exact ⟨natChars_inj hchars, (List.cons.inj hrest).2⟩

section Rows

variable {anchor name : String} {height : Int} {rest more : List Char}

theorem under_append_inj {body other : List Char}
    (h : under anchor height name body ++ rest = under anchor height name other ++ more) :
    group body ++ (";\n".toList ++ rest) = group other ++ (";\n".toList ++ more) := by
  unfold under at h
  simp only [List.append_assoc] at h
  repeat apply List.append_cancel_left at h
  exact h

theorem under_escapeChars_append_inj {text other : String}
    (h : under anchor height name (escapeChars text.toList) ++ rest =
      under anchor height name (escapeChars other.toList) ++ more) :
    text = other ∧ rest = more := by
  obtain ⟨hchars, hrest⟩ := group_escapeChars_append_inj (under_append_inj h)
  exact ⟨String.toList_inj.mp hchars, List.append_cancel_left hrest⟩

theorem under_natChars_append_inj {n m : Nat}
    (h : under anchor height name (natChars n) ++ rest =
      under anchor height name (natChars m) ++ more) : n = m ∧ rest = more := by
  obtain ⟨hnumber, hrest⟩ := group_natChars_append_inj (under_append_inj h)
  exact ⟨hnumber, List.append_cancel_left hrest⟩

theorem between_append_inj {first last : String} {fraction body other : List Char}
    (h : between first last fraction body ++ rest = between first last fraction other ++ more) :
    group body ++ (";\n".toList ++ rest) = group other ++ (";\n".toList ++ more) := by
  unfold between at h
  simp only [List.append_assoc] at h
  repeat apply List.append_cancel_left at h
  exact h

/-- With its span and its index known, an inner token is read off its two nodes. -/
theorem inner_append_inj {span index : Nat} {token other : String}
    (h : inner span index token ++ rest = inner span index other ++ more) :
    token = other ∧ rest = more := by
  unfold inner at h
  rw [List.append_assoc, List.append_assoc] at h
  obtain ⟨hchars, hafter⟩ := group_escapeChars_append_inj (between_append_inj h)
  have hindex := List.append_cancel_left hafter
  exact ⟨String.toList_inj.mp hchars, List.append_cancel_left hindex⟩

end Rows

theorem inners_append_inj {span index : Nat} {tokens others : List String}
    {rest more : List Char} (hlength : tokens.length = others.length)
    (h : inners span index tokens ++ rest = inners span index others ++ more) :
    tokens = others ∧ rest = more := by
  induction tokens generalizing others index with
  | nil =>
    obtain rfl := List.eq_nil_of_length_eq_zero hlength.symm
    exact ⟨rfl, h⟩
  | cons token tokens ih =>
    cases others with
    | nil => cases hlength
    | cons other others =>
      rw [inners, inners, List.append_assoc, List.append_assoc] at h
      obtain ⟨rfl, htail⟩ := inner_append_inj h
      obtain ⟨rfl, hrest⟩ := ih (Nat.succ.inj hlength) htail
      exact ⟨rfl, hrest⟩

/-- The parts of a token list that the rows show are all of it. One token is told from two equal
ones by the last index. -/
theorem eq_of_parts {tokens others : List String} (hne : tokens ≠ []) (hothers : others ≠ [])
    (hfirst : tokens.headD "" = others.headD "") (hlast : tokens.getLastD "" = others.getLastD "")
    (hindex : tokens.length - 1 = others.length - 1)
    (hinner : (tokens.drop 1).dropLast = (others.drop 1).dropLast) : tokens = others := by
  obtain ⟨first, tail, rfl⟩ := List.exists_cons_of_ne_nil hne
  obtain ⟨head, rest, rfl⟩ := List.exists_cons_of_ne_nil hothers
  obtain rfl : first = head := hfirst
  have hlength : tail.length = rest.length := hindex
  rcases List.eq_nil_or_concat tail with rfl | ⟨inside, last, rfl⟩
  · rw [List.eq_nil_of_length_eq_zero hlength.symm]
  · rcases List.eq_nil_or_concat rest with rfl | ⟨within, other, rfl⟩
    · simp at hlength
    · have hinside : inside = within := by simpa using hinner
      have hend : last = other := by
        rw [List.concat_eq_append, List.concat_eq_append, ← List.cons_append, ← List.cons_append,
          List.getLastD_concat, List.getLastD_concat] at hlast
        exact hlast
      rw [hinside, hend]

theorem rows_inj {diagram : Diagram} {layout : Layout} {height : Nat}
    {tokens others : List String} (hne : tokens ≠ []) (hothers : others ≠ [])
    (h : rows diagram layout height tokens = rows diagram layout height others) :
    tokens = others := by
  unfold rows at h
  simp only [List.append_assoc] at h
  obtain ⟨hfirst, hafter⟩ := under_escapeChars_append_inj h
  obtain ⟨hlast, hindices⟩ := under_escapeChars_append_inj hafter
  obtain ⟨hend, hinners⟩ := under_natChars_append_inj (List.append_cancel_left hindices)
  have hindex : tokens.length - 1 = others.length - 1 := hend
  have hlength : (tokens.drop 1).dropLast.length = (others.drop 1).dropLast.length := by
    rw [List.length_dropLast, List.length_dropLast, List.length_drop, List.length_drop, hindex]
  rw [hindex] at hinners
  have hall : inners (others.length - 1) 1 (tokens.drop 1).dropLast ++ [] =
      inners (others.length - 1) 1 (others.drop 1).dropLast ++ [] := by
    rw [List.append_nil, List.append_nil, hinners]
  obtain ⟨hinner, -⟩ := inners_append_inj hlength hall
  exact eq_of_parts hne hothers hfirst hlast hindex hinner

/-- The characters of a document, by its diagram and its tokens. -/
theorem toList_of_render? {layout : Layout} {font text : String} {tree : Tree}
    {tokens : List String} (h : render? layout font tree tokens = some text) :
    ∃ diagram, Diagram.ofTree? layout tree = some diagram ∧
      text.toList = opening font ++ (diagram.text.toList ++ '\n' ::
        (rows diagram layout tree.height tokens ++ closing)) := by
  obtain ⟨diagram, hdiagram, rfl⟩ := Option.map_eq_some_iff.mp h
  refine ⟨diagram, hdiagram, ?_⟩
  rw [String.toList_ofList, List.append_assoc, List.append_assoc, List.cons_append]

theorem render?_inj {layout : Layout} {font text : String} {tree other : Tree}
    {tokens others : List String} (htree : tree.Legible) (hother : other.Legible)
    (htokens : tokens ≠ []) (hothers : others ≠ [])
    (h : render? layout font tree tokens = some text)
    (heq : render? layout font other others = some text) : tree = other ∧ tokens = others := by
  obtain ⟨diagram, hdiagram, htext⟩ := toList_of_render? h
  obtain ⟨drawing, hdrawing, hsame⟩ := toList_of_render? heq
  rw [htext] at hsame
  have hline (after : List Char) : Begins Diagram.isSpacing ('\n' :: after) := begins_cons.mpr rfl
  obtain ⟨rfl, hafter⟩ := Diagram.text_append_inj hdiagram hdrawing htree hother (hline _)
    (hline _) (List.append_cancel_left hsame)
  obtain rfl : diagram = drawing := Option.some.inj (hdiagram.symm.trans hdrawing)
  have hrows := List.append_cancel_right (List.cons.inj hafter).2
  exact ⟨rfl, rows_inj htokens hothers hrows⟩

end Document

theorem Diagram.text_inj {layout wide : Layout} {tree other : Tree} {diagram drawing : Diagram}
    (htree : tree.Legible) (hother : other.Legible) (h : ofTree? layout tree = some diagram)
    (hdrawing : ofTree? wide other = some drawing) (heq : diagram.text = drawing.text) :
    tree = other := by
  have hspace : Begins isSpacing [' '] := begins_cons.mpr rfl
  have hchars : diagram.text.toList ++ [' '] = drawing.text.toList ++ [' '] := by rw [heq]
  exact (text_append_inj h hdrawing htree hother hspace hspace hchars).1

/-- No drawing loses information. Two legible trees with a leaf and two lists of tokens that have
one document are the same, and so are two such trees with one diagram, even of different layouts.
Every tree that was read is legible. -/
theorem Document.render?_determines_tree_and_tokens :
    (∀ (layout : Layout) (font : String) (tree other : Tree) (tokens others : List String),
      tree.Legible → other.Legible → tree.leaves ≠ [] → other.leaves ≠ [] →
      tokens ≠ [] → others ≠ [] →
      render? layout font tree tokens = render? layout font other others →
      tree = other ∧ tokens = others) ∧
    (∀ (layout wide : Layout) (tree other : Tree),
      tree.Legible → other.Legible → tree.leaves ≠ [] → other.leaves ≠ [] →
      (Diagram.ofTree? layout tree).map Diagram.text =
        (Diagram.ofTree? wide other).map Diagram.text →
      tree = other) ∧
    (∀ (text : String) (tree : Tree),
      Tree.parse text = .ok tree ∨ Tree.parseWith .brackets text = .ok tree → tree.Legible) := by
  refine ⟨?_, ?_, ?_⟩
  · intro layout font tree other tokens others htree hother hleaf _ htokens hothers heq
    obtain ⟨diagram, hdiagram⟩ := Diagram.exists_ofTree? hleaf layout
    have hsome : (render? layout font tree tokens).isSome = true := by
      rw [render?, hdiagram]
      rfl
    obtain ⟨text, hrender⟩ := Option.isSome_iff_exists.mp hsome
    exact render?_inj htree hother htokens hothers hrender (heq ▸ hrender)
  · intro layout wide tree other htree hother hleaf hleaves heq
    obtain ⟨diagram, hdiagram⟩ := Diagram.exists_ofTree? hleaf layout
    obtain ⟨drawing, hdrawing⟩ := Diagram.exists_ofTree? hleaves wide
    rw [hdiagram, hdrawing] at heq
    exact Diagram.text_inj htree hother hdiagram hdrawing (Option.some.inj heq)
  · rintro text tree (h | h)
    · exact .of_parse h
    · exact .of_parseWith h

/-- Leaves that imitate an edge, a space and the name of an anchor, read from a line and drawn
under two layouts. -/
theorem Document.render?_determines_imitations :
    let tree : Tree := .node "\\edge;" [.leaf "\\edge;", .leaf "a_|||", .leaf "n0"]
    let layout : Layout := { margin := 120 }
    let wide : Layout := { margin := 200, indent := 0 }
    Tree.parse "(\\edge; \\edge; a_||| n0)" = .ok tree ∧ tree.Legible ∧
      (Diagram.ofTree? layout tree).map Diagram.text =
        (Diagram.ofTree? wide (tree.mapText id)).map Diagram.text ∧
      tree = tree.mapText id ∧
      render? layout "gbsn" tree ["x", "x"] = render? layout "gbsn" tree (.replicate 2 "x") ∧
      ["x", "x"] = List.replicate 2 "x" := by
  intro tree layout wide
  have hread : Tree.parse "(\\edge; \\edge; a_||| n0)" = .ok tree := by decide +kernel
  have hlegible : tree.Legible := render?_determines_tree_and_tokens.2.2 _ tree (.inl hread)
  have hleaf : tree.leaves ≠ [] := by decide
  have htext : (Diagram.ofTree? layout tree).map Diagram.text =
      (Diagram.ofTree? wide (tree.mapText id)).map Diagram.text := by decide +kernel
  have htree : tree = tree.mapText id :=
    render?_determines_tree_and_tokens.2.1 layout wide tree (tree.mapText id) hlegible hlegible
      hleaf hleaf htext
  have hrender : render? layout "gbsn" tree ["x", "x"] =
      render? layout "gbsn" tree (List.replicate 2 "x") := by rfl
  have htokens : tree = tree ∧ ["x", "x"] = List.replicate 2 "x" :=
    render?_determines_tree_and_tokens.1 layout "gbsn" tree tree ["x", "x"] _ hlegible hlegible
      hleaf hleaf (by simp) (by simp) hrender
  exact ⟨hread, hlegible, htext, htree, hrender, htokens.2⟩

end TreeFigure
