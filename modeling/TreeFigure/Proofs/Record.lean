import TreeFigure.Record
import TreeFigure.Proofs.Literal.Writing
import TreeFigure.Proofs.Text.Joining
import TreeFigure.Proofs.Text.Occurrences
import TreeFigure.Proofs.Text.Runs

/-!
Reading a record that was written. The mark between the tree and the tokens is five bars between
spaces. It may neither begin in the tree text nor occur again among the tokens, so bars of their
own are allowed only where one of the two spaces is missing.
-/

namespace TreeFigure

open Text

namespace Record

/-- The line of a record: the text of the tree, the mark, and the tokens between spaces. -/
def written (treeText : String) (tokens : List String) : String :=
  treeText ++ mark ++ " ".intercalate tokens

def bars : List Char := ['|', '|', '|', '|', '|']

theorem toList_mark : mark.toList = ' ' :: (bars ++ [' ']) := by
  decide

theorem mem_mark {c : Char} (h : c ∈ mark.toList) : c = ' ' ∨ c = '|' := by
  simp only [toList_mark, bars, List.cons_append, List.nil_append, List.mem_cons,
    List.not_mem_nil, or_false] at h
  grind

theorem toList_written (treeText : String) (tokens : List String) :
    (written treeText tokens).toList =
      treeText.toList ++ (mark.toList ++ [' '].intercalate (tokens.map String.toList)) := by
  simp [written, String.toList_intercalate]

/-- The tokens are followed by no second mark. -/
theorem tokenField_intercalate {tokens : List String} (hne : tokens ≠ [])
    (hspace : ∀ token ∈ tokens, ' ' ∉ token.toList) (hbars : "|||||" ∉ tokens.tail.dropLast) :
    tokenField ([' '].intercalate (tokens.map String.toList)) =
      [' '].intercalate (tokens.map String.toList) := by
  have hnone : ¬ mark.toList <:+: [' '].intercalate (tokens.map String.toList) := by
    intro hin
    rw [toList_mark] at hin
    have hmem : bars ∈ (pieces (· == ' ') ([' '].intercalate
        (tokens.map String.toList))).tail.dropLast :=
      mem_pieces_of_isInfix (by simp) (by simp [bars]) hin
    rw [pieces_intercalate (by simp) (by simpa using hne)] at hmem
    · rw [← List.map_tail, ← List.map_dropLast] at hmem
      obtain ⟨token, htoken, hlist⟩ := List.mem_map.mp hmem
      have hsame : token = "|||||" := String.toList_inj.mp hlist
      exact hbars (hsame ▸ htoken)
    · intro part hpart c hc
      obtain ⟨token, htoken, rfl⟩ := List.mem_map.mp hpart
      rw [beq_eq_false_iff_ne]
      rintro rfl
      exact hspace token htoken hc
  rw [tokenField, cut?_eq_none hnone]

/-- A written record is read back if the mark begins nowhere in the text before it. -/
theorem parse_written {treeText : String} {tokens : List String} (hne : tokens ≠ [])
    (htokens : ∀ token ∈ tokens, IsToken token.toList)
    (hbars : "|||||" ∉ tokens.tail.dropLast)
    (htree : ¬ mark.toList <:+: treeText.toList ++ mark.toList.dropLast) :
    parse (written treeText tokens) = .ok ⟨treeText, tokens⟩ := by
  have hspace : ∀ token ∈ tokens, ' ' ∉ token.toList := by
    intro token hmem hin
    have hblank := (htokens token hmem).2 ' ' hin
    exact absurd hblank (by decide)
  have hcut : cut? mark.toList (written treeText tokens).toList =
      some (treeText.toList, [' '].intercalate (tokens.map String.toList)) := by
    rw [toList_written]
    exact cut?_append (by decide) htree _
  have hwords : words ([' '].intercalate (tokens.map String.toList)) =
      tokens.map String.toList := by
    apply words_intercalate (by decide) (by simpa using hne)
    intro part hpart
    obtain ⟨token, htoken, rfl⟩ := List.mem_map.mp hpart
    exact htokens token htoken
  rw [parse, hcut]
  simp only [tokenField_intercalate hne hspace hbars, hwords]
  cases tokens with
  | nil => exact absurd rfl hne
  | cons token rest => simp [Function.comp_def]

end Record

namespace Tree

open Record

/-- A word that is read as the bars of a mark is bars up to the next space. -/
theorem takeWhile_eq_bars {text after : List Char} (h : bars ++ [' '] ++ after = text) :
    text.takeWhile (· != ' ') = bars := by
  rw [← h, List.append_assoc, List.singleton_append]
  exact takeWhile_run (by simp [bars]) (by simp)

theorem eq_bars_of_leafText {text : String} {rest : Forest} {tail : List Char}
    (hspace : ' ' ∉ text.toList)
    (h : bars ++ [' '] <+: text.toList ++ (Forest.bracketedChars rest ++ ')' :: tail)) :
    text = "|||||" ∧ rest ≠ [] := by
  obtain ⟨after, hafter⟩ := h
  have htake := takeWhile_eq_bars hafter
  have htext : ∀ c ∈ text.toList, (c != ' ') = true := by
    intro c hc
    rw [bne_iff_ne]
    rintro rfl
    exact hspace hc
  cases rest with
  | nil =>
    exfalso
    rw [List.takeWhile_append_of_pos htext, Forest.bracketedChars, List.nil_append,
      List.takeWhile_cons_of_pos (by decide)] at htake
    have hmem : ')' ∈ bars := by
      rw [← htake]
      simp
    exact absurd hmem (by decide)
  | cons tree rest =>
    rw [takeWhile_run htext (by simp [Forest.bracketedChars])] at htake
    exact ⟨String.toList_inj.mp htake, by simp⟩

/-- No mark begins among written children: bars that are a leaf have no space behind them. -/
theorem mark_isInfix_of_forest {children : Forest} {tail : List Char}
    (hchildren : ∀ child ∈ children, ∀ tail : List Char,
      mark.toList <:+: child.bracketedChars ++ tail → mark.toList <:+: tail)
    (hspace : ∀ text, .leaf text ∈ children → ' ' ∉ text.toList)
    (hbars : .leaf "|||||" ∉ children.dropLast)
    (h : mark.toList <:+: Forest.bracketedChars children ++ ')' :: tail) :
    mark.toList <:+: tail := by
  induction children with
  | nil =>
    rw [toList_mark] at h ⊢
    have hother : ' ' ∉ [')'] := by decide
    exact isInfix_of_notMem hother h
  | cons child rest ih =>
    rw [Forest.bracketedChars, List.cons_append, List.cons_append, List.append_assoc,
      List.infix_cons_iff] at h
    rcases h with hstart | hlater
    · exfalso
      rw [toList_mark, List.cons_prefix_cons] at hstart
      cases child with
      | leaf text =>
        obtain ⟨htext, hne⟩ := eq_bars_of_leafText (hspace text (by simp)) hstart.2
        apply hbars
        rw [List.dropLast_cons_of_ne_nil hne, htext]
        simp
      | node label inner =>
        obtain ⟨after, hafter⟩ := hstart.2
        have hfirst : '|' = '(' := (List.cons.inj hafter).1
        exact absurd hfirst (by decide)
    · have hrest := hchildren child (by simp) _ hlater
      refine ih (fun other hmem => hchildren other (by simp [hmem]))
        (fun text hmem => hspace text (by simp [hmem])) ?_ hrest
      intro hmem
      apply hbars
      have hne : rest ≠ [] := by
        rintro rfl
        simp at hmem
      rw [List.dropLast_cons_of_ne_nil hne]
      exact List.mem_cons_of_mem child hmem

theorem Writable.notMem_space {tree : Tree} (h : tree.Writable) :
    ∀ text ∈ tree.texts, ' ' ∉ text.toList := by
  intro text hmem hspace
  have hblank := (h.writable_of_mem_texts text hmem).noBlank ' ' hspace
  exact absurd hblank (by decide)

/-- A mark that begins in a written tree would begin behind it. -/
theorem Writable.mark_isInfix {tree : Tree} (h : tree.Writable) (tail : List Char)
    (hmark : mark.toList <:+: tree.bracketedChars ++ tail) : mark.toList <:+: tail := by
  induction tree generalizing tail with
  | leaf text =>
    have hspace := h.notMem_space text (by simp [texts])
    rw [toList_mark] at hmark ⊢
    exact isInfix_of_notMem hspace hmark
  | node label children ih =>
    have hlabel : ' ' ∉ '(' :: label.toList := by
      rw [List.mem_cons, not_or]
      exact ⟨by decide, h.notMem_space label (by simp [texts])⟩
    have hleaf : ∀ text, .leaf text ∈ children → ' ' ∉ text.toList := by
      intro text hmem
      have htext : text ∈ (Tree.leaf text).texts := by simp [texts]
      exact h.notMem_space text (mem_texts_of_mem_children hmem htext)
    rw [bracketedChars, List.append_assoc, List.append_assoc, toList_mark] at hmark
    have hforest := isInfix_of_notMem hlabel hmark
    rw [← toList_mark] at hforest
    cases h with
    | node _ hplain hfirst hbars hchildren =>
      exact mark_isInfix_of_forest (fun child hmem => ih child hmem (hchildren child hmem))
        hleaf hbars hforest

theorem Writable.not_mark_isInfix {tree : Tree} (h : tree.Writable) :
    ¬ mark.toList <:+: tree.bracketed.toList ++ mark.toList.dropLast := by
  intro hmark
  rw [bracketed, String.toList_ofList] at hmark
  have hlength := (h.mark_isInfix _ hmark).length_le
  exact absurd hlength (by decide)

end Tree

end TreeFigure
