import TreeFigure.Proofs.Literal.Reversible

/-!
Hiding and showing bracket literals in one pass. The table of literals is used entry by entry, but
no entry makes or breaks a literal of the other one, so all literals can be hidden from left to
right. Showing treats each character on its own.
-/

namespace TreeFigure.LiteralTable

open Text

/-- The placeholder of an opening bracket before an underscore. -/
def openMark : Char := '\ue000'

/-- The placeholder of a closing bracket before an underscore. -/
def closeMark : Char := '\ue001'

def IsMark (c : Char) : Prop :=
  c = openMark ∨ c = closeMark

/-- No placeholder occurs in the text. -/
def Unmarked (text : List Char) : Prop :=
  ∀ c ∈ text, ¬ IsMark c

theorem unmarked_iff {text : List Char} :
    Unmarked text ↔ openMark ∉ text ∧ closeMark ∉ text := by
  constructor
  · intro h
    exact ⟨fun hopen => h openMark hopen (.inl rfl), fun hclose => h closeMark hclose (.inr rfl)⟩
  · rintro ⟨hopen, hclose⟩ c hc (rfl | rfl)
    · exact hopen hc
    · exact hclose hc

instance : DecidablePred IsMark := fun _ => inferInstanceAs (Decidable (_ ∨ _))

instance (text : List Char) : Decidable (Unmarked text) :=
  List.decidableBAll (fun c => ¬ IsMark c) text

/-- The text with every literal hidden, from left to right. -/
def hideOnce : List Char → List Char
  | [] => []
  | '(' :: '_' :: rest => openMark :: hideOnce rest
  | ')' :: '_' :: rest => closeMark :: hideOnce rest
  | c :: rest => c :: hideOnce rest

/-- A bracket without an underscore behind it stays. -/
theorem hideOnce_cons {c : Char} {rest : List Char}
    (h : c = '(' ∨ c = ')' → rest.head? ≠ some '_') :
    hideOnce (c :: rest) = c :: hideOnce rest := by
  rw [hideOnce.eq_def]
  split
  case h_1 heq => cases heq
  case h_2 tail heq =>
    obtain ⟨rfl, rfl⟩ := List.cons.inj heq
    exact absurd rfl (h (.inl rfl))
  case h_3 tail heq =>
    obtain ⟨rfl, rfl⟩ := List.cons.inj heq
    exact absurd rfl (h (.inr rfl))
  case h_4 first tail _ _ heq =>
    obtain ⟨rfl, rfl⟩ := List.cons.inj heq
    rfl

/-- What a character of a hidden text stands for. -/
def shownChar (c : Char) : List Char :=
  if c = openMark then ['(', '_'] else if c = closeMark then [')', '_'] else [c]

theorem head_replace_open {rest : List Char}
    (h : (replace ['(', '_'] [openMark] rest).head? = some '_') : rest.head? = some '_' := by
  cases rest with
  | nil => simp at h
  | cons c rest =>
    by_cases hprefix : ['(', '_'] <+: c :: rest
    · obtain ⟨tail, htail⟩ := hprefix
      rw [← htail, replace_append (by simp)] at h
      have hmark : openMark = '_' := Option.some.inj h
      exact absurd hmark (by decide)
    · rw [replace_cons (by simp) hprefix] at h
      exact h

theorem hideChars_brackets (text : List Char) : brackets.hideChars text = hideOnce text := by
  have hfold (text : List Char) : brackets.hideChars text =
      replace [')', '_'] [closeMark] (replace ['(', '_'] [openMark] text) := by
    rfl
  fun_induction hideOnce text with
  | case1 => rfl
  | case2 rest ih =>
    have hopen : replace ['(', '_'] [openMark] ('(' :: '_' :: rest) =
        openMark :: replace ['(', '_'] [openMark] rest :=
      replace_append (by simp) rest
    rw [hfold, hopen, replace_cons_of_ne (by decide), ← hfold, ih]
  | case3 rest ih =>
    have hclose (tail : List Char) : replace [')', '_'] [closeMark] (')' :: '_' :: tail) =
        closeMark :: replace [')', '_'] [closeMark] tail :=
      replace_append (by simp) tail
    have houtside : '(' ∉ [')', '_'] := by decide
    have hkeep : replace ['(', '_'] [openMark] (')' :: '_' :: rest) =
        ')' :: '_' :: replace ['(', '_'] [openMark] rest :=
      replace_append_of_notMem houtside rest
    rw [hfold, hkeep, hclose, ← hfold, ih]
  | case4 c rest hopen hclose ih =>
    have hfirst : ¬ ['(', '_'] <+: c :: rest := by
      rintro ⟨tail, htail⟩
      simp only [List.cons_append, List.nil_append, List.cons.injEq] at htail
      exact hopen tail htail.1.symm htail.2.symm
    have hsecond : ¬ [')', '_'] <+: c :: replace ['(', '_'] [openMark] rest := by
      rintro ⟨tail, htail⟩
      simp only [List.cons_append, List.nil_append, List.cons.injEq] at htail
      have hhead : rest.head? = some '_' := head_replace_open (by rw [← htail.2]; rfl)
      obtain ⟨after, hafter⟩ := List.head?_eq_some_iff.mp hhead
      exact hclose after htail.1.symm hafter
    rw [hfold, replace_cons (by simp) hfirst, replace_cons (by simp) hsecond, ← hfold, ih]

theorem showChars_brackets (text : List Char) :
    brackets.showChars text = text.flatMap shownChar := by
  have hfold : brackets.showChars text =
      replace [openMark] ['(', '_'] (replace [closeMark] [')', '_'] text) := by
    rfl
  have hchar (c : Char) : (if c = closeMark then [')', '_'] else [c]).flatMap
      (fun d => if d = openMark then ['(', '_'] else [d]) = shownChar c := by
    unfold shownChar
    by_cases hclose : c = closeMark
    · subst hclose
      decide
    · simp [hclose]
  rw [hfold, replace_singleton, replace_singleton, List.flatMap_assoc]
  simp only [hchar]

theorem shownChar_of_not_isMark {c : Char} (h : ¬ IsMark c) : shownChar c = [c] := by
  simp only [IsMark, not_or] at h
  simp [shownChar, h.1, h.2]

theorem firstPlaceholder?_brackets (text : String) : brackets.firstPlaceholder? text =
    ([openMark, closeMark].filterMap fun c => firstOffset? [c] text.toList).min? := by
  rfl

/-- The first placeholder is found, whichever it is. -/
theorem firstPlaceholder?_brackets_eq_some {text : String} {before after : List Char}
    {mark : Char} (htext : text.toList = before ++ mark :: after) (hmark : IsMark mark)
    (hbefore : Unmarked before) :
    brackets.firstPlaceholder? text = some (byteSize before) := by
  obtain ⟨hopen, hclose⟩ := unmarked_iff.mp hbefore
  rw [firstPlaceholder?_brackets, htext]
  simp only [List.filterMap_cons, List.filterMap_nil, firstOffset?_singleton_append hopen,
    firstOffset?_singleton_append hclose]
  rcases hmark with rfl | rfl
  · rw [firstOffset?_singleton_cons]
    cases firstOffset? [closeMark] (openMark :: after) <;> simp
  · rw [firstOffset?_singleton_cons]
    cases firstOffset? [openMark] (closeMark :: after) <;> simp

theorem firstPlaceholder?_brackets_eq_none_iff {text : String} :
    brackets.firstPlaceholder? text = none ↔ Unmarked text.toList := by
  rw [firstPlaceholder?_eq_none_iff, unmarked_iff, ← firstOffset?_singleton_eq_none_iff,
    ← firstOffset?_singleton_eq_none_iff]
  exact List.forall_mem_cons.trans (and_congr_right fun _ => List.forall_mem_singleton)

theorem reversible_brackets : brackets.Reversible := by decide

/-- Showing undoes hiding where no placeholder was. -/
theorem flatMap_shownChar_hideOnce {text : List Char} (h : Unmarked text) :
    (hideOnce text).flatMap shownChar = text := by
  have hnone : brackets.firstPlaceholder? (String.ofList text) = none := by
    rwa [firstPlaceholder?_brackets_eq_none_iff, String.toList_ofList]
  have hundo := reversible_brackets.showChars_hideChars_of_eq_none hnone
  rwa [String.toList_ofList, hideChars_brackets, showChars_brackets] at hundo

theorem toList_hide_brackets (text : String) :
    (brackets.hide text).toList = hideOnce text.toList := by
  rw [hide, String.toList_ofList, hideChars_brackets]

theorem toList_reveal_brackets (text : String) :
    (brackets.reveal text).toList = text.toList.flatMap shownChar := by
  rw [reveal, String.toList_ofList, showChars_brackets]

theorem reveal_hide_brackets {text : String} (h : Unmarked text.toList) :
    brackets.reveal (brackets.hide text) = text := by
  rw [← String.toList_inj, toList_reveal_brackets, toList_hide_brackets,
    flatMap_shownChar_hideOnce h]

end TreeFigure.LiteralTable
