import TreeFigure.Text.Pieces
import TreeFigure.Text.Replace

/-!
Taking apart what was joined. Lists joined by a separator come back as pieces, words joined by a
blank come back as words, and a text is cut again at the mark it was joined with. The mark must not
arise earlier, which it can also do at the seam.
-/

namespace TreeFigure.Text

section Pieces

variable {α : Type}

theorem pieces_eq_splitOnP (separates : α → Bool) (xs : List α) :
    pieces separates xs = xs.splitOnP separates := by
  induction xs with
  | nil => rfl
  | cons x xs ih =>
    have hextend : ∀ found : List (List α), found ≠ [] →
        extendFirst x found = found.modifyHead (x :: ·) := by
      intro found hne
      cases found with
      | nil => exact absurd rfl hne
      | cons piece rest => rfl
    rw [pieces_cons, List.splitOnP_cons_eq_if_modifyHead, ih]
    split
    · rfl
    · exact hextend _ (List.splitOnP_ne_nil separates xs)

theorem pieces_append_cons {separates : α → Bool} {mark : α} (hmark : separates mark = true)
    (left right : List α) :
    pieces separates (left ++ mark :: right) =
      pieces separates left ++ pieces separates right := by
  simp only [pieces_eq_splitOnP]
  exact List.splitOnP_append_cons left right hmark

theorem pieces_append_mark [BEq α] [LawfulBEq α] (mark : α) (left right : List α) :
    pieces (· == mark) (left ++ mark :: right) =
      pieces (· == mark) left ++ pieces (· == mark) right :=
  pieces_append_cons (by simp) left right

theorem pieces_of_forall_not {separates : α → Bool} {piece : List α}
    (h : ∀ x ∈ piece, separates x = false) : pieces separates piece = [piece] := by
  rw [pieces_eq_splitOnP]
  exact List.splitOnP_eq_singleton h

theorem pieces_of_notMem [BEq α] [LawfulBEq α] {mark : α} {piece : List α} (h : mark ∉ piece) :
    pieces (· == mark) piece = [piece] := by
  apply pieces_of_forall_not
  intro x hmem
  rw [beq_eq_false_iff_ne]
  rintro rfl
  exact h hmem

/-- Parts that all have the mark at their end come back, with the pieces of what follows. -/
theorem pieces_flatMap_concat [BEq α] [LawfulBEq α] {mark : α} {parts : List (List α)}
    (hparts : ∀ part ∈ parts, mark ∉ part) (rest : List α) :
    pieces (· == mark) (parts.flatMap (· ++ [mark]) ++ rest) =
      parts ++ pieces (· == mark) rest := by
  induction parts with
  | nil => rfl
  | cons part parts ih =>
    rw [List.forall_mem_cons] at hparts
    have hsplit : (part :: parts).flatMap (· ++ [mark]) ++ rest =
        part ++ mark :: (parts.flatMap (· ++ [mark]) ++ rest) := by simp
    rw [hsplit, pieces_append_mark, pieces_of_notMem hparts.1, ih hparts.2]
    rfl

/-- Any list is parts that have the mark at their end, and a tail without it. -/
theorem exists_flatMap_concat [DecidableEq α] (mark : α) (xs : List α) :
    ∃ (parts : List (List α)) (tail : List α), xs = parts.flatMap (· ++ [mark]) ++ tail ∧
      (∀ part ∈ parts, mark ∉ part) ∧ mark ∉ tail := by
  induction xs with
  | nil => exact ⟨[], [], rfl, by simp, by simp⟩
  | cons x xs ih =>
    obtain ⟨parts, tail, rfl, hparts, htail⟩ := ih
    by_cases hx : x = mark
    · subst hx
      refine ⟨[] :: parts, tail, by simp, ?_, htail⟩
      rw [List.forall_mem_cons]
      exact ⟨by simp, hparts⟩
    · cases parts with
      | nil =>
        refine ⟨[], x :: tail, rfl, by simp, ?_⟩
        rw [List.mem_cons, not_or]
        exact ⟨Ne.symm hx, htail⟩
      | cons part parts =>
        obtain ⟨hpart, hrest⟩ := List.forall_mem_cons.mp hparts
        refine ⟨(x :: part) :: parts, tail, by simp, ?_, htail⟩
        rw [List.forall_mem_cons, List.mem_cons, not_or]
        exact ⟨⟨Ne.symm hx, hpart⟩, hrest⟩

theorem count_flatMap_concat [DecidableEq α] {mark : α} {parts : List (List α)} {tail : List α}
    (hparts : ∀ part ∈ parts, mark ∉ part) (htail : mark ∉ tail) :
    (parts.flatMap (· ++ [mark]) ++ tail).count mark = parts.length := by
  induction parts with
  | nil => exact List.count_eq_zero.mpr htail
  | cons part parts ih =>
    obtain ⟨hpart, hrest⟩ := List.forall_mem_cons.mp hparts
    have hsplit : (part :: parts).flatMap (· ++ [mark]) ++ tail =
        part ++ mark :: (parts.flatMap (· ++ [mark]) ++ tail) := by simp
    rw [hsplit, List.count_append, List.count_cons_self, ih hrest, List.count_eq_zero.mpr hpart,
      List.length_cons]
    omega

theorem pieces_intercalate {separates : α → Bool} {mark : α} (hmark : separates mark = true)
    {parts : List (List α)} (hne : parts ≠ [])
    (hparts : ∀ part ∈ parts, ∀ x ∈ part, separates x = false) :
    pieces separates ([mark].intercalate parts) = parts := by
  induction parts with
  | nil => exact absurd rfl hne
  | cons part rest ih =>
    have hpart : pieces separates part = [part] := pieces_of_forall_not (hparts part (by simp))
    cases rest with
    | nil => rw [List.intercalate_singleton, hpart]
    | cons next rest =>
      have hrest := ih (by simp) fun p hp => hparts p (by simp [hp])
      rw [List.intercalate_cons_cons, List.append_assoc, List.singleton_append,
        pieces_append_cons hmark, hpart, hrest, List.singleton_append]

theorem mem_intercalate {mark x : α} {parts : List (List α)}
    (h : x ∈ [mark].intercalate parts) : x = mark ∨ ∃ part ∈ parts, x ∈ part := by
  induction parts with
  | nil => simp at h
  | cons part rest ih =>
    cases rest with
    | nil =>
      rw [List.intercalate_singleton] at h
      exact .inr ⟨part, by simp, h⟩
    | cons next rest =>
      rw [List.intercalate_cons_cons, List.append_assoc, List.mem_append, List.singleton_append,
        List.mem_cons] at h
      rcases h with hpart | hmark | hrest
      · exact .inr ⟨part, by simp, hpart⟩
      · exact .inl hmark
      · rcases ih hrest with hmark | ⟨other, hmem, hin⟩
        · exact .inl hmark
        · exact .inr ⟨other, List.mem_cons_of_mem part hmem, hin⟩

/-- A piece that stands between two separators is neither the first piece nor the last. -/
theorem mem_pieces_of_isInfix {separates : α → Bool} {mark : α} {part text : List α}
    (hmark : separates mark = true) (hpart : ∀ x ∈ part, separates x = false)
    (h : mark :: (part ++ [mark]) <:+: text) : part ∈ (pieces separates text).tail.dropLast := by
  obtain ⟨before, after, rfl⟩ := h
  have hpieces : pieces separates (before ++ mark :: (part ++ [mark]) ++ after) =
      pieces separates before ++ (part :: pieces separates after) := by
    have hsplit : before ++ mark :: (part ++ [mark]) ++ after =
        before ++ mark :: (part ++ mark :: after) := by simp
    rw [hsplit, pieces_append_cons hmark, pieces_append_cons hmark,
      pieces_of_forall_not hpart, List.singleton_append]
  have hafter : (part :: pieces separates after).dropLast =
      part :: (pieces separates after).dropLast :=
    List.dropLast_cons_of_ne_nil (pieces_ne_nil separates after)
  rw [hpieces, List.tail_append_of_ne_nil (pieces_ne_nil separates before),
    List.dropLast_append_of_ne_nil (List.cons_ne_nil part _), hafter]
  simp

end Pieces

/-- A token: not empty and without blanks. -/
def IsToken (token : List Char) : Prop :=
  token ≠ [] ∧ ∀ c ∈ token, isBlank c = false

instance (token : List Char) : Decidable (IsToken token) :=
  @instDecidableAnd _ _ inferInstance (List.decidableBAll (fun c => isBlank c = false) token)

/-- Words joined by a blank are the words of the joined text. -/
theorem words_intercalate {blank : Char} (hblank : isBlank blank = true)
    {tokens : List (List Char)} (hne : tokens ≠ [])
    (htokens : ∀ token ∈ tokens, IsToken token) :
    words ([blank].intercalate tokens) = tokens := by
  rw [words, pieces_intercalate hblank hne fun token hmem => (htokens token hmem).2,
    List.filter_eq_self]
  intro token hmem
  simpa using (htokens token hmem).1

section Cut

variable {mark : List Char}

/-- A text is cut at a mark that does not begin earlier, neither before its place nor across it. -/
theorem cut?_append {before : List Char} (hmark : mark ≠ [])
    (h : ¬ mark <:+: before ++ mark.dropLast) (after : List Char) :
    cut? mark (before ++ (mark ++ after)) = some (before, after) := by
  have hsplit : mark.dropLast ++ [mark.getLast hmark] = mark := List.dropLast_concat_getLast hmark
  induction before with
  | nil =>
    obtain ⟨c, rest, hcons⟩ := List.exists_cons_of_ne_nil hmark
    have hfirst : mark.isPrefixOf (c :: (rest ++ after)) = true :=
      List.isPrefixOf_iff_prefix.mpr ⟨after, by rw [hcons, List.cons_append]⟩
    have hdrop : (c :: (rest ++ after)).drop mark.length = after := by
      rw [← List.cons_append, ← hcons, List.drop_left]
    have hstart : mark ++ after = c :: (rest ++ after) := by rw [hcons, List.cons_append]
    rw [List.nil_append, hstart, cut?, if_pos hfirst, hdrop]
  | cons c before ih =>
    have hlater : ¬ mark <:+: before ++ mark.dropLast :=
      fun hin => h (hin.trans (List.suffix_cons c _).isInfix)
    have hfirst : ¬ mark <+: c :: (before ++ (mark ++ after)) := by
      intro hstart
      have hseam : c :: before ++ mark.dropLast <+: c :: (before ++ (mark ++ after)) := by
        refine ⟨[mark.getLast hmark] ++ after, ?_⟩
        rw [List.append_assoc, ← List.append_assoc mark.dropLast, hsplit, List.cons_append]
      have hlength : mark.length ≤ (c :: before ++ mark.dropLast).length := by
        simp
        omega
      exact h (List.prefix_of_prefix_length_le hstart hseam hlength).isInfix
    rw [List.cons_append, cut?, isPrefixOf_eq_false hfirst, ih hlater]
    rfl

theorem cut?_eq_none {text : List Char} (h : ¬ mark <:+: text) : cut? mark text = none := by
  induction text with
  | nil => rfl
  | cons c rest ih =>
    have hlater : ¬ mark <:+: rest := fun hin => h (hin.trans (List.suffix_cons c rest).isInfix)
    have hfirst : ¬ mark <+: c :: rest := fun hstart => h hstart.isInfix
    rw [cut?, isPrefixOf_eq_false hfirst, ih hlater]
    rfl

end Cut

end TreeFigure.Text
