import TreeFigure.Proofs.Text.Joining
import TreeFigure.Proofs.Text.Runs

/-!
What cutting and splitting give, by rule. A text is cut where a mark stands first, which is said
without searching for it. The words of a text are its longest stretches without blanks, with gaps
around them; all its other characters are blanks, so no character of a word is lost.
-/

namespace TreeFigure.Text

section Cut

variable {mark text before after : List Char}

/-- The mark stands between these parts of the text and at no earlier place. -/
structure StandsFirst (mark text before after : List Char) : Prop where
  eq_append : text = before ++ (mark ++ after)
  length_le : ∀ left right, text = left ++ (mark ++ right) → before.length ≤ left.length

theorem StandsFirst.unique {other rest : List Char} (h : StandsFirst mark text before after)
    (hother : StandsFirst mark text other rest) : before = other ∧ after = rest := by
  have hle := h.length_le other rest hother.eq_append
  have hge := hother.length_le before after h.eq_append
  have hlength : before.length = other.length := by omega
  obtain ⟨hbefore, hrest⟩ :=
    List.append_inj (h.eq_append.symm.trans hother.eq_append) hlength
  exact ⟨hbefore, List.append_cancel_left hrest⟩

theorem standsFirst_of_cut? (h : cut? mark text = some (before, after)) :
    StandsFirst mark text before after := by
  induction text generalizing before with
  | nil => simp [cut?] at h
  | cons c rest ih =>
    have hsplit := eq_append_of_cut? h
    rw [List.append_assoc] at hsplit
    refine ⟨hsplit, ?_⟩
    intro left right hleft
    rw [cut?] at h
    split at h
    case isTrue =>
      obtain ⟨rfl, -⟩ := Prod.mk.inj (Option.some.inj h)
      exact Nat.zero_le _
    case isFalse hfirst =>
      obtain ⟨⟨found, final⟩, hcut, heq⟩ := Option.map_eq_some_iff.mp h
      obtain ⟨rfl, rfl⟩ := Prod.mk.inj heq
      cases left with
      | nil =>
        have hprefix : mark <+: c :: rest := ⟨right, hleft.symm⟩
        exact absurd (List.isPrefixOf_iff_prefix.mpr hprefix) hfirst
      | cons d left =>
        have hrest := (List.cons_eq_cons.mp hleft).2
        exact Nat.succ_le_succ ((ih hcut).length_le left right hrest)

theorem cut?_eq_none_iff (hmark : mark ≠ []) : cut? mark text = none ↔ ¬ mark <:+: text := by
  refine ⟨?_, cut?_eq_none⟩
  rintro hnone ⟨left, right, rfl⟩
  induction left with
  | nil =>
    obtain ⟨c, rest, rfl⟩ := List.exists_cons_of_ne_nil hmark
    have hfirst : (c :: rest).isPrefixOf (c :: (rest ++ right)) = true :=
      List.isPrefixOf_iff_prefix.mpr ⟨right, rfl⟩
    simp only [List.nil_append, List.cons_append, cut?, hfirst, if_true] at hnone
    cases hnone
  | cons c left ih =>
    rw [List.cons_append, List.cons_append, cut?] at hnone
    split at hnone
    case isTrue => cases hnone
    case isFalse => exact ih (Option.map_eq_none_iff.mp hnone)

/-- Cutting finds the first place of the mark. -/
theorem cut?_eq_some_iff (hmark : mark ≠ []) :
    cut? mark text = some (before, after) ↔ StandsFirst mark text before after := by
  refine ⟨standsFirst_of_cut?, ?_⟩
  intro h
  cases hcut : cut? mark text with
  | none =>
    have hin : mark <:+: text := ⟨before, after, by rw [h.eq_append, List.append_assoc]⟩
    exact absurd hin ((cut?_eq_none_iff hmark).mp hcut)
  | some found =>
    obtain ⟨hbefore, hafter⟩ := (standsFirst_of_cut? hcut).unique h
    rw [← hbefore, ← hafter]

/-- A mark that stands first begins neither before its place nor across it. -/
theorem StandsFirst.not_isInfix (hmark : mark ≠ []) (h : StandsFirst mark text before after) :
    ¬ mark <:+: before ++ mark.dropLast := by
  rintro ⟨left, right, hsplit⟩
  -- With the last character of the mark it is a place in the text, and too early for the first.
  have htext : text = left ++ (mark ++ (right ++ ([mark.getLast hmark] ++ after))) := by
    have hmore := congrArg (· ++ ([mark.getLast hmark] ++ after)) hsplit
    simp only [List.append_assoc] at hmore
    rw [hmore, ← List.append_assoc mark.dropLast, List.dropLast_concat_getLast hmark]
    exact h.eq_append
  have hle := h.length_le _ _ htext
  have hlength := congrArg List.length hsplit
  have hpos := List.length_pos_iff.mpr hmark
  simp only [List.length_append, List.length_dropLast] at hlength
  omega

end Cut

section LongestRuns

variable {inClass : Char → Bool} {outside run rest : List Char}

/-- The longest runs of characters of a class, in order: what stands between the other
characters. -/
def longestRuns (inClass : Char → Bool) (text : List Char) : List (List Char) :=
  (pieces (!inClass ·) text).filter (!·.isEmpty)

theorem words_eq_longestRuns (text : List Char) : words text = longestRuns (!isBlank ·) text := by
  rw [words, longestRuns]
  simp only [Bool.not_not]

theorem longestRuns_cons_outside {c : Char} (hc : inClass c = false) (rest : List Char) :
    longestRuns inClass (c :: rest) = longestRuns inClass rest := by
  rw [longestRuns, pieces_cons, if_pos (by simp [hc])]
  rfl

theorem longestRuns_outside_append (houtside : ∀ c ∈ outside, inClass c = false)
    (rest : List Char) : longestRuns inClass (outside ++ rest) = longestRuns inClass rest := by
  induction outside with
  | nil => rfl
  | cons c outside ih =>
    rw [List.cons_append, longestRuns_cons_outside (houtside c (by simp)),
      ih fun d hd => houtside d (by simp [hd])]

theorem longestRuns_run (hne : run ≠ []) (hrun : ∀ c ∈ run, inClass c = true) :
    longestRuns inClass run = [run] := by
  rw [longestRuns, pieces_of_forall_not fun c hc => by simp [hrun c hc]]
  simp [hne]

theorem longestRuns_run_append (hne : run ≠ []) (hrun : ∀ c ∈ run, inClass c = true)
    (hend : ¬ Begins inClass rest) :
    longestRuns inClass (run ++ rest) = run :: longestRuns inClass rest := by
  cases rest with
  | nil =>
    rw [List.append_nil, longestRuns_run hne hrun]
    rfl
  | cons c rest =>
    have hc : inClass c = false := by simpa using hend
    have hsplit : longestRuns inClass (run ++ c :: rest) =
        longestRuns inClass run ++ longestRuns inClass rest := by
      rw [longestRuns, pieces_append_cons (by simp [hc]), List.filter_append]
      rfl
    rw [hsplit, longestRuns_run hne hrun, longestRuns_cons_outside hc, List.singleton_append]

end LongestRuns

section Words

variable {gap word rest text : List Char} {found : List (List Char)}

/-- These are the words of the text in order: the longest stretches without blanks. -/
inductive Worded : List Char → List (List Char) → Prop
  | blank {gap : List Char} (hgap : IsGap gap) : Worded gap []
  | word {gap word rest : List Char} {found : List (List Char)} (hgap : IsGap gap)
      (hword : IsToken word) (hend : ¬ Begins (!isBlank ·) rest) (tail : Worded rest found) :
      Worded (gap ++ (word ++ rest)) (word :: found)

theorem words_gap_append (hgap : IsGap gap) (rest : List Char) :
    words (gap ++ rest) = words rest := by
  rw [words_eq_longestRuns, words_eq_longestRuns,
    longestRuns_outside_append fun c hc => by simp [hgap c hc]]

theorem words_token_append (hword : IsToken word) (hend : ¬ Begins (!isBlank ·) rest) :
    words (word ++ rest) = word :: words rest := by
  rw [words_eq_longestRuns, words_eq_longestRuns,
    longestRuns_run_append hword.1 (fun c hc => by simp [hword.2 c hc]) hend]

theorem Worded.words_eq (h : Worded text found) : words text = found := by
  induction h with
  | @blank gap hgap =>
    have hall := words_gap_append hgap []
    rw [List.append_nil] at hall
    rw [hall]
    rfl
  | word hgap hword hend _ ih => rw [words_gap_append hgap, words_token_append hword hend, ih]

theorem exists_worded (text : List Char) : ∃ found, Worded text found := by
  induction hlength : text.length using Nat.strongRecOn generalizing text with
  | ind length ih =>
    let tail := text.dropWhile isBlank
    have hsplit : text.takeWhile isBlank ++ tail = text := List.takeWhile_append_dropWhile
    have hgap : IsGap (text.takeWhile isBlank) := forall_mem_takeWhile text
    have hskip : tail.length ≤ text.length := (List.dropWhile_suffix isBlank).length_le
    by_cases hend : tail = []
    · rw [hend, List.append_nil] at hsplit
      exact ⟨[], hsplit ▸ .blank hgap⟩
    · obtain ⟨c, chars, hcons⟩ := List.exists_cons_of_ne_nil hend
      have hc : isBlank c = false := by
        have hstart : ¬ Begins isBlank tail := not_begins_dropWhile text
        rw [hcons] at hstart
        simpa using hstart
      let rest := tail.dropWhile (!isBlank ·)
      have hword : IsToken (tail.takeWhile (!isBlank ·)) := by
        refine ⟨?_, fun d hd => ?_⟩
        · rw [hcons, List.takeWhile_cons_of_pos (by simp [hc])]
          exact List.cons_ne_nil _ _
        · simpa using forall_mem_takeWhile tail d hd
      have hparts : tail.takeWhile (!isBlank ·) ++ rest = tail := List.takeWhile_append_dropWhile
      have hshort : rest.length < text.length := by
        have hpos := List.length_pos_iff.mpr hword.1
        have htotal := congrArg List.length hparts
        rw [List.length_append] at htotal
        omega
      obtain ⟨found, hfound⟩ := ih rest.length (by omega) rest rfl
      have hall := Worded.word hgap hword (not_begins_dropWhile tail) hfound
      rw [hparts, hsplit] at hall
      exact ⟨_, hall⟩

/-- The words by rule are the words that are found. -/
theorem worded_iff : Worded text found ↔ words text = found := by
  refine ⟨Worded.words_eq, ?_⟩
  intro h
  obtain ⟨other, hother⟩ := exists_worded text
  rwa [← h, hother.words_eq]

theorem words_eq_nil_iff : words text = [] ↔ IsGap text := by
  rw [← worded_iff]
  constructor
  · rintro ⟨hgap⟩
    exact hgap
  · exact .blank

/-- The words hold every character that is no blank. -/
theorem flatten_words (text : List Char) :
    (words text).flatten = text.filter (!isBlank ·) := by
  obtain ⟨found, hfound⟩ := exists_worded text
  rw [hfound.words_eq]
  induction hfound with
  | @blank gap hgap =>
    have hnone : gap.filter (!isBlank ·) = [] :=
      List.filter_eq_nil_iff.mpr fun c hc => by simp [hgap c hc]
    rw [hnone]
    rfl
  | @word gap word rest found hgap hword _ _ ih =>
    have hnone : gap.filter (!isBlank ·) = [] :=
      List.filter_eq_nil_iff.mpr fun c hc => by simp [hgap c hc]
    have hall : word.filter (!isBlank ·) = word :=
      List.filter_eq_self.mpr fun c hc => by simp [hword.2 c hc]
    rw [List.flatten_cons, ih, List.filter_append, List.filter_append, hnone, hall,
      List.nil_append]

end Words

section Intercalate

variable {α : Type} {mark : α} {parts : List (List α)} {part : List α}

theorem intercalate_append_cons {left right : List (List α)} (hleft : left ≠ []) :
    [mark].intercalate (left ++ part :: right) =
      [mark].intercalate left ++ mark :: [mark].intercalate (part :: right) := by
  induction left with
  | nil => exact absurd rfl hleft
  | cons first left ih =>
    cases left with
    | nil => simp [List.intercalate_cons_cons]
    | cons next left =>
      rw [List.cons_append, List.cons_append, List.intercalate_cons_cons, ← List.cons_append,
        ih (by simp), List.intercalate_cons_cons]
      simp

/-- An inner part has a separator on both sides. -/
theorem isInfix_intercalate (h : part ∈ parts.tail.dropLast) :
    mark :: (part ++ [mark]) <:+: [mark].intercalate parts := by
  cases parts with
  | nil => cases h
  | cons first rest =>
    rw [List.tail_cons] at h
    rcases List.eq_nil_or_concat rest with rfl | ⟨inner, last, rfl⟩
    · cases h
    · rw [List.concat_eq_append] at h ⊢
      rw [List.dropLast_concat] at h
      obtain ⟨left, right, rfl⟩ := List.mem_iff_append.mp h
      have hlast : right ++ [last] ≠ [] := by simp
      obtain ⟨next, more, hmore⟩ := List.exists_cons_of_ne_nil hlast
      have hparts : first :: ((left ++ part :: right) ++ [last]) =
          (first :: left) ++ part :: next :: more := by simp [← hmore]
      rw [hparts, intercalate_append_cons (List.cons_ne_nil first left),
        List.intercalate_cons_cons]
      exact ⟨[mark].intercalate (first :: left), [mark].intercalate (next :: more), by simp⟩

end Intercalate

end TreeFigure.Text
