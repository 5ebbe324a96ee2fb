import TreeFigure.Text.Replace

/-!
Replacing and finding, one equation for each way a text can start. A pattern that stands in front
is replaced and replacing goes on behind it; otherwise the first character stays. A pattern of one
character is replaced character by character, wherever it stands.
-/

namespace TreeFigure.Text

section Replace

variable {old new : List Char}

@[simp]
theorem replace_nil (hold : old ≠ []) : replace old new [] = [] := by
  have hempty : old.isEmpty = false := by cases old <;> simp_all
  simp [replace, replaceAfter, hempty]

theorem replace_append (hold : old ≠ []) (rest : List Char) :
    replace old new (old ++ rest) = new ++ replace old new rest := by
  obtain ⟨c, tail, rfl⟩ := List.exists_cons_of_ne_nil hold
  have hfirst : (c :: tail).isPrefixOf (c :: (tail ++ rest)) = true :=
    List.isPrefixOf_iff_prefix.mpr ⟨rest, rfl⟩
  have hdrop := replaceAfter_drop (c :: tail) new tail.length (tail ++ rest) hold
  rw [List.drop_left] at hdrop
  rw [List.cons_append, replace, replaceAfter]
  simp only [List.isEmpty_cons, Bool.false_eq_true, if_false, hfirst, if_true,
    List.length_cons, Nat.add_sub_cancel]
  rw [hdrop]

theorem replace_cons (hold : old ≠ []) {c : Char} {rest : List Char}
    (h : ¬ old <+: c :: rest) : replace old new (c :: rest) = c :: replace old new rest := by
  have hempty : old.isEmpty = false := by cases old <;> simp_all
  have hfirst : old.isPrefixOf (c :: rest) = false := isPrefixOf_eq_false h
  rw [replace, replaceAfter]
  simp [hempty, hfirst, replace]

/-- A pattern that starts with another character does not start here. -/
theorem replace_cons_of_ne {first : Char} {tail : List Char} {c : Char} (h : c ≠ first)
    (rest : List Char) :
    replace (first :: tail) new (c :: rest) = c :: replace (first :: tail) new rest := by
  apply replace_cons (by simp)
  intro hprefix
  exact h (List.cons_prefix_cons.mp hprefix).1.symm

theorem replace_append_of_notMem {first : Char} {tail : List Char} {left : List Char}
    (h : first ∉ left) (rest : List Char) :
    replace (first :: tail) new (left ++ rest) = left ++ replace (first :: tail) new rest := by
  induction left with
  | nil => rfl
  | cons c left ih =>
    simp only [List.mem_cons, not_or] at h
    rw [List.cons_append, replace_cons_of_ne (Ne.symm h.1), ih h.2, List.cons_append]

theorem replace_singleton (mark : Char) (text : List Char) :
    replace [mark] new text = text.flatMap fun c => if c = mark then new else [c] := by
  induction text with
  | nil => simp
  | cons c rest ih =>
    rw [List.flatMap_cons, ← ih]
    by_cases h : c = mark
    · subst h
      rw [if_pos rfl]
      exact replace_append (by simp) rest
    · rw [if_neg h, replace_cons_of_ne h]
      rfl

/-- An empty pattern stands before every character and at the end. -/
theorem replace_empty (text : List Char) :
    replace [] new text = text.flatMap (fun c => new ++ [c]) ++ new := by
  induction text with
  | nil => rfl
  | cons c rest ih =>
    have hfirst : replace [] new (c :: rest) = new ++ c :: replace [] new rest := rfl
    rw [hfirst, ih, List.flatMap_cons, List.append_assoc, List.append_assoc,
      List.singleton_append]

/-- To show a property of all texts, follow how a pattern is replaced in them: the pattern in
front at once, and any other first character on its own. -/
@[elab_as_elim]
theorem pattern_induction (hold : old ≠ []) {motive : List Char → Prop} (nil : motive [])
    (found : ∀ rest, motive rest → motive (old ++ rest))
    (other : ∀ c rest, ¬ old <+: c :: rest → motive rest → motive (c :: rest))
    (text : List Char) : motive text := by
  by_cases h : old <+: text
  · obtain ⟨rest, hrest⟩ := h
    have hlength : rest.length < text.length := by
      have hpos := List.length_pos_iff.mpr hold
      rw [← hrest, List.length_append]
      omega
    rw [← hrest]
    exact found rest (pattern_induction hold nil found other rest)
  · cases text with
    | nil => exact nil
    | cons c rest => exact other c rest h (pattern_induction hold nil found other rest)
termination_by text.length

/-- Replacing brings in no other characters than those of the new text. -/
theorem mem_of_mem_replace {c : Char} {text : List Char} (h : c ∈ replace old new text) :
    c ∈ new ∨ c ∈ text := by
  by_cases hold : old = []
  · subst hold
    rw [replace_empty, List.mem_append, List.mem_flatMap] at h
    rcases h with ⟨d, hd, hc⟩ | hnew
    · rcases List.mem_append.mp hc with hnew | hsame
      · exact .inl hnew
      · exact .inr (List.mem_singleton.mp hsame ▸ hd)
    · exact .inl hnew
  · induction text using pattern_induction hold with
    | nil =>
      rw [replace_nil hold] at h
      cases h
    | found rest ih =>
      rw [replace_append hold, List.mem_append] at h
      rcases h with hnew | hrest
      · exact .inl hnew
      · exact (ih hrest).imp_right (List.mem_append_right old)
    | other c rest hnot ih =>
      rw [replace_cons hold hnot] at h
      rcases List.mem_cons.mp h with rfl | hrest
      · exact .inr List.mem_cons_self
      · exact (ih hrest).imp_right (List.mem_cons_of_mem c)

/-- A pattern that became a character unknown to the text comes back, also the empty pattern. -/
theorem replace_replace {mark : Char} {text : List Char} (h : mark ∉ text) :
    replace [mark] old (replace old [mark] text) = text := by
  have hmark : [mark] ≠ [] := by simp
  by_cases hold : old = []
  · subst hold
    induction text with
    | nil => exact replace_append hmark []
    | cons c rest ih =>
      rw [List.mem_cons, not_or] at h
      have hfirst : replace [] [mark] (c :: rest) = [mark] ++ c :: replace [] [mark] rest := rfl
      rw [hfirst, replace_append hmark, replace_cons_of_ne (Ne.symm h.1), ih h.2,
        List.nil_append]
  · induction text using pattern_induction hold with
    | nil => rw [replace_nil hold, replace_nil hmark]
    | found rest ih =>
      have hrest : mark ∉ rest := fun hin => h (List.mem_append_right old hin)
      rw [replace_append hold, replace_append hmark, ih hrest]
    | other c rest hnot ih =>
      rw [List.mem_cons, not_or] at h
      rw [replace_cons hold hnot, replace_cons_of_ne (Ne.symm h.1), ih h.2]

theorem eq_nil_of_replace {mark : Char} (hold : old ≠ []) {text : List Char}
    (h : replace old [mark] text = []) : text = [] := by
  cases text with
  | nil => rfl
  | cons c rest =>
    by_cases hstart : old <+: c :: rest
    · obtain ⟨tail, htail⟩ := hstart
      rw [← htail, replace_append hold] at h
      cases h
    · rw [replace_cons hold hstart] at h
      cases h

/-- The first character of a text in which a pattern became one character: it was there before, or
it stands for the pattern. -/
theorem eq_cons_or_append_of_replace {mark c : Char} (hold : old ≠ []) {text rest : List Char}
    (h : replace old [mark] text = c :: rest) :
    ∃ before, replace old [mark] before = rest ∧
      (text = c :: before ∨ c = mark ∧ text = old ++ before) := by
  cases text with
  | nil =>
    rw [replace_nil hold] at h
    cases h
  | cons d tail =>
    by_cases hstart : old <+: d :: tail
    · obtain ⟨before, hbefore⟩ := hstart
      rw [← hbefore, replace_append hold] at h
      obtain ⟨rfl, hrest⟩ := List.cons.inj h
      exact ⟨before, hrest, .inr ⟨rfl, hbefore.symm⟩⟩
    · rw [replace_cons hold hstart] at h
      obtain ⟨rfl, hrest⟩ := List.cons.inj h
      exact ⟨tail, hrest, .inl rfl⟩

/-- The texts that may become this one when a pattern in them becomes one character. -/
def origins (old : List Char) (mark : Char) : List Char → List (List Char)
  | [] => [[]]
  | c :: rest =>
    (origins old mark rest).map (c :: ·) ++
      if c = mark then (origins old mark rest).map (old ++ ·) else []

theorem mem_origins_of_replace {mark : Char} (hold : old ≠ []) {text after : List Char}
    (h : replace old [mark] text = after) : text ∈ origins old mark after := by
  induction after generalizing text with
  | nil => exact List.mem_singleton.mpr (eq_nil_of_replace hold h)
  | cons c rest ih =>
    obtain ⟨before, hbefore, rfl | ⟨rfl, rfl⟩⟩ := eq_cons_or_append_of_replace hold h
    · exact List.mem_append_left _ (List.mem_map_of_mem (ih hbefore))
    · rw [origins, if_pos rfl]
      exact List.mem_append_right _ (List.mem_map_of_mem (ih hbefore))

end Replace

section Find

theorem firstOffset?_singleton_append {mark : Char} {left : List Char} (h : mark ∉ left)
    (rest : List Char) :
    firstOffset? [mark] (left ++ rest) =
      (firstOffset? [mark] rest).map (· + byteSize left) := by
  induction left with
  | nil => simp [byteSize]
  | cons c left ih =>
    simp only [List.mem_cons, not_or] at h
    have hfirst : ¬ mark = c := h.1
    rw [List.cons_append, firstOffset?, ih h.2]
    simp [hfirst, byteSize, Function.comp_def, Nat.add_comm, Nat.add_left_comm]

theorem firstOffset?_singleton_cons (mark : Char) (rest : List Char) :
    firstOffset? [mark] (mark :: rest) = some 0 := by
  simp [firstOffset?]

theorem firstOffset?_singleton_eq_none_iff {mark : Char} {text : List Char} :
    firstOffset? [mark] text = none ↔ mark ∉ text := by
  induction text with
  | nil => simp [firstOffset?]
  | cons c rest ih =>
    by_cases h : mark = c
    · simp [firstOffset?, h]
    · simp [firstOffset?, h, ih]

end Find

end TreeFigure.Text
