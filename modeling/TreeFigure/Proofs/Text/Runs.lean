import TreeFigure.Text.Blank

/-!
Runs of characters of one class. A run that stops where the class stops is what `takeWhile` takes
and `dropWhile` drops. The two classes of bracketed notation are blanks, which make gaps, and the
inner characters of words.
-/

namespace TreeFigure.Text

/-- The text has a first character and it is of this class. -/
def Begins (inClass : Char → Bool) (text : List Char) : Prop :=
  text.head?.any inClass = true

theorem forall_mem_takeWhile {α : Type} {inClass : α → Bool} (xs : List α) :
    ∀ x ∈ xs.takeWhile inClass, inClass x = true :=
  List.all_eq_true.mp List.all_takeWhile

/-- A character outside the class of a run does not occur in it. -/
theorem count_run {inClass : Char → Bool} {c : Char} {run : List Char}
    (hrun : ∀ d ∈ run, inClass d = true) (hc : inClass c = false) : run.count c = 0 := by
  rw [List.count_eq_zero]
  intro hmem
  rw [hrun c hmem] at hc
  cases hc

section Begins

variable {inClass : Char → Bool}

@[simp]
theorem not_begins_nil : ¬ Begins inClass [] := by
  simp [Begins]

@[simp]
theorem begins_cons {c : Char} {rest : List Char} :
    Begins inClass (c :: rest) ↔ inClass c = true := by
  simp [Begins]

theorem Begins.exists_cons {text : List Char} (h : Begins inClass text) :
    ∃ c rest, text = c :: rest ∧ inClass c = true := by
  cases text with
  | nil => exact absurd h not_begins_nil
  | cons c rest => exact ⟨c, rest, rfl, begins_cons.mp h⟩

theorem not_begins_dropWhile (text : List Char) :
    ¬ Begins inClass (text.dropWhile inClass) := by
  induction text with
  | nil => simp
  | cons c rest ih =>
    rw [List.dropWhile_cons]
    split
    case isTrue => exact ih
    case isFalse h => simpa using h

theorem takeWhile_of_not_begins {text : List Char} (h : ¬ Begins inClass text) :
    text.takeWhile inClass = [] := by
  cases text with
  | nil => rfl
  | cons c rest => rw [List.takeWhile_cons_of_neg (by simpa using h)]

theorem dropWhile_of_not_begins {text : List Char} (h : ¬ Begins inClass text) :
    text.dropWhile inClass = text := by
  cases text with
  | nil => rfl
  | cons c rest => rw [List.dropWhile_cons_of_neg (by simpa using h)]

theorem takeWhile_run {run rest : List Char} (hrun : ∀ c ∈ run, inClass c = true)
    (hrest : ¬ Begins inClass rest) : (run ++ rest).takeWhile inClass = run := by
  rw [List.takeWhile_append_of_pos hrun, takeWhile_of_not_begins hrest, List.append_nil]

theorem dropWhile_run {run rest : List Char} (hrun : ∀ c ∈ run, inClass c = true)
    (hrest : ¬ Begins inClass rest) : (run ++ rest).dropWhile inClass = rest := by
  rw [List.dropWhile_append_of_pos hrun, dropWhile_of_not_begins hrest]

/-- A text without a character is a run of the others. -/
theorem run_of_notMem {c : Char} {run : List Char} (h : c ∉ run) : ∀ d ∈ run, (d != c) = true := by
  intro d hd
  rw [bne_iff_ne]
  rintro rfl
  exact h hd

theorem not_begins_ne (c : Char) (rest : List Char) : ¬ Begins (· != c) (c :: rest) := by
  simp

/-- Two runs that stop where their class stops are equal if they begin one text. -/
theorem append_inj_of_run {run other rest more : List Char} (hrun : ∀ c ∈ run, inClass c = true)
    (hother : ∀ c ∈ other, inClass c = true) (hrest : ¬ Begins inClass rest)
    (hmore : ¬ Begins inClass more) (h : run ++ rest = other ++ more) :
    run = other ∧ rest = more := by
  have htake := takeWhile_run hrun hrest
  have hdrop := dropWhile_run hrun hrest
  rw [h, takeWhile_run hother hmore] at htake
  rw [h, dropWhile_run hother hmore] at hdrop
  exact ⟨htake.symm, hdrop.symm⟩

end Begins

/-- A character of a word: neither a blank nor a bracket. -/
def isInner (c : Char) : Bool :=
  !isBlank c && c != '(' && c != ')'

/-- A run of blanks, which may be empty. -/
def IsGap (text : List Char) : Prop :=
  ∀ c ∈ text, isBlank c = true

instance (text : List Char) : Decidable (IsGap text) :=
  List.decidableBAll (fun c => isBlank c = true) text

/-- A word: not empty, without blanks and brackets. -/
def IsWord (text : List Char) : Prop :=
  text ≠ [] ∧ ∀ c ∈ text, isInner c = true

theorem isGap_nil : IsGap [] := by
  intro c hc
  simp at hc

theorem IsGap.append {left right : List Char} (hleft : IsGap left) (hright : IsGap right) :
    IsGap (left ++ right) := by
  intro c hc
  rcases List.mem_append.mp hc with h | h
  · exact hleft c h
  · exact hright c h

theorem isInner_eq_false_of_isBlank {c : Char} (h : isBlank c = true) : isInner c = false := by
  simp [isInner, h]

theorem isBlank_eq_false_of_isInner {c : Char} (h : isInner c = true) : isBlank c = false := by
  simp only [isInner, Bool.and_eq_true, Bool.not_eq_true'] at h
  exact h.1.1

theorem IsWord.begins {word : List Char} (h : IsWord word) (rest : List Char) :
    Begins isInner (word ++ rest) := by
  obtain ⟨hne, hinner⟩ := h
  cases word with
  | nil => exact absurd rfl hne
  | cons c tail => simpa using hinner c (by simp)

/-- Blanks end a word, so a word goes on after a gap only if the gap is empty. -/
theorem IsGap.not_begins_isInner {gap rest : List Char} (hgap : IsGap gap)
    (h : gap = [] → ¬ Begins isInner rest) : ¬ Begins isInner (gap ++ rest) := by
  cases gap with
  | nil => exact h rfl
  | cons c tail =>
    have hc : isBlank c = true := hgap c (by simp)
    simp [isInner_eq_false_of_isBlank hc]

end TreeFigure.Text
