import Mathlib.Data.Set.Function
import TreeFigure.Proofs.Literal.Hiding

/-!
Hiding bracket literals is a bijection. It takes the texts without placeholders one-to-one onto the
texts without literals, and showing is its inverse in both directions. Each round trip fails as
soon as its condition fails, because a hidden text holds no literal and a shown one no placeholder.
-/

namespace TreeFigure.LiteralTable

open Text

/-- No bracket stands before an underscore. -/
def LiteralFree (text : List Char) : Prop :=
  ¬ "(_".toList <:+: text ∧ ¬ ")_".toList <:+: text

theorem literalFree_nil : LiteralFree [] := by
  simp [LiteralFree]

theorem literalFree_cons_iff {c : Char} {rest : List Char} :
    LiteralFree (c :: rest) ↔
      (c = '(' ∨ c = ')' → rest.head? ≠ some '_') ∧ LiteralFree rest := by
  have hstart (bracket : Char) :
      [bracket, '_'] <+: c :: rest ↔ c = bracket ∧ rest.head? = some '_' := by
    rw [List.cons_prefix_cons, List.singleton_prefix_iff_head?_eq_some, eq_comm]
  have hopen : "(_".toList = ['(', '_'] := rfl
  have hclose : ")_".toList = [')', '_'] := rfl
  simp only [LiteralFree, hopen, hclose, List.infix_cons_iff, hstart]
  tauto

/-- An underscore in front of a hidden text was there before. -/
theorem head?_eq_of_hideOnce {text : List Char} (h : (hideOnce text).head? = some '_') :
    text.head? = some '_' := by
  fun_cases hideOnce text with
  | case1 => exact h
  | case2 rest => exact absurd h (by simp [hideOnce, openMark])
  | case3 rest => exact absurd h (by simp [hideOnce, closeMark])
  | case4 c rest hopen hclose =>
    rw [hideOnce.eq_4 c rest hopen hclose] at h
    exact h

theorem literalFree_hideOnce (text : List Char) : LiteralFree (hideOnce text) := by
  fun_induction hideOnce text with
  | case1 => exact literalFree_nil
  | case2 rest ih =>
    have hmark : ¬ (openMark = '(' ∨ openMark = ')') := by decide
    exact literalFree_cons_iff.mpr ⟨fun hbracket => absurd hbracket hmark, ih⟩
  | case3 rest ih =>
    have hmark : ¬ (closeMark = '(' ∨ closeMark = ')') := by decide
    exact literalFree_cons_iff.mpr ⟨fun hbracket => absurd hbracket hmark, ih⟩
  | case4 c rest hopen hclose ih =>
    refine literalFree_cons_iff.mpr ⟨?_, ih⟩
    intro hbracket hhead
    obtain ⟨tail, htail⟩ := List.head?_eq_some_iff.mp (head?_eq_of_hideOnce hhead)
    rcases hbracket with hc | hc
    · exact hopen tail hc htail
    · exact hclose tail hc htail

theorem unmarked_shownChar (c : Char) : Unmarked (shownChar c) := by
  unfold shownChar
  split
  case isTrue => decide
  case isFalse hopen =>
    split
    case isTrue => decide
    case isFalse hclose =>
      intro d hd
      rw [List.mem_singleton.mp hd]
      exact not_or.mpr ⟨hopen, hclose⟩

theorem unmarked_flatMap_shownChar (text : List Char) : Unmarked (text.flatMap shownChar) := by
  intro c hc
  obtain ⟨d, -, hin⟩ := List.mem_flatMap.mp hc
  exact unmarked_shownChar d c hin

/-- A shown text begins with an underscore only if the text does: a literal begins with a
bracket. -/
theorem head?_eq_of_flatMap_shownChar {text : List Char}
    (h : (text.flatMap shownChar).head? = some '_') : text.head? = some '_' := by
  cases text with
  | nil => exact h
  | cons c rest =>
    rw [List.flatMap_cons, shownChar] at h
    split at h
    case isTrue => exact absurd h (by simp)
    case isFalse =>
      split at h
      case isTrue => exact absurd h (by simp)
      case isFalse => exact h

/-- Hiding undoes showing where no literal was. -/
theorem hideOnce_flatMap_shownChar {text : List Char} (h : LiteralFree text) :
    hideOnce (text.flatMap shownChar) = text := by
  induction text with
  | nil => rfl
  | cons c rest ih =>
    obtain ⟨hfirst, hrest⟩ := literalFree_cons_iff.mp h
    rw [List.flatMap_cons]
    by_cases hmark : IsMark c
    · rcases hmark with rfl | rfl
      · have hshown : shownChar openMark = ['(', '_'] := by decide
        rw [hshown, List.cons_append, List.cons_append, List.nil_append, hideOnce, ih hrest]
      · have hshown : shownChar closeMark = [')', '_'] := by decide
        rw [hshown, List.cons_append, List.cons_append, List.nil_append, hideOnce, ih hrest]
    · rw [shownChar_of_not_isMark hmark, List.singleton_append, hideOnce_cons, ih hrest]
      intro hbracket hhead
      exact hfirst hbracket (head?_eq_of_flatMap_shownChar hhead)

theorem hide_reveal_brackets {text : String} (h : LiteralFree text.toList) :
    brackets.hide (brackets.reveal text) = text := by
  rw [← String.toList_inj, toList_hide_brackets, toList_reveal_brackets,
    hideOnce_flatMap_shownChar h]

theorem literalFree_hide (text : String) : LiteralFree (brackets.hide text).toList := by
  rw [toList_hide_brackets]
  exact literalFree_hideOnce text.toList

theorem unmarked_reveal (text : String) : Unmarked (brackets.reveal text).toList := by
  rw [toList_reveal_brackets]
  exact unmarked_flatMap_shownChar text.toList

/-- Hidden texts hold no literal, and each round trip gives a text back exactly if the text holds
none of what the trip replaces. So hiding is a bijection from the texts without placeholders to the
texts without literals, and showing is its inverse. -/
theorem hide_brackets_bijOn :
    (∀ text, LiteralFree (brackets.hide text).toList) ∧
    (∀ text, brackets.reveal (brackets.hide text) = text ↔
      brackets.firstPlaceholder? text = none) ∧
    (∀ text, brackets.hide (brackets.reveal text) = text ↔ LiteralFree text.toList) ∧
    (∀ text, brackets.firstPlaceholder? text = none ↔ Unmarked text.toList) ∧
    Set.BijOn brackets.hide {text | Unmarked text.toList} {text | LiteralFree text.toList} ∧
    Set.MapsTo brackets.reveal {text | LiteralFree text.toList} {text | Unmarked text.toList} ∧
    Set.InvOn brackets.reveal brackets.hide {text | Unmarked text.toList}
      {text | LiteralFree text.toList} := by
  have hinv : Set.InvOn brackets.reveal brackets.hide {text | Unmarked text.toList}
      {text | LiteralFree text.toList} :=
    ⟨fun _ hplain => reveal_hide_brackets hplain, fun _ hfree => hide_reveal_brackets hfree⟩
  have hhide : Set.MapsTo brackets.hide {text | Unmarked text.toList}
      {text | LiteralFree text.toList} := fun text _ => literalFree_hide text
  have hshow : Set.MapsTo brackets.reveal {text | LiteralFree text.toList}
      {text | Unmarked text.toList} := fun text _ => unmarked_reveal text
  refine ⟨literalFree_hide, ?_, ?_, ?_, hinv.bijOn hhide hshow, hshow, hinv⟩
  · intro text
    rw [firstPlaceholder?_brackets_eq_none_iff]
    constructor
    · intro hsame
      exact hsame ▸ unmarked_reveal (brackets.hide text)
    · exact reveal_hide_brackets
  · intro text
    constructor
    · intro hsame
      exact hsame ▸ literalFree_hide (brackets.reveal text)
    · exact hide_reveal_brackets
  · intro text
    exact firstPlaceholder?_brackets_eq_none_iff

end TreeFigure.LiteralTable
