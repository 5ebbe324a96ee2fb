import TreeFigure.Proofs.Tex.Fragment
import TreeFigure.Proofs.Text.Substitution

/-!
Escaped text. The first pass writes no bar of its own, so the second finds the bars of the text:
three of them in front go into math mode, and otherwise the first character is escaped on its own.
What comes out is a fragment without events, whatever the text holds.
-/

namespace TreeFigure.Tex

open Text

theorem bar_mem_escapeChar_iff {c : Char} : '|' ∈ escapeChar c ↔ c = '|' := by
  unfold escapeChar
  split <;> simp [eq_comm]

theorem escapeChar_ne_nil (c : Char) : escapeChar c ≠ [] := by
  unfold escapeChar
  split <;> simp

/-- Escaping makes no run of bars longer. -/
theorem replicate_prefix_of_flatMap {count : Nat} {text : List Char}
    (h : List.replicate count '|' <+: text.flatMap escapeChar) :
    List.replicate count '|' <+: text := by
  induction count generalizing text with
  | zero => simp
  | succ count ih =>
    cases text with
    | nil => simp [List.replicate_succ] at h
    | cons c rest =>
      rw [List.replicate_succ, List.flatMap_cons] at h
      have hc : c = '|' := by
        obtain ⟨d, more, hescape⟩ := List.exists_cons_of_ne_nil (escapeChar_ne_nil c)
        rw [hescape, List.cons_append, List.cons_prefix_cons] at h
        have hmem : '|' ∈ escapeChar c := by
          rw [hescape, h.1]
          exact List.mem_cons_self
        exact bar_mem_escapeChar_iff.mp hmem
      subst hc
      have hbar : escapeChar '|' = ['|'] := by decide
      rw [hbar, List.singleton_append, List.cons_prefix_cons] at h
      rw [List.replicate_succ, List.cons_prefix_cons]
      exact ⟨rfl, ih h.2⟩

theorem toList_escape (text : String) : (escape text).toList = escapeChars text.toList :=
  String.toList_ofList

theorem escapeChars_nil : escapeChars [] = [] := by
  decide

/-- Three bars in front are set in math mode. -/
theorem escapeChars_bars (rest : List Char) :
    escapeChars (bars ++ rest) = mathBars ++ escapeChars rest := by
  have hbars : bars.flatMap escapeChar = bars := by decide
  rw [escapeChars, List.flatMap_append, hbars]
  exact replace_append (by decide) _

/-- Otherwise the first character is escaped on its own. -/
theorem escapeChars_cons {c : Char} {rest : List Char} (h : ¬ bars <+: c :: rest) :
    escapeChars (c :: rest) = escapeChar c ++ escapeChars rest := by
  rw [escapeChars, List.flatMap_cons]
  by_cases hc : c = '|'
  · subst hc
    have hbar : escapeChar '|' = ['|'] := by decide
    have hnot : ¬ bars <+: '|' :: rest.flatMap escapeChar := by
      intro hstart
      apply h
      have hmore := (List.cons_prefix_cons.mp hstart).2
      have hrest : List.replicate 2 '|' <+: rest := replicate_prefix_of_flatMap hmore
      exact List.cons_prefix_cons.mpr ⟨rfl, hrest⟩
    rw [hbar, List.singleton_append, replace_cons (by decide) hnot]
    rfl
  · have hbar : '|' ∉ escapeChar c := fun hmem => hc (bar_mem_escapeChar_iff.mp hmem)
    exact replace_append_of_notMem hbar _

/-- To show a property of all texts, follow how they are escaped: three bars in front at once, and
any other first character on its own. -/
@[elab_as_elim]
theorem escape_induction {motive : List Char → Prop} (nil : motive [])
    (bars : ∀ rest, motive rest → motive (bars ++ rest))
    (cons : ∀ c rest, ¬ Tex.bars <+: c :: rest → motive rest → motive (c :: rest))
    (text : List Char) : motive text :=
  pattern_induction (by decide) nil bars cons text

theorem fragment_escapeChar (c : Char) : Fragment [] (escapeChar c) := by
  have hempty : Fragment [] (group []) := .group .nil
  unfold escapeChar
  split
  case h_1 => exact .escaped (by decide)
  case h_2 => exact .escaped (by decide)
  case h_3 => exact .escaped (by decide)
  case h_4 => exact .escaped (by decide)
  case h_5 => exact .escaped (by decide)
  case h_6 => exact .escaped (by decide)
  case h_7 => exact .escaped (by decide)
  case h_8 =>
    have hname : Fragment [] "brack".toList := .run rfl
    exact .append (.escaped (by decide)) (.append hname hempty)
  case h_9 =>
    have hname : Fragment [] "brack".toList := .run rfl
    exact .append (.escaped (by decide)) (.append hname hempty)
  case h_10 => exact .append (.escaped (by decide)) hempty
  case h_11 => exact .append (.escaped (by decide)) hempty
  case h_12 =>
    have hname : Fragment [] "extbackslash".toList := .run rfl
    exact .append (.escaped (by decide)) (.append hname hempty)
  case h_13 =>
    apply Fragment.plain
    rw [isPlain_eq_true_iff]
    simp only [special, reserved, List.cons_append, List.nil_append, List.mem_cons,
      List.not_mem_nil, or_false, not_or]
    grind

/-- Escaped text is a fragment without brackets and environments. -/
theorem fragment_escapeChars (text : List Char) : Fragment [] (escapeChars text) := by
  induction text using escape_induction with
  | nil => exact escapeChars_nil ▸ .nil
  | bars rest ih =>
    rw [escapeChars_bars]
    exact .append (.math .bars) ih
  | cons c rest h ih =>
    rw [escapeChars_cons h]
    exact .append (fragment_escapeChar c) ih

end TreeFigure.Tex
