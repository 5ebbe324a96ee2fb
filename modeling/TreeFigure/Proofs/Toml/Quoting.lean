import TreeFigure.Proofs.Toml.Escaping

/-!
Strings are read back as they were written. Whatever the text, the kind of quotes chosen for it can
hold it, and the reader of that kind of quotes finds the text again and stops at the closing ones.
-/

namespace TreeFigure.Toml

open Quoted Scan

/-! One line in single quotes. -/

theorem literalBody_append {text : List Char} (rest : List Char)
    (h : ∀ c ∈ text, isPlain c = true ∧ c ≠ '\x27') :
    literalBody (text ++ '\x27' :: rest) = some (text, rest) := by
  induction text with
  | nil => rfl
  | cons c text ih =>
    obtain ⟨hc, htext⟩ := List.forall_mem_cons.mp h
    simp [literalBody, hc.1, hc.2, ih htext, before]

/-! Several lines in single quotes. -/

theorem longLiteralBody_kept {c : Char} (h : isPlain c = true ∨ c = '\n') (hquote : c ≠ '\x27')
    (rest : List Char) :
    longLiteralBody (c :: rest) = before c (longLiteralBody rest) := by
  have hreturn : c ≠ '\r' := by
    rintro rfl
    rcases h with h | h <;> cases h
  simp [longLiteralBody, hquote, hreturn, h.symm]

theorem longLiteralBody_quote {rest : List Char} (h : ∀ more, rest ≠ '\x27' :: '\x27' :: more) :
    longLiteralBody ('\x27' :: rest) = before '\x27' (longLiteralBody rest) := by
  simp [longLiteralBody, isPlain, h]

theorem longLiteralBody_closing {count : Nat} (hcount : count ≤ 2) {rest : List Char}
    (hrest : rest.head? ≠ some '\x27') :
    longLiteralBody (List.replicate count '\x27' ++ '\x27' :: '\x27' :: '\x27' :: rest) =
      some (List.replicate count '\x27', rest) := by
  have hnext (more : List Char) : rest ≠ '\x27' :: more := by
    rintro rfl
    exact hrest rfl
  match count, hcount with
  | 0, _ => simp [longLiteralBody, hnext]
  | 1, _ => simp [longLiteralBody]
  | 2, _ => simp [longLiteralBody]

theorem le_longestRunAfter (quote : Char) (run : Nat) (text : List Char) :
    run ≤ longestRunAfter quote run text := by
  induction text generalizing run with
  | nil => exact Nat.le_refl run
  | cons c text ih =>
    unfold longestRunAfter
    split
    case isTrue => exact Nat.le_trans (Nat.le_succ run) (ih (run + 1))
    case isFalse => exact Nat.le_max_left run _

/-- Without long runs of quotes two more follow a quote only at the end of the text. -/
theorem not_quotes_of_longestRunAfter {run : Nat} {text : List Char}
    (hrun : longestRunAfter '\x27' (run + 1) text ≤ 2) (hnil : text ≠ []) (hlast : text ≠ ['\x27'])
    (rest : List Char) : ∀ more, text ++ rest ≠ '\x27' :: '\x27' :: more := by
  intro more hmore
  match text with
  | [] => exact hnil rfl
  | [c] =>
    obtain rfl : c = '\x27' := (List.cons.inj hmore).1
    exact hlast rfl
  | c :: next :: text =>
    obtain rfl : c = '\x27' := (List.cons.inj hmore).1
    obtain rfl : next = '\x27' := (List.cons.inj (List.cons.inj hmore).2).1
    have hle := le_longestRunAfter '\x27' (run + 1 + 1 + 1) text
    rw [longestRunAfter, if_pos rfl, longestRunAfter, if_pos rfl] at hrun
    omega

/-- A text without long runs of single quotes is read back. -/
theorem longLiteralBody_append {text : List Char} {run : Nat} {rest : List Char}
    (htext : ∀ c ∈ text, isPlain c = true ∨ c = '\n') (hrun : longestRunAfter '\x27' run text ≤ 2)
    (hrest : rest.head? ≠ some '\x27') :
    longLiteralBody (text ++ '\x27' :: '\x27' :: '\x27' :: rest) = some (text, rest) := by
  induction text generalizing run with
  | nil => exact longLiteralBody_closing (Nat.zero_le 2) hrest
  | cons c text ih =>
    obtain ⟨hc, hkept⟩ := List.forall_mem_cons.mp htext
    by_cases hquote : c = '\x27'
    · subst hquote
      rw [longestRunAfter, if_pos rfl] at hrun
      rw [List.cons_append]
      by_cases hnil : text = []
      · subst hnil
        exact longLiteralBody_closing (Nat.le_succ 1) hrest
      · by_cases hlast : text = ['\x27']
        · subst hlast
          exact longLiteralBody_closing (Nat.le_refl 2) hrest
        · have hquotes := not_quotes_of_longestRunAfter hrun hnil hlast
            ('\x27' :: '\x27' :: '\x27' :: rest)
          rw [longLiteralBody_quote hquotes, ih hkept hrun]
          rfl
    · rw [longestRunAfter, if_neg hquote, Nat.max_le] at hrun
      rw [List.cons_append, longLiteralBody_kept hc hquote, ih hkept hrun.2]
      rfl

/-! The choice of quotes. -/

theorem not_mem_of_longestRun_eq_zero {quote : Char} {text : List Char}
    (h : longestRun quote text = 0) : quote ∉ text := by
  unfold longestRun at h
  induction text with
  | nil => exact List.not_mem_nil
  | cons c text ih =>
    unfold longestRunAfter at h
    split at h
    case isTrue =>
      have hle := le_longestRunAfter quote (0 + 1) text
      omega
    case isFalse hne =>
      rw [Nat.zero_max] at h
      rw [List.mem_cons, not_or]
      exact ⟨fun heq => hne heq.symm, ih h⟩

/-- Without control characters a text can stand as it is where line feeds may. -/
theorem kept_of_hasControl {text : List Char} (h : hasControl text = false) :
    ∀ c ∈ text, isPlain c = true ∨ c = '\n' := by
  intro c hmem
  have hc := List.any_eq_false.mp h c hmem
  by_cases hfeed : c = '\n'
  · exact .inr hfeed
  · by_cases htab : c = '\t'
    · rw [htab]
      exact .inl rfl
    · simpa [isPlain, hfeed, htab] using hc

theorem plain_of_hasControl {text : List Char} (h : hasControl text = false)
    (hfeed : hasLineFeed text = false) : ∀ c ∈ text, isPlain c = true := by
  intro c hmem
  rcases kept_of_hasControl h c hmem with hplain | rfl
  · exact hplain
  · have hmissing := List.contains_iff_mem.mpr hmem
    unfold hasLineFeed at hfeed
    rw [hfeed] at hmissing
    cases hmissing

/-- The line end after the opening quotes of a text with several lines is skipped, and no other. -/
theorem skipFirstLineEnd_append {text : List Char} {first : Char} {rest : List Char}
    (h : hasLineFeed text = false → isPlain first = true) :
    skipFirstLineEnd (firstLineEnd text ++ first :: rest) = first :: rest := by
  unfold firstLineEnd
  cases hfeed : hasLineFeed text with
  | true => rfl
  | false =>
    have hplain := h hfeed
    have hne : first ≠ '\n' ∧ first ≠ '\r' := by
      constructor <;> rintro rfl <;> cases hplain
    simp [skipFirstLineEnd, lineEnd?, hne.1, hne.2]

theorem quoted_basic {rest : List Char} (h : ∀ more, rest ≠ '\x22' :: '\x22' :: more) :
    quoted ('\x22' :: rest) = basicBody rest := by
  rw [quoted]
  exact h

theorem quoted_literal {rest : List Char} (h : ∀ more, rest ≠ '\x27' :: '\x27' :: more) :
    quoted ('\x27' :: rest) = literalBody rest := by
  rw [quoted]
  exact h

theorem of_style_literal {text : List Char} (h : style text = .literal) :
    hasControl text = false ∧ longestRun '\x27' text = 0 ∧ hasLineFeed text = false := by
  unfold style at h
  grind

theorem of_style_longLiteral {text : List Char} (h : style text = .longLiteral) :
    hasControl text = false ∧ longestRun '\x27' text ≤ 2 := by
  unfold style at h
  grind

section Write

variable (text : List Char) {rest : List Char}

theorem quoted_escaped (hrest : rest.head? ≠ some '\x22') :
    quoted ('\x22' :: escapeFrom false 0 0 text ++ ['\x22'] ++ rest) = some (text, rest) := by
  have hquotes (more : List Char) :
      escapeFrom false 0 0 text ++ '\x22' :: rest ≠ '\x22' :: '\x22' :: more := by
    intro heq
    cases text with
    | nil => exact hrest (congrArg List.head? (List.cons.inj heq).2)
    | cons c text =>
      exact escapeFrom_head?_ne (fun _ => Nat.le_refl 0) text _ (congrArg List.head? heq)
  rw [List.append_assoc, List.cons_append, List.singleton_append, quoted_basic hquotes]
  exact basicBody_escapeFrom text rest

theorem quoted_kept (hrest : rest.head? ≠ some '\x27') (hcontrol : hasControl text = false)
    (hquote : '\x27' ∉ text) (hfeed : hasLineFeed text = false) :
    quoted ('\x27' :: text ++ ['\x27'] ++ rest) = some (text, rest) := by
  have hplain := plain_of_hasControl hcontrol hfeed
  have hne (c : Char) (hmem : c ∈ text) : c ≠ '\x27' := by
    rintro rfl
    exact hquote hmem
  have hquotes (more : List Char) : text ++ '\x27' :: rest ≠ '\x27' :: '\x27' :: more := by
    intro heq
    cases text with
    | nil => exact hrest (congrArg List.head? (List.cons.inj heq).2)
    | cons c text => exact hne c List.mem_cons_self (List.cons.inj heq).1
  rw [List.append_assoc, List.cons_append, List.singleton_append, quoted_literal hquotes]
  exact literalBody_append rest fun c hmem => ⟨hplain c hmem, hne c hmem⟩

theorem quoted_longEscaped (hrest : rest.head? ≠ some '\x22') :
    quoted (List.replicate 3 '\x22' ++ firstLineEnd text ++ escapeFrom true 2 0 text ++
      List.replicate 3 '\x22' ++ rest) = some (text, rest) := by
  have hfirst : ∃ first more, escapeFrom true 2 0 text ++ '\x22' :: '\x22' :: '\x22' :: rest =
      first :: more ∧ (hasLineFeed text = false → isPlain first = true) := by
    cases text with
    | nil => exact ⟨_, _, rfl, fun _ => rfl⟩
    | cons c text =>
      by_cases hquote : c = '\x22'
      · exact ⟨'\x22', _, by rw [escapeFrom, if_pos hquote]; rfl, fun _ => rfl⟩
      · rw [escapeFrom, if_neg hquote]
        by_cases hfeed : c = '\n'
        · exact ⟨'\n', _, by rw [hfeed]; rfl, fun hnone => by simp [hasLineFeed, hfeed] at hnone⟩
        · have hescaped : Escaped c (escapeChar true c) := escaped_escapeChar hquote (.inr hfeed)
          obtain ⟨first, more, heq, hplain, -⟩ := hescaped.exists_cons
          exact ⟨first, _, by rw [heq]; rfl, fun _ => hplain⟩
  have hbody := longBasicBody_escapeFrom text 0 hrest
  obtain ⟨first, more, heq, hplain⟩ := hfirst
  rw [heq, ← skipFirstLineEnd_append hplain, ← heq] at hbody
  simpa [quoted] using hbody

theorem quoted_longKept (hrest : rest.head? ≠ some '\x27') (hcontrol : hasControl text = false)
    (hrun : longestRun '\x27' text ≤ 2) :
    quoted (List.replicate 3 '\x27' ++ firstLineEnd text ++ text ++
      List.replicate 3 '\x27' ++ rest) = some (text, rest) := by
  have hfirst : ∃ first more, text ++ '\x27' :: '\x27' :: '\x27' :: rest =
      first :: more ∧ (hasLineFeed text = false → isPlain first = true) := by
    cases text with
    | nil => exact ⟨_, _, rfl, fun _ => rfl⟩
    | cons c text =>
      exact ⟨c, _, rfl, fun hfeed => plain_of_hasControl hcontrol hfeed c List.mem_cons_self⟩
  have hbody := longLiteralBody_append (kept_of_hasControl hcontrol) hrun hrest
  obtain ⟨first, more, heq, hplain⟩ := hfirst
  rw [heq, ← skipFirstLineEnd_append hplain, ← heq] at hbody
  simpa [quoted] using hbody

/-- A string is read back as it was written, where no quote follows it. -/
theorem quoted_write (hdouble : rest.head? ≠ some '\x22')
    (hsingle : rest.head? ≠ some '\x27') : quoted (write text ++ rest) = some (text, rest) := by
  unfold write
  cases hstyle : style text with
  | basic => exact quoted_escaped text hdouble
  | literal =>
    obtain ⟨hcontrol, hsingles, hfeed⟩ := of_style_literal hstyle
    exact quoted_kept text hsingle hcontrol (not_mem_of_longestRun_eq_zero hsingles) hfeed
  | longBasic => exact quoted_longEscaped text hdouble
  | longLiteral =>
    obtain ⟨hcontrol, hsingles⟩ := of_style_longLiteral hstyle
    exact quoted_longKept text hsingle hcontrol hsingles

end Write

end TreeFigure.Toml
