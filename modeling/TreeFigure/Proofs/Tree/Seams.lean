import TreeFigure.Proofs.Tree.Lexing

/-!
The tokens of a text that is cut or continued. A text can be cut in front of any of its tokens, and
both parts keep their tokens. Whether a token is whole depends on no more than the next character,
so the first part may be continued by any text that begins with the same character.
-/

namespace TreeFigure.Token

open Text

section Whole

variable {token other : Token} {rest after : List Char}

/-- Only the next character can make a token longer. -/
theorem WholeBefore.of_head? (h : token.WholeBefore rest) (hsame : after.head? = rest.head?) :
    token.WholeBefore after := by
  have hbegins (inClass : Char → Bool) : Begins inClass after ↔ Begins inClass rest := by
    rw [Begins, Begins, hsame]
  cases token with
  | opening gap label =>
    obtain ⟨hgap, hlabel, hrest, hblank⟩ := h
    refine ⟨hgap, hlabel, ?_, ?_⟩
    · rwa [hbegins]
    · rwa [hbegins]
  | closing => trivial
  | word text =>
    obtain ⟨hword, hrest⟩ := h
    refine ⟨hword, ?_⟩
    rwa [hbegins]

/-- Nothing makes a token longer where the text ends. -/
theorem WholeBefore.of_append (h : token.WholeBefore (rest ++ after)) :
    token.WholeBefore rest := by
  cases rest with
  | cons c rest => exact h.of_head? rfl
  | nil =>
    cases token with
    | opening gap label => exact ⟨h.1, h.2.1, not_begins_nil, fun _ => not_begins_nil⟩
    | closing => trivial
    | word text => exact ⟨h.1, not_begins_nil⟩

/-- A closing bracket belongs to no token before it. -/
theorem WholeBefore.append_closing (h : token.WholeBefore rest) :
    token.WholeBefore (rest ++ [')']) := by
  cases rest with
  | cons c rest => exact h.of_head? rfl
  | nil =>
    have hinner : ¬ Begins isInner [')'] := by
      rw [begins_cons]
      decide
    have hblank : ¬ Begins isBlank [')'] := by
      rw [begins_cons]
      decide
    cases token with
    | opening gap label => exact ⟨h.1, h.2.1, hinner, fun _ => hblank⟩
    | closing => trivial
    | word text => exact ⟨h.1, hinner⟩

/-- A whole token starts with a character that is no blank. -/
theorem WholeBefore.exists_head? (h : token.WholeBefore rest) :
    ∃ c, token.text.head? = some c ∧ isBlank c = false := by
  cases token with
  | opening gap label => exact ⟨'(', rfl, by decide⟩
  | closing => exact ⟨')', rfl, by decide⟩
  | word text =>
    obtain ⟨hne, hinner⟩ := h.1
    obtain ⟨c, tail, rfl⟩ := List.exists_cons_of_ne_nil hne
    exact ⟨c, rfl, isBlank_eq_false_of_isInner (hinner c (by simp))⟩

end Whole

theorem Lexed.isGap {offset : Nat} {text : List Char} (h : Lexed offset text []) :
    IsGap text := by
  cases h with
  | done hgap => exact hgap

/-- A text that does not start with a blank starts with a token. -/
theorem exists_lexed_cons (offset : Nat) {text : List Char} {c : Char}
    (hhead : text.head? = some c) (hc : isBlank c = false) :
    ∃ token rest tail, Lexed offset text (⟨offset, token⟩ :: tail) ∧ token.WholeBefore rest ∧
      token.text.head? = some c := by
  obtain ⟨chars, rfl⟩ := List.head?_eq_some_iff.mp hhead
  have hstart : ¬ Begins isBlank (c :: chars) := by simp [hc]
  obtain ⟨token, rest, htext, hwhole, -⟩ :=
    exists_wholeBefore (List.cons_ne_nil c chars) hstart
  obtain ⟨tail, htail⟩ := exists_lexed (offset + byteSize [] + byteSize token.text) rest
  have hlexed := Lexed.token isGap_nil hwhole htail
  rw [List.nil_append, ← htext] at hlexed
  refine ⟨token, rest, tail, hlexed, hwhole, ?_⟩
  obtain ⟨d, hfirst, -⟩ := hwhole.exists_head?
  have hsame := congrArg List.head? htext
  rw [List.head?_append, hfirst, List.head?_cons, Option.some_or] at hsame
  rw [hfirst, hsame]

/-- A text can be cut in front of a token, and what stands before it continued by any text that
begins with the same character. -/
theorem Lexed.cut {offset : Nat} {text : List Char} {left right : List Placed} {next : Placed}
    (h : Lexed offset text (left ++ next :: right)) :
    ∃ before after rest, text = before ++ after ∧ next.offset = offset + byteSize before ∧
      Lexed offset before left ∧ next.token.WholeBefore rest ∧
      after.head? = next.token.text.head? ∧
      ∀ other placed, other.head? = after.head? → Lexed next.offset other placed →
        Lexed offset (before ++ other) (left ++ placed) := by
  generalize hall : left ++ next :: right = all at h
  induction h generalizing left with
  | done hgap => exact absurd hall (by simp)
  | @token offset gap rest token tail hgap hwhole htail ih =>
    have hhead : (token.text ++ rest).head? = token.text.head? := by
      obtain ⟨c, hfirst, -⟩ := hwhole.exists_head?
      rw [List.head?_append, hfirst, Option.some_or]
    cases left with
    | nil =>
      obtain ⟨rfl, rfl⟩ := List.cons_eq_cons.mp hall
      refine ⟨gap, token.text ++ rest, rest, rfl, rfl, .done hgap, hwhole, hhead, ?_⟩
      intro other placed hsame hother
      exact hother.gap_append hgap
    | cons first left =>
      obtain ⟨rfl, hrest⟩ := List.cons_eq_cons.mp hall
      obtain ⟨before, after, final, rfl, hoffset, hbefore, hnext, hafter, hcontinue⟩ := ih hrest
      refine ⟨gap ++ (token.text ++ before), after, final, ?_, ?_,
        .token hgap hwhole.of_append hbefore, hnext, hafter, ?_⟩
      · simp
      · rw [hoffset, byteSize_append, byteSize_append]
        omega
      · intro other placed hsame hother
        -- The next character is that of `before` or, if there is none, the one at the cut.
        have hagain : token.WholeBefore (before ++ other) := by
          apply hwhole.of_head?
          rw [List.head?_append, List.head?_append, hsame]
        have hlexed := Lexed.token hgap hagain (hcontinue other placed hsame hother)
        simpa using hlexed

/-- A closing bracket behind a text is one more token. -/
theorem Lexed.append_closing {offset : Nat} {text : List Char} {placed : List Placed}
    (h : Lexed offset text placed) :
    Lexed offset (text ++ [')']) (placed ++ [⟨offset + byteSize text, .closing⟩]) := by
  induction h with
  | @done offset gap hgap =>
    have hwhole : Token.closing.WholeBefore [] := trivial
    have hend : Lexed (offset + byteSize gap + byteSize closing.text) [] [] := .done isGap_nil
    have hlexed := Lexed.token hgap hwhole hend
    simpa [Token.text] using hlexed
  | @token offset gap rest token tail hgap hwhole htail ih =>
    have hlexed := Lexed.token hgap hwhole.append_closing ih
    simpa [Nat.add_assoc] using hlexed

end TreeFigure.Token
