import TreeFigure.Proofs.Text.Splitting
import TreeFigure.Proofs.Tree.Depth
import TreeFigure.Proofs.Tree.Texts

/-!
Finding tokens loses nothing of a text. The tokens lie side by side in the order of the text, and
what lies between them is blank. No bracket and no word is missed, no word is cut in two, and two
words never become one, whether or not the text is the notation of a tree.
-/

namespace TreeFigure

open Text

/-- A word cannot go on here: with a blank, with a bracket, or with nothing. -/
def Text.IsBound (neighbour : Option Char) : Prop :=
  ∀ c ∈ neighbour, isBlank c = true ∨ c = '(' ∨ c = ')'

theorem Text.isInner_eq_false_iff {c : Char} :
    isInner c = false ↔ isBlank c = true ∨ c = '(' ∨ c = ')' := by
  simp only [isInner, Bool.and_eq_false_iff, Bool.not_eq_false', bne_eq_false_iff_eq, or_assoc]

theorem Text.isBound_head?_iff {text : List Char} :
    IsBound text.head? ↔ ¬ Begins isInner text := by
  cases text with
  | nil => simp [IsBound]
  | cons c rest => simp [IsBound, ← isInner_eq_false_iff]

/-- In a list of two parts an item stands in the first or in the second one. -/
theorem Text.append_eq_append_cons {α : Type} {xs ys left right : List α} {x : α}
    (h : xs ++ ys = left ++ x :: right) :
    (∃ rest, xs = left ++ x :: rest) ∨ ∃ start, left = xs ++ start ∧ ys = start ++ x :: right := by
  rcases List.append_eq_append_iff.mp h with ⟨start, rfl, hys⟩ | ⟨rest, rfl, hright⟩
  · exact .inr ⟨start, rfl, hys⟩
  · cases rest with
    | nil => exact .inr ⟨[], by simp, hright.symm⟩
    | cons y rest =>
      obtain ⟨rfl, -⟩ := List.cons_eq_cons.mp hright
      exact .inl ⟨rest, rfl⟩

namespace Token

/-- The token is complete between what stands before it and what stands after it. A word has no
more of it on either side. An opening bracket has all the blanks behind it, and behind these a
complete word as its label or, if there is no label, another bracket or the end of the text. -/
def Complete (before after : List Char) : Token → Prop
  | .opening gap label =>
    IsGap gap ∧ (IsWord label ∧ IsBound after.head? ∨
      label = [] ∧ (after = [] ∨ after.head? = some '(' ∨ after.head? = some ')'))
  | .closing => True
  | .word text => IsWord text ∧ IsBound before.getLast? ∧ IsBound after.head?

/-- The token takes the character at this byte offset. -/
def Placed.Covers (placed : Placed) (offset : Nat) : Prop :=
  placed.offset ≤ offset ∧ offset < placed.offset + byteSize placed.token.text

/-- Before a word only a closing bracket can stand without a blank. -/
theorem WholeBefore.eq_closing {token : Token} {rest : List Char} (h : token.WholeBefore rest)
    (hrest : Begins isInner rest) : token = .closing := by
  cases token with
  | opening gap label => exact absurd hrest h.2.2.1
  | closing => rfl
  | word text => exact absurd hrest h.2

theorem WholeBefore.complete {token : Token} {before after : List Char}
    (h : token.WholeBefore after)
    (hbefore : Begins isInner (token.text ++ after) → IsBound before.getLast?) :
    token.Complete before after := by
  cases token with
  | opening gap label =>
    obtain ⟨hgap, hlabel, hinner, hblank⟩ := h
    refine ⟨hgap, ?_⟩
    cases label with
    | cons c label => exact .inl ⟨⟨List.cons_ne_nil c label, hlabel⟩, isBound_head?_iff.mpr hinner⟩
    | nil =>
      refine .inr ⟨rfl, ?_⟩
      cases after with
      | nil => exact .inl rfl
      | cons c after =>
        have hc : isBlank c = false := by simpa using hblank rfl
        have hother := isBound_head?_iff.mpr hinner c rfl
        rw [hc] at hother
        simpa using hother
  | closing => trivial
  | word text =>
    obtain ⟨hword, hend⟩ := h
    exact ⟨hword, hbefore (hword.begins after), isBound_head?_iff.mpr hend⟩

section Lexed

variable {offset : Nat} {text : List Char} {placed : List Placed}

/-- Behind a gap a word is bounded by the gap or, if that is empty, by what stands before it. -/
theorem isBound_getLast?_append_gap {read gap : List Char} (hgap : IsGap gap)
    (h : gap = [] → IsBound read.getLast?) : IsBound (read ++ gap).getLast? := by
  rcases List.eq_nil_or_concat gap with rfl | ⟨blanks, last, rfl⟩
  · rw [List.append_nil]
    exact h rfl
  · rw [List.concat_eq_append, ← List.append_assoc, List.getLast?_concat]
    rintro c ⟨⟩
    exact .inl (hgap last (by simp))

/-- Every token of a text that follows another one stands at its offset and is complete there. -/
theorem Lexed.exists_complete (h : Lexed offset text placed) {read : List Char}
    (hread : Begins isInner text → IsBound read.getLast?) :
    ∀ one ∈ placed, ∃ before after, text = before ++ (one.token.text ++ after) ∧
      one.offset = offset + byteSize before ∧ one.token.Complete (read ++ before) after := by
  induction h generalizing read with
  | done hgap => exact fun _ hmem => absurd hmem List.not_mem_nil
  | @token offset gap rest token placed hgap hwhole _ ih =>
    intro one hmem
    rcases List.mem_cons.mp hmem with rfl | hmem
    · refine ⟨gap, rest, rfl, rfl, hwhole.complete fun hbegins => ?_⟩
      refine isBound_getLast?_append_gap hgap fun hnil => hread ?_
      rwa [hnil]
    · have hnext : Begins isInner rest → IsBound (read ++ gap ++ token.text).getLast? := by
        intro hbegins
        rw [hwhole.eq_closing hbegins, Token.text, List.getLast?_concat]
        rintro c ⟨⟩
        exact .inr (.inr rfl)
      obtain ⟨before, after, rfl, hoffset, hcomplete⟩ := ih hnext one hmem
      refine ⟨gap ++ (token.text ++ before), after, by simp, ?_, ?_⟩
      · rw [hoffset, byteSize_append, byteSize_append]
        omega
      · rwa [← List.append_assoc, ← List.append_assoc]

theorem Lexed.le_offset (h : Lexed offset text placed) : ∀ one ∈ placed, offset ≤ one.offset := by
  induction h with
  | done hgap => exact fun _ hmem => absurd hmem List.not_mem_nil
  | @token offset gap rest token placed _ _ _ ih =>
    intro one hmem
    rcases List.mem_cons.mp hmem with rfl | hmem
    · exact Nat.le_add_right offset _
    · have hlater := ih one hmem
      omega

/-- The tokens lie side by side in the order of the text. -/
theorem Lexed.pairwise (h : Lexed offset text placed) :
    placed.Pairwise fun one other => one.offset + byteSize one.token.text ≤ other.offset := by
  induction h with
  | done hgap => exact .nil
  | token hgap hwhole tail ih => exact .cons tail.le_offset ih

/-- A character that no token takes is a blank. -/
theorem Lexed.isBlank_or_covers (h : Lexed offset text placed) {before after : List Char} {c : Char}
    (hsplit : text = before ++ c :: after) :
    isBlank c = true ∨ ∃ one ∈ placed, one.Covers (offset + byteSize before) := by
  induction h generalizing before with
  | done hgap => exact .inl (hgap c (by simp [hsplit]))
  | @token offset gap rest token placed hgap hwhole _ ih =>
    rcases append_eq_append_cons hsplit with ⟨blanks, rfl⟩ | ⟨chars, rfl, hbehind⟩
    · exact .inl (hgap c (by simp))
    · rw [byteSize_append, ← Nat.add_assoc]
      rcases append_eq_append_cons hbehind with ⟨more, htoken⟩ | ⟨chars, rfl, hrest⟩
      · refine .inr ⟨⟨offset + byteSize gap, token⟩, List.mem_cons_self, Nat.le_add_right _ _,
          Nat.add_lt_add_left ?_ _⟩
        rw [htoken, byteSize_append, byteSize]
        have hpos := c.utf8Size_pos
        omega
      · rw [byteSize_append, ← Nat.add_assoc]
        exact (ih hrest).imp_right fun ⟨one, hmem, hcovers⟩ =>
          ⟨one, List.mem_cons_of_mem _ hmem, hcovers⟩

/-- The labels and words of the tokens are the words of the text. -/
theorem Lexed.longestRuns_eq (h : Lexed offset text placed) :
    longestRuns isInner text = (placed.map (·.token.content)).filter (!·.isEmpty) := by
  have hskip {gap : List Char} (hgap : IsGap gap) (rest : List Char) :
      longestRuns isInner (gap ++ rest) = longestRuns isInner rest :=
    longestRuns_outside_append (fun c hc => isInner_eq_false_of_isBlank (hgap c hc)) rest
  induction h with
  | @done offset gap hgap =>
    rw [← List.append_nil gap, hskip hgap]
    rfl
  | @token offset gap rest token placed hgap hwhole _ ih =>
    rw [hskip hgap, List.map_cons]
    cases token with
    | opening blanks label =>
      obtain ⟨hblanks, hlabel, hend, -⟩ := hwhole
      have hopen : isInner '(' = false := by decide
      rw [Token.text, List.cons_append, List.cons_append, longestRuns_cons_outside hopen,
        List.append_assoc, hskip hblanks]
      cases label with
      | nil => exact ih
      | cons c label =>
        rw [longestRuns_run_append (List.cons_ne_nil c label) hlabel hend, ih]
        rfl
    | closing =>
      have hclose : isInner ')' = false := by decide
      rw [Token.text, List.singleton_append, longestRuns_cons_outside hclose, ih]
      rfl
    | word word =>
      obtain ⟨⟨hne, hinner⟩, hend⟩ := hwhole
      rw [Token.text, longestRuns_run_append hne hinner hend, ih, List.filter_cons_of_pos]
      · rfl
      · simpa [content] using hne

theorem WholeBefore.count_brackets {token : Token} {rest : List Char}
    (h : token.WholeBefore rest) :
    token.text.count '(' = (if token.isOpening then 1 else 0) ∧
      token.text.count ')' = if token.isClosing then 1 else 0 := by
  cases token with
  | opening gap label =>
    obtain ⟨hgap, hlabel, -, -⟩ := h
    constructor
    · rw [Token.text, List.cons_append, List.count_cons_self, List.count_append,
        count_run hgap (by decide), count_run hlabel (by decide)]
      rfl
    · rw [Token.text, List.cons_append, List.count_cons_of_ne (by decide), List.count_append,
        count_run hgap (by decide), count_run hlabel (by decide)]
      rfl
  | closing => exact ⟨rfl, rfl⟩
  | word text => exact ⟨count_run h.1.2 (by decide), count_run h.1.2 (by decide)⟩

/-- Every bracket of the text has a token of its own. -/
theorem Lexed.count_brackets (h : Lexed offset text placed) :
    text.count '(' = placed.countP (·.token.isOpening) ∧
      text.count ')' = placed.countP (·.token.isClosing) := by
  induction h with
  | done hgap => exact ⟨count_run hgap (by decide), count_run hgap (by decide)⟩
  | token hgap hwhole _ ih =>
    obtain ⟨hopening, hclosing⟩ := hwhole.count_brackets
    constructor
    · rw [List.count_append, List.count_append, count_run hgap (by decide), hopening, ih.1,
        List.countP_cons, Nat.zero_add, Nat.add_comm]
    · rw [List.count_append, List.count_append, count_run hgap (by decide), hclosing, ih.2,
        List.countP_cons, Nat.zero_add, Nat.add_comm]

end Lexed

/-- The tokens of any text lie side by side in its order, each stands at its offset and is complete
there, and every character that no token takes is a blank. So the labels and words of the tokens are
the words of the text in their order, and each bracket of the text has a token of its own. -/
theorem ofText_covers_text (text : List Char) :
    (ofText text).Pairwise
      (fun one other => one.offset + byteSize one.token.text ≤ other.offset) ∧
    (∀ one ∈ ofText text, ∃ before after, text = before ++ (one.token.text ++ after) ∧
      one.offset = byteSize before ∧ one.token.Complete before after) ∧
    (∀ before c after, text = before ++ c :: after →
      isBlank c = true ∨ ∃ one ∈ ofText text, one.Covers (byteSize before)) ∧
    ((ofText text).map (·.token.content)).filter (!·.isEmpty) = longestRuns isInner text ∧
    (ofText text).countP (·.token.isOpening) = text.count '(' ∧
    (ofText text).countP (·.token.isClosing) = text.count ')' := by
  have hlexed : Lexed 0 text (ofText text) := lexed_iff.mpr rfl
  refine ⟨hlexed.pairwise, ?_, ?_, hlexed.longestRuns_eq.symm, hlexed.count_brackets.1.symm,
    hlexed.count_brackets.2.symm⟩
  · intro one hmem
    have hstart : Begins isInner text → IsBound ([] : List Char).getLast? :=
      fun _ c hc => absurd hc (Option.not_mem_none c)
    obtain ⟨before, after, hsplit, hoffset, hcomplete⟩ := hlexed.exists_complete hstart one hmem
    rw [Nat.zero_add] at hoffset
    exact ⟨before, after, hsplit, hoffset, hcomplete⟩
  · intro before c after hsplit
    have hcovered := hlexed.isBlank_or_covers hsplit
    rwa [Nat.zero_add] at hcovered

/-- A text that is no tree. A wide blank lies between two tokens, a closing bracket touches a word,
and the blank behind an opening bracket that has no label belongs to the bracket. -/
theorem ofText_covers_text_unparsed :
    let text := "a)\u2003b( c( )(".toList
    (ofText text).map (·.offset) = [0, 1, 5, 6, 9, 11, 12] ∧
      ⟨9, .opening [' '] []⟩ ∈ ofText text ∧
      (∃ before after, text = before ++ (['(', ' '] ++ after) ∧ 9 = byteSize before ∧
        (Token.opening [' '] []).Complete before after) ∧
      (∃ one ∈ ofText text, one.Covers 8) ∧
      ((ofText text).map (·.token.content)).filter (!·.isEmpty) = [['a'], ['b'], ['c']] ∧
      longestRuns isInner text = [['a'], ['b'], ['c']] ∧
      text.count '(' = 3 ∧ text.count ')' = 2 := by
  intro text
  have hplaced : ofText text = [⟨0, .word ['a']⟩, ⟨1, .closing⟩, ⟨5, .word ['b']⟩,
      ⟨6, .opening [' '] ['c']⟩, ⟨9, .opening [' '] []⟩, ⟨11, .closing⟩, ⟨12, .opening [] []⟩] := by
    decide +kernel
  obtain ⟨-, hcomplete, hcovered, hwords, hopening, hclosing⟩ := ofText_covers_text text
  have hmem : ⟨9, .opening [' '] []⟩ ∈ ofText text := by
    rw [hplaced]
    decide
  have hlabel := (hcovered "a)\u2003b( ".toList 'c' "( )(".toList rfl).resolve_left (by decide)
  have hfound : ((ofText text).map (·.token.content)).filter (!·.isEmpty) =
      [['a'], ['b'], ['c']] := by
    rw [hplaced]
    rfl
  rw [hplaced] at hopening hclosing
  refine ⟨by rw [hplaced]; rfl, hmem, hcomplete _ hmem, hlabel, hfound, ?_, hopening.symm,
    hclosing.symm⟩
  rw [← hwords, hfound]

end Token

end TreeFigure
