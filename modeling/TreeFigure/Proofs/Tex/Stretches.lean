import TreeFigure.Proofs.Tex.Unescaping
import TreeFigure.Proofs.Text.Occurrences
import TreeFigure.Proofs.Text.Runs

/-!
Escaping by stretches. A text is longest runs of bars with other characters between them, in one way
only. Each other character is written on its own, and a run is written in threes from the left. The
second pass touches nothing but runs, and two texts that are escaped alike are equal.
-/

namespace TreeFigure.Tex

open Text

/-- A part of a text: a run of bars, or another character. -/
inductive Stretch where
  | other (c : Char)
  | bars (count : Nat)
  deriving DecidableEq, Repr

/-- The characters that are not written as themselves, with what is written for them. -/
def substitutes : List (Char × String) :=
  [('$', "\\$"), ('%', "\\%"), ('#', "\\#"), ('&', "\\&"), ('{', "\\\x7b"), ('}', "\\\x7d"),
    ('_', "\\ "), ('[', "\\lbrack\x7b\x7d"), (']', "\\rbrack\x7b\x7d"), ('^', "\\^\x7b\x7d"),
    ('~', "\\~\x7b\x7d"), ('\\', "\\textbackslash\x7b\x7d")]

/-- How a stretch is written: three bars at a time in math mode, and those left over as they are. -/
def Stretch.written : Stretch → List Char
  | .other c => ((substitutes.lookup c).getD (String.singleton c)).toList
  | .bars count =>
    (List.replicate (count / 3) "$|||$".toList).flatten ++ List.replicate (count % 3) '|'

/-- These are the stretches of the text in order. No bar follows a run, so the runs are longest
ones. -/
inductive Stretched : List Char → List Stretch → Prop
  | nil : Stretched [] []
  | other {c : Char} {rest : List Char} {stretches : List Stretch} (h : c ≠ '|')
      (hrest : Stretched rest stretches) : Stretched (c :: rest) (.other c :: stretches)
  | bars {count : Nat} {rest : List Char} {stretches : List Stretch} (hpos : 0 < count)
      (hend : ¬ Begins (· == '|') rest) (hrest : Stretched rest stretches) :
      Stretched (List.replicate count '|' ++ rest) (.bars count :: stretches)

theorem written_other (c : Char) : (Stretch.other c).written = escapeChar c := by
  rw [Stretch.written]
  unfold escapeChar
  split
  case h_13 =>
    have hnone : substitutes.lookup c = none := by
      rw [List.lookup_eq_none_iff]
      simp_all [substitutes]
    rw [hnone, Option.getD_none, String.toList_singleton]
  all_goals rfl

section Stretched

variable {text rest : List Char} {stretches others : List Stretch}

theorem forall_mem_bars (count : Nat) : ∀ c ∈ List.replicate count '|', (c == '|') = true := by
  intro c hc
  rw [List.eq_of_mem_replicate hc]
  rfl

theorem begins_bars {count : Nat} (hpos : 0 < count) (rest : List Char) :
    Begins (· == '|') (List.replicate count '|' ++ rest) := by
  obtain ⟨before, rfl⟩ := Nat.exists_eq_succ_of_ne_zero (Nat.pos_iff_ne_zero.mp hpos)
  rw [List.replicate_succ, List.cons_append, begins_cons]
  rfl

theorem not_begins_other {c : Char} (h : c ≠ '|') (rest : List Char) :
    ¬ Begins (· == '|') (c :: rest) := by
  rw [begins_cons, beq_iff_eq]
  exact h

theorem exists_stretched (text : List Char) : ∃ stretches, Stretched text stretches := by
  induction text with
  | nil => exact ⟨[], .nil⟩
  | cons c rest ih =>
    obtain ⟨stretches, hrest⟩ := ih
    by_cases hc : c = '|'
    · subst hc
      -- A bar lengthens the run in front of which it stands, or it is a run of its own.
      cases hrest with
      | nil => exact ⟨[.bars 1], .bars Nat.one_pos not_begins_nil .nil⟩
      | @other d rest stretches hd hrest =>
        exact ⟨_, .bars Nat.one_pos (not_begins_other hd rest) (.other hd hrest)⟩
      | @bars count rest stretches hpos hend hrest =>
        exact ⟨.bars (count + 1) :: stretches, .bars (Nat.succ_pos count) hend hrest⟩
    · exact ⟨.other c :: stretches, .other hc hrest⟩

theorem Stretched.unique (h : Stretched text stretches) (hother : Stretched text others) :
    others = stretches := by
  induction h generalizing others with
  | nil =>
    generalize htext : [] = whole at hother
    cases hother with
    | nil => rfl
    | other => cases htext
    | bars hpos => exact absurd (htext ▸ begins_bars hpos _) not_begins_nil
  | @other c rest stretches hc _ ih =>
    generalize htext : c :: rest = whole at hother
    cases hother with
    | nil => cases htext
    | other _ hmore =>
      obtain ⟨rfl, rfl⟩ := List.cons.inj htext
      rw [ih hmore]
    | bars hpos => exact absurd (htext ▸ begins_bars hpos _) (not_begins_other hc rest)
  | @bars count rest stretches hpos hend _ ih =>
    generalize htext : List.replicate count '|' ++ rest = whole at hother
    cases hother with
    | nil => exact absurd (htext ▸ begins_bars hpos rest) not_begins_nil
    | other hd => exact absurd (htext ▸ begins_bars hpos rest) (not_begins_other hd _)
    | @bars number more _ _ hstop hmore =>
      obtain ⟨hrun, rfl⟩ := append_inj_of_run (forall_mem_bars count) (forall_mem_bars number)
        hend hstop htext
      have hcount : count = number := by simpa using congrArg List.length hrun
      rw [ih hmore, hcount]

/-- A run of bars before something else holds no longer run. -/
theorem le_of_replicate_prefix {count number : Nat} (hend : ¬ Begins (· == '|') rest)
    (h : List.replicate number '|' <+: List.replicate count '|' ++ rest) : number ≤ count := by
  induction count generalizing number with
  | zero =>
    cases number with
    | zero => exact Nat.le_refl 0
    | succ number =>
      obtain ⟨after, hafter⟩ := h
      rw [List.replicate_zero, List.nil_append] at hafter
      exact absurd (hafter ▸ begins_bars (Nat.succ_pos number) after) hend
  | succ count ih =>
    cases number with
    | zero => exact Nat.zero_le _
    | succ number =>
      rw [List.replicate_succ, List.replicate_succ, List.cons_append, List.cons_prefix_cons] at h
      exact Nat.succ_le_succ (ih h.2)

theorem escapeChars_bar {count : Nat} (hcount : count < 2) (hend : ¬ Begins (· == '|') rest) :
    escapeChars ('|' :: (List.replicate count '|' ++ rest)) =
      '|' :: escapeChars (List.replicate count '|' ++ rest) := by
  have hnot : ¬ bars <+: '|' :: (List.replicate count '|' ++ rest) := by
    intro hstart
    have hthree : List.replicate 3 '|' <+: List.replicate (count + 1) '|' ++ rest := hstart
    have hle := le_of_replicate_prefix hend hthree
    omega
  exact escapeChars_cons hnot

/-- A longest run of bars is written in threes from the left. -/
theorem escapeChars_run (hend : ¬ Begins (· == '|') rest) :
    (count : Nat) → escapeChars (List.replicate count '|' ++ rest) =
      (Stretch.bars count).written ++ escapeChars rest
  | 0 => rfl
  | 1 => escapeChars_bar Nat.zero_lt_two hend
  | 2 => by
    have hfirst := escapeChars_bar Nat.one_lt_two hend
    have hsecond := escapeChars_bar Nat.zero_lt_two hend
    exact hfirst.trans (congrArg ('|' :: ·) hsecond)
  | count + 3 => by
    have hthree : List.replicate (count + 3) '|' ++ rest =
        bars ++ (List.replicate count '|' ++ rest) := rfl
    have hdiv : (count + 3) / 3 = count / 3 + 1 := by omega
    have hmod : (count + 3) % 3 = count % 3 := by omega
    rw [hthree, escapeChars_bars, escapeChars_run hend count, Stretch.written, Stretch.written,
      hdiv, hmod, List.replicate_succ, List.flatten_cons, List.append_assoc, List.append_assoc,
      List.append_assoc]
    rfl

/-- Escaped text is its stretches, each written on its own. -/
theorem Stretched.escapeChars_eq (h : Stretched text stretches) :
    escapeChars text = stretches.flatMap Stretch.written := by
  induction h with
  | nil => exact escapeChars_nil
  | @other c rest stretches hc _ ih =>
    have hnot : ¬ Tex.bars <+: c :: rest :=
      fun hstart => hc (List.cons_prefix_cons.mp hstart).1.symm
    rw [escapeChars_cons hnot, ih, List.flatMap_cons, written_other]
  | bars _ hend _ ih => rw [escapeChars_run hend, ih, List.flatMap_cons]

end Stretched

/-- What the first pass writes for a character other than a bar stays in the result, and what stands
before and after it is escaped as if it stood alone. -/
theorem escapeChars_append_cons {c : Char} (h : c ≠ '|') (left right : List Char) :
    escapeChars (left ++ c :: right) =
      escapeChars left ++ (escapeChar c ++ escapeChars right) := by
  have hbars : c ∉ Tex.bars := by
    intro hmem
    have hthree : c ∈ List.replicate 3 '|' := hmem
    exact h (List.eq_of_mem_replicate hthree)
  induction left using escape_induction with
  | nil =>
    have hnot : ¬ Tex.bars <+: c :: right :=
      fun hstart => h (List.cons_prefix_cons.mp hstart).1.symm
    rw [List.nil_append, escapeChars_cons hnot, escapeChars_nil, List.nil_append]
  | bars left ih =>
    rw [List.append_assoc, escapeChars_bars, escapeChars_bars, ih, List.append_assoc]
  | cons d left hfirst ih =>
    have hnot : ¬ Tex.bars <+: d :: (left ++ c :: right) := by
      rw [← List.cons_append]
      exact fun hstart => hfirst (prefix_of_prefix_append_cons hbars hstart)
    rw [List.cons_append, escapeChars_cons hnot, escapeChars_cons hfirst, ih, List.append_assoc]

/-- A run of bars with which escaped text begins was there before, since math mode does not begin
with a bar. -/
theorem replicate_prefix_of_escapeChars {count : Nat} {text : List Char}
    (h : List.replicate count '|' <+: escapeChars text) : List.replicate count '|' <+: text := by
  induction text using escape_induction generalizing count with
  | nil =>
    rw [escapeChars_nil] at h
    exact h
  | bars rest =>
    cases count with
    | zero => exact List.nil_prefix
    | succ count =>
      rw [escapeChars_bars] at h
      exact absurd (List.cons_prefix_cons.mp h).1 (by decide)
  | cons c rest hfirst ih =>
    cases count with
    | zero => exact List.nil_prefix
    | succ count =>
      rw [escapeChars_cons hfirst, List.replicate_succ] at h
      obtain ⟨after, hafter⟩ := h
      have hhead : (escapeChar c).head? = some '|' := by
        rw [← head?_escapeChar_append c (escapeChars rest), ← hafter]
        rfl
      obtain rfl := eq_of_head?_escapeChar hhead (by decide)
      have hmore := (List.cons.inj hafter).2
      exact List.cons_prefix_cons.mpr ⟨rfl, ih ⟨after, hmore⟩⟩

/-- Escaped text has at most three bars in a row. -/
theorem not_four_bars_isInfix (text : List Char) :
    ¬ List.replicate 4 '|' <:+: escapeChars text := by
  intro h
  induction text using escape_induction with
  | nil =>
    rw [escapeChars_nil] at h
    exact absurd h.length_le (by decide)
  | bars rest ih =>
    -- The dollar signs around three bars cut the text into pieces with fewer than four.
    have hmath : escapeChars (Tex.bars ++ rest) =
        [] ++ '$' :: (Tex.bars ++ '$' :: escapeChars rest) := by
      have hbars := escapeChars_bars_append rest []
      rwa [List.append_nil, List.append_nil] at hbars
    have hdollar : '$' ∉ List.replicate 4 '|' := by decide
    rw [hmath] at h
    rcases isInfix_append_cons hdollar h with hnil | hinside
    · exact absurd hnil.length_le (by decide)
    · rcases isInfix_append_cons hdollar hinside with hbars | hrest
      · exact absurd hbars.length_le (by decide)
      · exact ih hrest
  | cons c rest hfirst ih =>
    rw [escapeChars_cons hfirst] at h
    by_cases hc : c = '|'
    · subst hc
      rcases List.infix_cons_iff.mp h with hstart | hlater
      · have hmore : List.replicate 3 '|' <+: escapeChars rest :=
          (List.cons_prefix_cons.mp hstart).2
        have hrest : List.replicate 2 '|' <+: rest :=
          (List.prefix_append _ ['|']).trans (replicate_prefix_of_escapeChars hmore)
        exact hfirst (List.cons_prefix_cons.mpr ⟨rfl, hrest⟩)
      · exact ih hlater
    · have hbar : '|' ∉ escapeChar c := fun hmem => hc (bar_mem_escapeChar_iff.mp hmem)
      exact ih (isInfix_of_notMem hbar h)

theorem escape_inj {text other : String} (h : escape text = escape other) : text = other := by
  have hchars : escapeChars text.toList = escapeChars other.toList := by
    rw [← toList_escape, ← toList_escape, h]
  have hgroup : group (escapeChars text.toList) ++ [] =
      group (escapeChars other.toList) ++ [] := by rw [hchars]
  exact String.toList_inj.mp (group_escapeChars_append_inj hgroup).1

/-- Escaping is a substitution that can be undone. A text has its stretches in one way only, and
each of them is written on its own. The second pass leaves what the first wrote for a character
other than a bar. Escaped text has at most three bars in a row, and it determines the text. -/
theorem escape_substitutes_stretches :
    (∀ text : String, ∃ stretches, Stretched text.toList stretches ∧
      (∀ others, Stretched text.toList others → others = stretches) ∧
      (escape text).toList = stretches.flatMap Stretch.written) ∧
    (∀ (left right : List Char) (c : Char), c ≠ '|' →
      replace bars mathBars ((left ++ c :: right).flatMap escapeChar) =
        replace bars mathBars (left.flatMap escapeChar) ++
          (escapeChar c ++ replace bars mathBars (right.flatMap escapeChar))) ∧
    (∀ text : String, ¬ List.replicate 4 '|' <:+: (escape text).toList) ∧
    (∀ text other : String, escape text = escape other → text = other) := by
  refine ⟨?_, ?_, ?_, fun text other => escape_inj⟩
  · intro text
    obtain ⟨stretches, hstretches⟩ := exists_stretched text.toList
    refine ⟨stretches, hstretches, fun others hothers => hstretches.unique hothers, ?_⟩
    rw [toList_escape, hstretches.escapeChars_eq]
  · intro left right c hc
    exact escapeChars_append_cons hc left right
  · intro text
    rw [toList_escape]
    exact not_four_bars_isInfix text.toList

/-- A dollar sign in front of four bars, and five bars at the end. -/
theorem escape_substitutes_stretches_adjacent :
    let text := "$||||_|||||"
    Stretched text.toList [.other '$', .bars 4, .other '_', .bars 5] ∧
      (escape text).toList = "\\$$|||$|\\ $|||$||".toList ∧
      escapeChars ("$||||".toList ++ '_' :: "|||||".toList) =
        escapeChars "$||||".toList ++ ("\\ ".toList ++ escapeChars "|||||".toList) ∧
      ¬ List.replicate 4 '|' <:+: (escape text).toList ∧
      escape "|$" ≠ escape "\\|" := by
  intro text
  obtain ⟨hwritten, hpass, hfour, hinj⟩ := escape_substitutes_stretches
  have hstretched : Stretched text.toList [.other '$', .bars 4, .other '_', .bars 5] := by
    have hlast : Stretched (List.replicate 5 '|' ++ []) [.bars 5] :=
      .bars (Nat.succ_pos 4) not_begins_nil .nil
    have hspace : '_' ≠ '|' := by decide
    have hdollar : '$' ≠ '|' := by decide
    have htext : text.toList =
        '$' :: (List.replicate 4 '|' ++ '_' :: (List.replicate 5 '|' ++ [])) := by decide
    rw [htext]
    exact .other hdollar (.bars (Nat.succ_pos 3) (not_begins_other hspace _) (.other hspace hlast))
  obtain ⟨stretches, -, hunique, htext⟩ := hwritten text
  rw [← hunique _ hstretched] at htext
  refine ⟨hstretched, htext, hpass _ _ '_' (by decide), hfour text, ?_⟩
  intro heq
  exact absurd (hinj _ _ heq) (by decide)

end TreeFigure.Tex
