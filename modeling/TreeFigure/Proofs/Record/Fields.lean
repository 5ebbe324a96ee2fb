import TreeFigure.Proofs.Record
import TreeFigure.Proofs.Text.Splitting

/-!
The fields of a record by rule. The tree text ends at the first mark of the line and the tokens end
at the next one. Marks may share a space and tokens between spaces may look like a mark, so a record
is not always read back as it was written; when it is, is said without reading it.
-/

namespace TreeFigure.Record

open Text

/-- The field that starts a text: it ends at the first mark, or where the text ends. -/
inductive IsField (text : List Char) : List Char → Prop
  | marked {field rest : List Char} (h : StandsFirst mark.toList text field rest) :
      IsField text field
  | last (h : ¬ mark.toList <:+: text) : IsField text text

theorem mark_ne_nil : mark.toList ≠ [] := by
  rw [toList_mark]
  exact List.cons_ne_nil _ _

section Parse

variable {line : String} {before after field : List Char}

theorem isField_tokenField (text : List Char) : IsField text (tokenField text) := by
  cases hcut : cut? mark.toList text with
  | none =>
    have hall : tokenField text = text := by simp only [tokenField, hcut]
    rw [hall]
    exact .last ((cut?_eq_none_iff mark_ne_nil).mp hcut)
  | some parts =>
    obtain ⟨field, rest⟩ := parts
    have hfield : tokenField text = field := by simp only [tokenField, hcut]
    rw [hfield]
    exact .marked (standsFirst_of_cut? hcut)

theorem IsField.tokenField_eq (h : IsField after field) : tokenField after = field := by
  cases h with
  | marked h => simp only [tokenField, (cut?_eq_some_iff mark_ne_nil).mpr h]
  | last h => simp only [tokenField, cut?_eq_none h]

theorem parse_eq_noMark_iff (line : String) :
    parse line = .error .noMark ↔ ¬ mark.toList <:+: line.toList := by
  rw [← cut?_eq_none_iff mark_ne_nil, parse]
  cases cut? mark.toList line.toList with
  | none => simp
  | some parts => cases hwords : words (tokenField parts.2) <;> simp [hwords]

theorem parse_eq_noTokens_iff (hcut : StandsFirst mark.toList line.toList before after)
    (hfield : IsField after field) : parse line = .error .noTokens ↔ IsGap field := by
  rw [← words_eq_nil_iff, parse, (cut?_eq_some_iff mark_ne_nil).mpr hcut]
  simp only [hfield.tokenField_eq]
  cases words field <;> simp

theorem parse_eq_ok_iff (hcut : StandsFirst mark.toList line.toList before after)
    (hfield : IsField after field) (record : Record) :
    parse line = .ok record ↔ words field ≠ [] ∧
      record = ⟨String.ofList before, (words field).map String.ofList⟩ := by
  rw [parse, (cut?_eq_some_iff mark_ne_nil).mpr hcut]
  simp only [hfield.tokenField_eq]
  cases words field <;> simp [eq_comm]

/-- A field that is not blank gives the tree text and the words of the field. -/
theorem exists_parse_eq_ok (hcut : StandsFirst mark.toList line.toList before after)
    (hfield : IsField after field) (hblank : ¬ IsGap field) :
    ∃ tokens : List String, tokens ≠ [] ∧ Worded field (tokens.map String.toList) ∧
      parse line = .ok ⟨String.ofList before, tokens⟩ := by
  have hwords : words field ≠ [] := fun hnil => hblank (words_eq_nil_iff.mp hnil)
  refine ⟨(words field).map String.ofList, by simpa using hwords, ?_, ?_⟩
  · rw [worded_iff]
    simp [Function.comp_def]
  · exact (parse_eq_ok_iff hcut hfield _).mpr ⟨hwords, rfl⟩

end Parse

section Written

variable {treeText : String} {tokens : List String}

/-- A mark arises at the seam only from bars at the end of the text before it. -/
theorem isInfix_append_dropLast_iff (text : List Char) :
    mark.toList <:+: text ++ mark.toList.dropLast ↔
      mark.toList <:+: text ∨ mark.toList.dropLast <:+ text := by
  have hsplits : ∀ n ≤ mark.toList.length, mark.toList.drop n <+: mark.toList.dropLast →
      mark.toList.take n = mark.toList ∨ mark.toList.take n = mark.toList.dropLast := by
    decide
  have hinner : ¬ mark.toList <:+: mark.toList.dropLast := by
    intro hin
    exact absurd hin.length_le (by decide)
  constructor
  · intro hin
    rcases List.infix_append_iff.mp hin with hleft | hright | ⟨front, back, hsplit, hfront, hback⟩
    · exact .inl hleft
    · exact absurd hright hinner
    · -- Of all ways to cut a mark only two leave a start of a mark on the right.
      have htake : mark.toList.take front.length = front := by rw [hsplit, List.take_left]
      have hdrop : mark.toList.drop front.length = back := by rw [hsplit, List.drop_left]
      have hlength : front.length ≤ mark.toList.length := by
        rw [hsplit, List.length_append]
        omega
      rw [← hdrop] at hback
      rcases hsplits _ hlength hback with hwhole | hseam
      · rw [htake] at hwhole
        exact .inl (hwhole ▸ hfront.isInfix)
      · rw [htake] at hseam
        exact .inr (hseam ▸ hfront)
  · rintro (hin | ⟨left, rfl⟩)
    · exact hin.trans (List.prefix_append _ _).isInfix
    · exact ⟨left, bars, by
        rw [toList_mark]
        simp [bars]⟩

theorem isToken_of_mem_map (htokens : ∀ token ∈ tokens, IsToken token.toList) :
    ∀ part ∈ tokens.map String.toList, IsToken part := by
  intro part hpart
  obtain ⟨token, hmem, rfl⟩ := List.mem_map.mp hpart
  exact htokens token hmem

/-- Tokens of which an inner one is bars hold a mark. -/
theorem mark_isInfix_intercalate (hbars : "|||||" ∈ tokens.tail.dropLast) :
    mark.toList <:+: [' '].intercalate (tokens.map String.toList) := by
  have hpart : bars ∈ (tokens.map String.toList).tail.dropLast := by
    rw [← List.map_tail, ← List.map_dropLast]
    exact List.mem_map.mpr ⟨"|||||", hbars, rfl⟩
  rw [toList_mark]
  exact isInfix_intercalate hpart

/-- A mark in a text costs words: its bars are no part of the field before it. -/
theorem words_ne_of_isField {text field : List Char} (hfield : IsField text field)
    (hmark : mark.toList <:+: text) : words field ≠ words text := by
  intro hsame
  cases hfield with
  | last hnone => exact hnone hmark
  | @marked _ rest hfirst =>
    have hshown : field.filter (!isBlank ·) = text.filter (!isBlank ·) := by
      rw [← flatten_words, ← flatten_words, hsame]
    have hlength := congrArg List.length hshown
    have hbars : (mark.toList.filter (!isBlank ·)).length = 5 := by decide
    rw [hfirst.eq_append, List.filter_append, List.filter_append, List.length_append,
      List.length_append, hbars] at hlength
    omega

/-- What is needed for a written record to be read back. -/
theorem conditions_of_parse_written (hne : tokens ≠ [])
    (htokens : ∀ token ∈ tokens, IsToken token.toList)
    (h : parse (written treeText tokens) = .ok ⟨treeText, tokens⟩) :
    ¬ mark.toList <:+: treeText.toList ++ mark.toList.dropLast ∧
      "|||||" ∉ tokens.tail.dropLast := by
  have hin : mark.toList <:+: (written treeText tokens).toList :=
    ⟨treeText.toList, _, by rw [toList_written, List.append_assoc]⟩
  cases hcut : cut? mark.toList (written treeText tokens).toList with
  | none => exact absurd hin ((cut?_eq_none_iff mark_ne_nil).mp hcut)
  | some parts =>
    obtain ⟨before, after⟩ := parts
    have hfirst := standsFirst_of_cut? hcut
    obtain ⟨-, hrecord⟩ := (parse_eq_ok_iff hfirst (isField_tokenField after) _).mp h
    obtain ⟨htree, hwords⟩ := Record.mk.inj hrecord
    have hbefore : before = treeText.toList := by rw [htree, String.toList_ofList]
    subst hbefore
    have hafter : after = [' '].intercalate (tokens.map String.toList) := by
      have hsplit := hfirst.eq_append
      rw [toList_written] at hsplit
      exact (List.append_cancel_left (List.append_cancel_left hsplit)).symm
    have hlist : words (tokenField after) = tokens.map String.toList := by
      rw [hwords]
      simp [Function.comp_def]
    have hall : words after = tokens.map String.toList := by
      rw [hafter]
      exact words_intercalate (by decide) (by simpa using hne) (isToken_of_mem_map htokens)
    refine ⟨hfirst.not_isInfix mark_ne_nil, ?_⟩
    intro hbars
    have hmark := mark_isInfix_intercalate hbars
    rw [← hafter] at hmark
    exact words_ne_of_isField (isField_tokenField after) hmark (hlist.trans hall.symm)

/-- A written record is read back exactly if no mark stands in its tree text, none arises where
the mark follows it, and no inner token is a mark without its spaces. -/
theorem parse_written_iff (hne : tokens ≠ []) (htokens : ∀ token ∈ tokens, IsToken token.toList) :
    parse (written treeText tokens) = .ok ⟨treeText, tokens⟩ ↔
      ¬ mark.toList <:+: treeText.toList ∧ ¬ mark.toList.dropLast <:+ treeText.toList ∧
        "|||||" ∉ tokens.tail.dropLast := by
  rw [← and_assoc, ← not_or, ← isInfix_append_dropLast_iff]
  constructor
  · exact conditions_of_parse_written hne htokens
  · rintro ⟨htree, hbars⟩
    exact parse_written hne htokens hbars htree

end Written

/-- A line is cut at its first mark, and the tokens are the words up to the next mark. So a tree
text and tokens that are written to a line are read back exactly if the mark occurs neither in the
tree text nor across its end nor from an inner token. -/
theorem parse_cuts_at_marks (line : String) :
    (parse line = .error .noMark ↔ ¬ mark.toList <:+: line.toList) ∧
    (mark.toList <:+: line.toList → ∃ before after field,
      StandsFirst mark.toList line.toList before after ∧ IsField after field) ∧
    (∀ before after field, StandsFirst mark.toList line.toList before after →
      IsField after field →
        (parse line = .error .noTokens ↔ IsGap field) ∧
        (¬ IsGap field → ∃ tokens : List String, tokens ≠ [] ∧
          Worded field (tokens.map String.toList) ∧
            parse line = .ok ⟨String.ofList before, tokens⟩)) ∧
    (∀ treeText tokens, tokens ≠ [] → (∀ token ∈ tokens, IsToken token.toList) →
      (parse (treeText ++ " ||||| " ++ " ".intercalate tokens) = .ok ⟨treeText, tokens⟩ ↔
        ¬ " ||||| ".toList <:+: treeText.toList ∧ ¬ " |||||".toList <:+ treeText.toList ∧
          "|||||" ∉ tokens.tail.dropLast)) ∧
    Fault.noMark.message = "missing '|||||' delimiter" ∧
    Fault.noTokens.message = "alignment token list is empty" := by
  refine ⟨parse_eq_noMark_iff line, ?_, ?_, ?_, rfl, rfl⟩
  · intro hin
    cases hcut : cut? mark.toList line.toList with
    | none => exact absurd hin ((cut?_eq_none_iff mark_ne_nil).mp hcut)
    | some parts =>
      exact ⟨parts.1, parts.2, _, standsFirst_of_cut? hcut, isField_tokenField parts.2⟩
  · intro before after field hcut hfield
    exact ⟨parse_eq_noTokens_iff hcut hfield, exists_parse_eq_ok hcut hfield⟩
  · intro treeText tokens hne htokens
    exact parse_written_iff hne htokens

/-- Bars that are a first token, bars that are an inner token, and bars without a space. -/
theorem parse_cuts_at_marks_bar_tokens :
    (¬ mark.toList <:+: "(a) |||||".toList ∧ parse "(a) |||||" = .error .noMark) ∧
    parse "(a) ||||| \t" = .error .noTokens ∧
    parse "(a) ||||| ||||| b ||||| c" = .ok ⟨"(a)", ["|||||", "b"]⟩ ∧
    parse "(a) ||||| ||||| b" = .ok ⟨"(a)", ["|||||", "b"]⟩ ∧
    parse "(a) ||||| a ||||| b" ≠ .ok ⟨"(a)", ["a", "|||||", "b"]⟩ := by
  have hnone : ¬ mark.toList <:+: "(a) |||||".toList :=
    (cut?_eq_none_iff mark_ne_nil).mp (by decide)
  have hblank : StandsFirst mark.toList "(a) ||||| \t".toList "(a)".toList ['\t'] :=
    standsFirst_of_cut? (by decide)
  have hfirst : StandsFirst mark.toList "(a) ||||| ||||| b ||||| c".toList "(a)".toList
      "||||| b ||||| c".toList := standsFirst_of_cut? (by decide)
  have hnext : StandsFirst mark.toList "||||| b ||||| c".toList "||||| b".toList "c".toList :=
    standsFirst_of_cut? (by decide)
  have htab : ¬ mark.toList <:+: ['\t'] := (cut?_eq_none_iff mark_ne_nil).mp (by decide)
  have htree : ¬ mark.toList <:+: "(a)".toList := (cut?_eq_none_iff mark_ne_nil).mp (by decide)
  obtain ⟨hmissing, -, -, hread, -⟩ := parse_cuts_at_marks "(a) |||||"
  obtain ⟨-, -, hempty, -⟩ := parse_cuts_at_marks "(a) ||||| \t"
  obtain ⟨-, -, hcut, -⟩ := parse_cuts_at_marks "(a) ||||| ||||| b ||||| c"
  obtain ⟨tokens, -, hworded, hparse⟩ := (hcut _ _ _ hfirst (.marked hnext)).2 (by decide)
  have htokens : tokens = ["|||||", "b"] := by
    have hwords : tokens.map String.toList = ["|||||", "b"].map String.toList := by
      rw [← hworded.words_eq]
      decide
    exact List.map_injective_iff.mpr (fun _ _ => String.toList_injective) hwords
  refine ⟨⟨hnone, hmissing.mpr hnone⟩, ?_, ?_, ?_, ?_⟩
  · exact (hempty _ _ _ hblank (.last htab)).1.mpr (by decide)
  · rw [hparse, htokens]
    rfl
  · exact (hread "(a)" ["|||||", "b"] (by simp) (by decide)).mpr ⟨htree, by decide, by decide⟩
  · intro hback
    have hsafe := (hread "(a)" ["a", "|||||", "b"] (by simp) (by decide)).mp hback
    exact hsafe.2.2 (by decide)

end TreeFigure.Record
