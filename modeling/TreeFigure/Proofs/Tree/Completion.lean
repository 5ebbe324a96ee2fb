import TreeFigure.Proofs.Tree.Depth
import TreeFigure.Proofs.Tree.Grammar

/-!
What a continuation of a text can still change. A fault before the end of a text is final: it is
found again whatever follows, while the text before it is the start of a tree. A text that only
leaves brackets open is completed by as many closing brackets and by no other number of them.
-/

namespace TreeFigure.Tree

open Text
open Token (Placed depth refusal? WellPlaced)

/-- Causes that only the end of a text gives. -/
inductive Fault.Cause.AtEnd : Fault.Cause → Prop
  | unclosed (count : Nat) : AtEnd (.unclosed count)
  | missing : AtEnd .missing

section Refusal

variable {read : List Placed} {token other : Token} {rest more : List Char} {cause : Fault.Cause}

theorem depth_of_refusal (h : refusal? read token = some cause) : depth read = 0 := by
  by_contra hne
  rw [Token.refusal?_of_depth_ne hne] at h
  cases h

theorem not_atEnd_of_refusal (h : refusal? read token = some cause) : ¬ cause.AtEnd := by
  rintro (⟨count⟩ | ⟨⟩)
  · cases token <;> simp [refusal?] at h
  · cases token <;> simp [refusal?] at h

theorem head?_ne_of_isWord {word : List Char} (h : IsWord word) :
    word.head? ≠ some '(' ∧ word.head? ≠ some ')' := by
  obtain ⟨hne, hinner⟩ := h
  obtain ⟨c, tail, rfl⟩ := List.exists_cons_of_ne_nil hne
  have hc : isInner c = true := hinner c (by simp)
  rw [List.head?_cons]
  constructor
  · rintro ⟨⟩
    exact absurd hc (by decide)
  · rintro ⟨⟩
    exact absurd hc (by decide)

/-- The first character of a token decides where the token can stand. -/
theorem refusal?_of_head? (h : token.WholeBefore rest) (hother : other.WholeBefore more)
    (hsame : other.text.head? = token.text.head?) : refusal? read other = refusal? read token := by
  cases token with
  | opening gap label =>
    cases other with
    | opening => rfl
    | closing => cases hsame
    | word text => exact absurd hsame (head?_ne_of_isWord hother.1).1
  | closing =>
    cases other with
    | opening => cases hsame
    | closing => rfl
    | word text => exact absurd hsame (head?_ne_of_isWord hother.1).2
  | word text =>
    cases other with
    | opening => exact absurd hsame.symm (head?_ne_of_isWord h.1).1
    | closing => exact absurd hsame.symm (head?_ne_of_isWord h.1).2
    | word => rfl

end Refusal

/-- Each token of the text can stand where it is, and so many brackets are open at the end. -/
structure LeavesOpen (text : List Char) (count : Nat) : Prop where
  wellPlaced : WellPlaced (Token.ofText text)
  depth_eq : depth (Token.ofText text) = count
  ne_nil : Token.ofText text ≠ []

section Closing

variable {text : List Char} {count more : Nat}

theorem ofText_append_closing (text : List Char) :
    Token.ofText (text ++ [')']) = Token.ofText text ++ [⟨byteSize text, .closing⟩] := by
  have hlexed := (Token.lexed_iff.mpr (rfl : Token.ofText text = _)).append_closing
  rw [Nat.zero_add] at hlexed
  exact hlexed.ofSigns_eq

theorem LeavesOpen.close (h : LeavesOpen text (count + 1)) :
    LeavesOpen (text ++ [')']) count := by
  have hdepth := h.depth_eq
  have hopen : depth (Token.ofText text) ≠ 0 := by omega
  constructor
  · rw [ofText_append_closing, Token.wellPlaced_concat_iff]
    exact ⟨h.wellPlaced, Token.refusal?_of_depth_ne hopen _⟩
  · rw [ofText_append_closing, Token.depth_append, Token.depth_closing, hdepth]
    omega
  · rw [ofText_append_closing]
    exact List.append_ne_nil_of_right_ne_nil _ (List.cons_ne_nil _ [])

theorem LeavesOpen.closeAll (h : LeavesOpen text (count + more)) :
    LeavesOpen (text ++ List.replicate more ')') count := by
  induction more generalizing count with
  | zero =>
    rw [List.replicate_zero, List.append_nil]
    exact h
  | succ more ih =>
    have hone : LeavesOpen (text ++ List.replicate more ')') (count + 1) := by
      apply ih
      rwa [Nat.add_right_comm]
    rw [List.replicate_succ', ← List.append_assoc]
    exact hone.close

theorem LeavesOpen.parse_eq_error (h : LeavesOpen text count) (hpos : 0 < count) :
    ∃ fault, parse (String.ofList text) = .error fault := by
  refine ⟨_, parse_of_open ?_ ?_ hpos⟩
  · rw [String.toList_ofList]
    exact h.wellPlaced
  · rw [String.toList_ofList]
    exact h.depth_eq

theorem LeavesOpen.exists_parse_eq_ok (h : LeavesOpen text 0) :
    ∃ tree, parse (String.ofList text) = .ok tree := by
  have hdepth := h.depth_eq
  apply Tree.exists_parse_eq_ok
  · rw [String.toList_ofList]
    exact h.wellPlaced
  · rw [String.toList_ofList]
    omega
  · rw [String.toList_ofList]
    exact h.ne_nil

/-- A closing bracket behind a whole tree is a fault. -/
theorem LeavesOpen.parse_append_closing (h : LeavesOpen text 0) :
    parse (String.ofList (text ++ [')'])) = .error ⟨.strayClosing, byteSize text⟩ := by
  have htokens := ofText_append_closing text
  rw [← String.toList_ofList (l := text ++ [')'])] at htokens
  exact parse_of_refusal htokens h.wellPlaced (if_pos h.depth_eq)

theorem leavesOpen_of_parse {text : String} {count offset : Nat}
    (h : parse text = .error ⟨.unclosed count, offset⟩) :
    LeavesOpen text.toList count ∧ 0 < count := by
  have hverdict := verdict_parse text
  rw [h] at hverdict
  cases hverdict with
  | refused htokens hbefore hnext =>
    exact absurd (.unclosed count) (not_atEnd_of_refusal hnext)
  | unclosed hplaced hdepth hpos =>
    refine ⟨⟨hplaced, hdepth, ?_⟩, hpos⟩
    intro hnil
    rw [hnil] at hdepth
    have hzero : (count : Int) = 0 := hdepth.symm
    omega

end Closing

section Continuation

variable {text : String} {read later : List Placed} {next : Placed} {cause : Fault.Cause}
  {fault : Fault}

/-- A token that is out of place stays so whatever follows the text. It may become longer, but it
begins with the same character. -/
theorem parse_append_of_refusal (htokens : Token.ofText text.toList = read ++ next :: later)
    (hread : WellPlaced read) (hnext : refusal? read next.token = some cause) (more : String) :
    parse (text ++ more) = .error ⟨cause, next.offset⟩ := by
  have hlexed := lexed_ofText text
  rw [htokens] at hlexed
  obtain ⟨before, after, rest, htext, -, -, hwhole, hhead, hcontinue⟩ := hlexed.cut
  obtain ⟨c, hfirst, hc⟩ := hwhole.exists_head?
  have hagain : (after ++ more.toList).head? = some c := by
    rw [List.head?_append, hhead, hfirst, Option.some_or]
  obtain ⟨token, final, tail, htail, hfinal, hstart⟩ :=
    Token.exists_lexed_cons next.offset hagain hc
  have hall : Token.ofText (text ++ more).toList = read ++ ⟨next.offset, token⟩ :: tail := by
    have hmore := hcontinue _ _ (hagain.trans (hhead.trans hfirst).symm) htail
    rw [← List.append_assoc, ← htext, ← String.toList_append] at hmore
    exact hmore.ofSigns_eq
  have hsame : refusal? read token = some cause := by
    rw [refusal?_of_head? hwhole hfinal (hstart.trans hfirst.symm), hnext]
  have hfault := parse_of_refusal hall hread hsame
  exact hfault

/-- Tokens that leave no bracket open are a tree, or none was found yet. -/
theorem exists_completion (hlexed : Token.Lexed 0 text.toList read) (hread : WellPlaced read)
    (hdepth : depth read = 0) : ∃ more tree, parse (text ++ more) = .ok tree := by
  by_cases hnone : read = []
  · subst hnone
    have hdocument : Grammar.DocumentText (text.toList ++ (['(', ')'] ++ [])) (.node "" []) :=
      .intro hlexed.isGap (.unlabelled isGap_nil .nil id isGap_nil) isGap_nil
    refine ⟨"()", .node "" [], ?_⟩
    rw [Grammar.parse_eq_ok_iff, String.toList_append]
    exact hdocument
  · have htokens : Token.ofText text.toList = read := hlexed.ofSigns_eq
    rw [← htokens] at hread hdepth hnone
    obtain ⟨tree, htree⟩ := Tree.exists_parse_eq_ok hread (by omega) hnone
    refine ⟨"", tree, ?_⟩
    rwa [String.append_empty]

/-- A fault before the end of the text is final, and what stands before it can be completed. -/
theorem final_of_parse (h : parse text = .error fault) (hcause : ¬ fault.cause.AtEnd) :
    fault.offset < text.utf8ByteSize ∧ (∀ more, parse (text ++ more) = .error fault) ∧
      ∃ before after more tree, text = before ++ after ∧ before.utf8ByteSize = fault.offset ∧
        parse (before ++ more) = .ok tree := by
  have hverdict := verdict_parse text
  rw [h] at hverdict
  cases hverdict with
  | unclosed => exact absurd (.unclosed _) hcause
  | missing => exact absurd .missing hcause
  | @refused read later next cause htokens hread hnext =>
    obtain ⟨before, after, htext, hoffset, hafter, hbefore⟩ := exists_split htokens
    obtain ⟨more, tree, htree⟩ := exists_completion hbefore hread (depth_of_refusal hnext)
    refine ⟨?_, parse_append_of_refusal htokens hread hnext,
      before, after, more, tree, htext, hoffset, htree⟩
    have hpos : after.utf8ByteSize ≠ 0 := by rwa [Ne, String.utf8ByteSize_eq_zero_iff]
    change next.offset < text.utf8ByteSize
    rw [htext, String.utf8ByteSize_append, hoffset]
    omega

/-- An open bracket takes one closing bracket, and one more is a final fault. -/
theorem exists_parse_closed_iff {count offset : Nat}
    (h : parse text = .error ⟨.unclosed count, offset⟩) (closers : Nat) :
    (∃ tree, parse (text ++ String.ofList (List.replicate closers ')')) = .ok tree) ↔
      closers = count := by
  obtain ⟨hopen, -⟩ := leavesOpen_of_parse h
  have htext (n : Nat) : text ++ String.ofList (List.replicate n ')') =
      String.ofList (text.toList ++ List.replicate n ')') := by
    rw [String.ofList_append, String.ofList_toList]
  rw [htext]
  rcases Nat.lt_trichotomy closers count with hless | rfl | hmore
  · obtain ⟨rest, rfl⟩ := Nat.exists_eq_add_of_le' (Nat.le_of_lt hless)
    have hpos : 0 < rest := by omega
    obtain ⟨fault, hfault⟩ := hopen.closeAll.parse_eq_error hpos
    rw [hfault]
    constructor
    · rintro ⟨tree, ⟨⟩⟩
    · intro heq
      omega
  · rw [← Nat.zero_add closers] at hopen
    exact iff_of_true hopen.closeAll.exists_parse_eq_ok rfl
  · obtain ⟨rest, rfl⟩ := Nat.exists_eq_add_of_lt hmore
    rw [← Nat.zero_add count] at hopen
    -- One closing bracket too many is final, so the others behind it change nothing.
    have hstray := hopen.closeAll.parse_append_closing
    have hfinal := (final_of_parse hstray (by rintro ⟨⟩)).2.1
      (String.ofList (List.replicate rest ')'))
    have hsplit : text.toList ++ List.replicate (count + rest + 1) ')' =
        text.toList ++ List.replicate count ')' ++ [')'] ++ List.replicate rest ')' := by
      rw [Nat.add_assoc, ← List.replicate_append_replicate, List.replicate_succ]
      simp
    rw [hsplit, String.ofList_append, hfinal]
    constructor
    · rintro ⟨tree, ⟨⟩⟩
    · intro heq
      omega

theorem isGap_of_parse {offset : Nat} (h : parse text = .error ⟨.missing, offset⟩) :
    IsGap text.toList := by
  have hverdict := verdict_parse text
  rw [h] at hverdict
  cases hverdict with
  | refused htokens hbefore hnext => exact absurd .missing (not_atEnd_of_refusal hnext)
  | missing hnone =>
    have hlexed := lexed_ofText text
    rw [hnone] at hlexed
    exact hlexed.isGap

end Continuation

/-- A fault before the end of a text is final: every continuation has the same fault, and the text
before it could have become a tree. A text that leaves brackets open becomes a tree by as many
closing brackets, and by no other number of them. A text in which a bracket is missing has only
blanks. -/
theorem parse_fault_final_or_completable (text : String) :
    (∀ fault, parse text = .error fault → ¬ fault.cause.AtEnd →
      fault.offset < text.utf8ByteSize ∧ (∀ more, parse (text ++ more) = .error fault) ∧
        ∃ before after more tree, text = before ++ after ∧
          before.utf8ByteSize = fault.offset ∧ parse (before ++ more) = .ok tree) ∧
    (∀ count offset, parse text = .error ⟨.unclosed count, offset⟩ → ∀ closers,
      (∃ tree, parse (text ++ String.ofList (List.replicate closers ')')) = .ok tree) ↔
        closers = count) ∧
    (∀ offset, parse text = .error ⟨.missing, offset⟩ → IsGap text.toList) := by
  refine ⟨?_, ?_, ?_⟩
  · intro fault hfault hcause
    exact final_of_parse hfault hcause
  · intro count offset hunclosed closers
    exact exists_parse_closed_iff hunclosed closers
  · intro offset hmissing
    exact isGap_of_parse hmissing

/-- A word behind a tree, an opening bracket that still waits for its label, and a tab. -/
theorem parse_fault_final_or_completable_open_label :
    (parse "(a) b" = .error ⟨.leafOutside, 4⟩ ∧ parse "(a) bc)" = .error ⟨.leafOutside, 4⟩) ∧
    (parse "(a ( " = .error ⟨.unclosed 2, 5⟩ ∧ (∃ tree, parse "(a ( ))" = .ok tree) ∧
      ¬ ∃ tree, parse "(a ( )))" = .ok tree) ∧
    (parse "\t" = .error ⟨.missing, 1⟩ ∧ IsGap "\t".toList) := by
  have hleaf : parse "(a) b" = .error ⟨.leafOutside, 4⟩ := by decide +kernel
  have hopen : parse "(a ( " = .error ⟨.unclosed 2, 5⟩ := by decide +kernel
  have hblank : parse "\t" = .error ⟨.missing, 1⟩ := by decide +kernel
  obtain ⟨hfinal, -, -⟩ := parse_fault_final_or_completable "(a) b"
  obtain ⟨-, hclosed, -⟩ := parse_fault_final_or_completable "(a ( "
  obtain ⟨-, -, hgap⟩ := parse_fault_final_or_completable "\t"
  refine ⟨⟨hleaf, ?_⟩, ⟨hopen, ?_, ?_⟩, hblank, hgap 1 hblank⟩
  · exact (hfinal _ hleaf (by rintro ⟨⟩)).2.1 "c)"
  · exact (hclosed 2 5 hopen 2).mpr rfl
  · intro hthree
    have hcount := (hclosed 2 5 hopen 3).mp hthree
    omega

end TreeFigure.Tree
