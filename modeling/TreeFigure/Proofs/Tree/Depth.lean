import Mathlib.Data.List.Induction
import TreeFigure.Proofs.Tree.Seams
import TreeFigure.Proofs.Tree.Syntax

/-!
Why a text is no tree. The depth of a token is counted from the tokens before it: opening brackets
minus closing brackets. Only at depth zero a token can be out of place, and reading stops at the
first one that is. A reader keeps no count, but its open brackets and its finished tree agree with
the depth after every token.
-/

namespace TreeFigure

open Text

theorem Text.utf8ByteSize_ofList (text : List Char) :
    (String.ofList text).utf8ByteSize = byteSize text := by
  induction text with
  | nil => rfl
  | cons c rest ih =>
    rw [String.ofList_cons, String.utf8ByteSize_append, String.utf8ByteSize_singleton, ih]
    rfl

theorem Text.byteSize_toList (text : String) : byteSize text.toList = text.utf8ByteSize := by
  rw [← utf8ByteSize_ofList, String.ofList_toList]

namespace Token

def isOpening : Token → Bool
  | .opening _ _ => true
  | _ => false

def isClosing : Token → Bool
  | .closing => true
  | _ => false

/-- Opening brackets minus closing brackets. -/
def depth (read : List Placed) : Int :=
  (read.countP (·.token.isOpening) : Int) - read.countP (·.token.isClosing)

/-- Why this token cannot stand after these. No bracket is open then, and an opening bracket can
still be the first token. -/
def refusal? (read : List Placed) (token : Token) : Option Tree.Fault.Cause :=
  if depth read = 0 then
    match token with
    | .closing => some .strayClosing
    | .word _ => some .leafOutside
    | .opening _ _ => if read.isEmpty then none else some .secondTree
  else none

theorem refusal?_of_depth_ne {read : List Placed} (h : depth read ≠ 0) (token : Token) :
    refusal? read token = none :=
  if_neg h

/-- Each of these tokens can stand after those before it. -/
def WellPlaced (placed : List Placed) : Prop :=
  ∀ before next after, placed = before ++ next :: after → refusal? before next.token = none

theorem wellPlaced_iff {placed : List Placed} :
    WellPlaced placed ↔ ∀ index, (h : index < placed.length) →
      refusal? (placed.take index) placed[index].token = none := by
  constructor
  · intro hplaced index h
    apply hplaced _ _ (placed.drop (index + 1))
    rw [← List.drop_eq_getElem_cons h, List.take_append_drop]
  · rintro hplaced before next after rfl
    have hnext := hplaced before.length (by simp)
    simpa using hnext

instance (placed : List Placed) : Decidable (WellPlaced placed) :=
  decidable_of_iff _ wellPlaced_iff.symm

theorem depth_append (left right : List Placed) :
    depth (left ++ right) = depth left + depth right := by
  simp only [depth, List.countP_append]
  omega

theorem depth_opening (offset : Nat) (gap label : List Char) :
    depth [⟨offset, .opening gap label⟩] = 1 := rfl

theorem depth_closing (offset : Nat) : depth [⟨offset, .closing⟩] = -1 := rfl

theorem depth_word (offset : Nat) (text : List Char) : depth [⟨offset, .word text⟩] = 0 := rfl

theorem wellPlaced_nil : WellPlaced [] := by
  intro before next after hsplit
  exact absurd hsplit (by simp)

theorem wellPlaced_concat_iff {read : List Placed} {last : Placed} :
    WellPlaced (read ++ [last]) ↔ WellPlaced read ∧ refusal? read last.token = none := by
  constructor
  · intro h
    refine ⟨?_, h read last [] rfl⟩
    rintro before next after rfl
    exact h before next (after ++ [last]) (by simp)
  · rintro ⟨hread, hlast⟩ before next after hsplit
    rcases List.eq_nil_or_concat after with rfl | ⟨rest, final, rfl⟩
    · obtain ⟨rfl, hsame⟩ := List.append_inj' hsplit rfl
      rwa [← (List.cons_eq_cons.mp hsame).1]
    · have hshort : read ++ [last] = (before ++ next :: rest) ++ [final] := by simpa using hsplit
      exact hread before next rest (List.append_inj' hshort rfl).1

/-- Tokens of which one is out of place have a first one. -/
theorem exists_refusal {placed : List Placed} (h : ¬ WellPlaced placed) :
    ∃ before next after cause, placed = before ++ next :: after ∧ WellPlaced before ∧
      refusal? before next.token = some cause := by
  induction placed using List.reverseRecOn with
  | nil => exact absurd wellPlaced_nil h
  | append_singleton read last ih =>
    by_cases hread : WellPlaced read
    · have hlast : refusal? read last.token ≠ none :=
        fun hnone => h (wellPlaced_concat_iff.mpr ⟨hread, hnone⟩)
      obtain ⟨cause, hcause⟩ := Option.ne_none_iff_exists'.mp hlast
      exact ⟨read, last, [], cause, rfl, hread, hcause⟩
    · obtain ⟨before, next, after, cause, rfl, hbefore, hcause⟩ := ih hread
      exact ⟨before, next, after ++ [last], cause, by simp, hbefore, hcause⟩

end Token

namespace Tree

open Token (Placed depth refusal? WellPlaced)

/-- What the progress after these tokens tells about them: their depth is the number of open
brackets, and a tree is finished once there were tokens and no bracket is open. -/
structure Tallied (read : List Placed) (progress : Progress) : Prop where
  depth_eq : depth read = progress.frames.length
  isSome_done_iff : progress.done.isSome = true ↔ progress.frames = [] ∧ read ≠ []

section Step

variable {read placed : List Placed} {progress next : Progress}

theorem tallied_start : Tallied [] Progress.start where
  depth_eq := rfl
  isSome_done_iff := by simp [Progress.start]

/-- A step fails exactly if its token cannot stand there. -/
theorem Tallied.step_eq_error_iff (h : Tallied read progress) (token : Token)
    (cause : Fault.Cause) :
    progress.step token = .error cause ↔ refusal? read token = some cause := by
  obtain ⟨frames, done⟩ := progress
  obtain ⟨hdepth, hdone⟩ := h
  cases frames with
  | nil =>
    have hzero : depth read = 0 := hdepth
    cases token with
    | closing => simp [Progress.step, refusal?, hzero]
    | word text => simp [Progress.step, refusal?, hzero]
    | opening gap label =>
      cases done with
      | none =>
        have hread : read = [] := by simpa using hdone
        simp [Progress.step, refusal?, hread]
      | some tree =>
        have hread : read ≠ [] := by simpa using hdone
        simp [Progress.step, refusal?, hzero, hread]
  | cons frame outer =>
    have hopen : depth read ≠ 0 := by
      simp only [List.length_cons] at hdepth
      omega
    have hnone : done = none := by simpa using hdone
    subst hnone
    rw [Token.refusal?_of_depth_ne hopen]
    cases token with
    | closing => simp [Progress.step_closing]
    | word text => simp [Progress.step]
    | opening gap label => simp [Progress.step]

theorem Tallied.step {last : Placed} (h : Tallied read progress)
    (hstep : progress.step last.token = .ok next) : Tallied (read ++ [last]) next := by
  obtain ⟨frames, done⟩ := progress
  obtain ⟨hdepth, hdone⟩ := h
  obtain ⟨offset, token⟩ := last
  cases token with
  | opening gap label =>
    cases done with
    | some tree => simp [Progress.step] at hstep
    | none =>
      obtain rfl := Except.ok.inj hstep
      constructor
      · rw [Token.depth_append, Token.depth_opening, hdepth]
        simp
      · simp
  | word text =>
    cases frames with
    | nil => simp [Progress.step] at hstep
    | cons frame outer =>
      obtain rfl := Except.ok.inj hstep
      constructor
      · rw [Token.depth_append, Token.depth_word, hdepth]
        simp
      · have hnone : done = none := by simpa using hdone
        simp [hnone]
  | closing =>
    cases frames with
    | nil => simp [Progress.step] at hstep
    | cons frame outer =>
      have hnone : done = none := by simpa using hdone
      subst hnone
      rw [Progress.step_closing] at hstep
      obtain rfl := Except.ok.inj hstep
      cases outer with
      | nil =>
        constructor
        · rw [Token.depth_append, Token.depth_closing, hdepth]
          simp [Progress.after]
        · simp [Progress.after]
      | cons enclosing rest =>
        constructor
        · rw [Token.depth_append, Token.depth_closing, hdepth]
          simp only [Progress.after, List.length_cons]
          omega
        · simp [Progress.after]

theorem Progress.run_append (progress : Progress) (left right : List Placed) :
    progress.run (left ++ right) = progress.run left >>= fun next => next.run right := by
  induction left generalizing progress with
  | nil => rfl
  | cons first rest ih =>
    rw [List.cons_append, Progress.run, Progress.run]
    cases progress.step first.token with
    | error cause => rfl
    | ok next => exact ih next

/-- Well-placed tokens are read to their end. -/
theorem exists_run_of_wellPlaced (h : WellPlaced placed) :
    ∃ progress, Progress.start.run placed = .ok progress ∧ Tallied placed progress := by
  induction placed using List.reverseRecOn with
  | nil => exact ⟨Progress.start, rfl, tallied_start⟩
  | append_singleton read last ih =>
    obtain ⟨hread, hlast⟩ := Token.wellPlaced_concat_iff.mp h
    obtain ⟨progress, hrun, htally⟩ := ih hread
    cases hstep : progress.step last.token with
    | error cause =>
      have hcause := (htally.step_eq_error_iff last.token cause).mp hstep
      exact absurd (hlast.symm.trans hcause) (by simp)
    | ok next =>
      refine ⟨next, ?_, htally.step hstep⟩
      rw [Progress.run_append, hrun]
      change progress.run [last] = .ok next
      rw [Progress.run, hstep]
      rfl

/-- Reading stops at the first token that is out of place. -/
theorem run_of_refusal {before after : List Placed} {last : Placed} {cause : Fault.Cause}
    (hbefore : WellPlaced before) (hlast : refusal? before last.token = some cause) :
    Progress.start.run (before ++ last :: after) = .error ⟨cause, last.offset⟩ := by
  obtain ⟨progress, hrun, htally⟩ := exists_run_of_wellPlaced hbefore
  have hstep := (htally.step_eq_error_iff last.token cause).mpr hlast
  rw [Progress.run_append, hrun]
  change progress.run (last :: after) = _
  rw [Progress.run, hstep]

end Step

section Parse

variable {text : String}

theorem parse_eq_bind (text : String) :
    parse text = Progress.start.run (Token.ofText text.toList) >>= fun progress =>
      progress.finish text.utf8ByteSize := by
  rw [← byteSize_toList, ← Sign.sizes_scan]
  rfl

theorem parse_of_refusal {before after : List Placed} {next : Placed} {cause : Fault.Cause}
    (htokens : Token.ofText text.toList = before ++ next :: after) (hbefore : WellPlaced before)
    (hnext : refusal? before next.token = some cause) :
    parse text = .error ⟨cause, next.offset⟩ := by
  rw [parse_eq_bind, htokens, run_of_refusal hbefore hnext]
  rfl

theorem parse_of_open {count : Nat} (h : WellPlaced (Token.ofText text.toList))
    (hdepth : depth (Token.ofText text.toList) = count) (hpos : 0 < count) :
    parse text = .error ⟨.unclosed count, text.utf8ByteSize⟩ := by
  obtain ⟨progress, hrun, htally⟩ := exists_run_of_wellPlaced h
  have hcount : progress.frames.length = count := by
    have hframes := htally.depth_eq
    omega
  have hopen : progress.frames.isEmpty = false := by
    rw [List.isEmpty_eq_false_iff, ← List.length_pos_iff]
    omega
  rw [parse_eq_bind, hrun]
  change progress.finish _ = _
  rw [Progress.finish, hopen, hcount]
  rfl

theorem parse_of_no_tokens (h : Token.ofText text.toList = []) :
    parse text = .error ⟨.missing, text.utf8ByteSize⟩ := by
  rw [parse_eq_bind, h]
  rfl

theorem exists_parse_eq_ok (h : WellPlaced (Token.ofText text.toList))
    (hdepth : ¬ 0 < depth (Token.ofText text.toList)) (hne : Token.ofText text.toList ≠ []) :
    ∃ tree, parse text = .ok tree := by
  obtain ⟨⟨frames, done⟩, hrun, hframes, hdone⟩ := exists_run_of_wellPlaced h
  have hnil : frames = [] := by
    rw [← List.length_eq_zero_iff]
    dsimp only at hframes
    omega
  obtain ⟨tree, rfl⟩ := Option.isSome_iff_exists.mp (hdone.mpr ⟨hnil, hne⟩)
  refine ⟨tree, ?_⟩
  rw [parse_eq_bind, hrun, hnil]
  rfl

/-- Every way in which reading a text can end. -/
inductive Verdict (text : String) : Except Fault Tree → Prop
  | refused {before after : List Placed} {next : Placed} {cause : Fault.Cause}
      (htokens : Token.ofText text.toList = before ++ next :: after)
      (hbefore : WellPlaced before) (hnext : refusal? before next.token = some cause) :
      Verdict text (.error ⟨cause, next.offset⟩)
  | unclosed {count : Nat} (hplaced : WellPlaced (Token.ofText text.toList))
      (hdepth : depth (Token.ofText text.toList) = count) (hpos : 0 < count) :
      Verdict text (.error ⟨.unclosed count, text.utf8ByteSize⟩)
  | missing (hnone : Token.ofText text.toList = []) :
      Verdict text (.error ⟨.missing, text.utf8ByteSize⟩)
  | read {tree : Tree} (hplaced : WellPlaced (Token.ofText text.toList))
      (hdepth : ¬ 0 < depth (Token.ofText text.toList)) (hsome : Token.ofText text.toList ≠ []) :
      Verdict text (.ok tree)

theorem verdict_parse (text : String) : Verdict text (parse text) := by
  by_cases hplaced : WellPlaced (Token.ofText text.toList)
  · by_cases hdepth : 0 < depth (Token.ofText text.toList)
    · obtain ⟨count, hcount⟩ := Int.eq_ofNat_of_zero_le (Int.le_of_lt hdepth)
      have hpos : 0 < count := by omega
      rw [parse_of_open hplaced hcount hpos]
      exact .unclosed hplaced hcount hpos
    · by_cases hnone : Token.ofText text.toList = []
      · rw [parse_of_no_tokens hnone]
        exact .missing hnone
      · obtain ⟨tree, htree⟩ := exists_parse_eq_ok hplaced hdepth hnone
        rw [htree]
        exact .read hplaced hdepth hnone
  · obtain ⟨before, next, after, cause, htokens, hbefore, hnext⟩ :=
      Token.exists_refusal hplaced
    rw [parse_of_refusal htokens hbefore hnext]
    exact .refused htokens hbefore hnext

theorem lexed_ofText (text : String) : Token.Lexed 0 text.toList (Token.ofText text.toList) :=
  Token.lexed_iff.mpr rfl

/-- The text in front of a token, with the tokens before it. -/
theorem exists_split {left right : List Placed} {next : Placed}
    (htokens : Token.ofText text.toList = left ++ next :: right) :
    ∃ before after, text = before ++ after ∧ before.utf8ByteSize = next.offset ∧ after ≠ "" ∧
      Token.Lexed 0 before.toList left := by
  have hlexed := lexed_ofText text
  rw [htokens] at hlexed
  obtain ⟨before, after, rest, htext, hoffset, hbefore, hwhole, hhead, -⟩ := hlexed.cut
  refine ⟨String.ofList before, String.ofList after, ?_, ?_, ?_, ?_⟩
  · rw [← String.ofList_append, ← htext, String.ofList_toList]
  · rw [utf8ByteSize_ofList, hoffset, Nat.zero_add]
  · intro hempty
    obtain ⟨c, hfirst, -⟩ := hwhole.exists_head?
    rw [hfirst, String.ofList_eq_empty_iff.mp hempty] at hhead
    cases hhead
  · rwa [String.toList_ofList]

/-- A fault lies between two characters. -/
theorem isValid_offset_of_parse {fault : Fault} (h : parse text = .error fault) :
    String.Pos.Raw.IsValid text ⟨fault.offset⟩ := by
  have hend : String.Pos.Raw.IsValid text ⟨text.utf8ByteSize⟩ :=
    String.Pos.Raw.isValid_iff_exists_append.mpr ⟨text, "", by simp, rfl⟩
  have hverdict := verdict_parse text
  rw [h] at hverdict
  cases hverdict with
  | unclosed => exact hend
  | missing => exact hend
  | @refused left right next cause htokens hleft hnext =>
    obtain ⟨before, after, htext, hoffset, -⟩ := exists_split htokens
    exact String.Pos.Raw.isValid_iff_exists_append.mpr
      ⟨before, after, htext, String.Pos.Raw.ext hoffset.symm⟩

end Parse

/-- Reading fails at the first token that is out of place: a closing bracket or a word outside all
brackets, or an opening bracket after a whole tree. If there is none it fails at the end of the
text, where as many brackets are missing as the text leaves open, or where no token was found.
Otherwise it succeeds. -/
theorem parse_reports_first_fault (text : String) :
    let tokens := Token.ofText text.toList
    Token.Lexed 0 text.toList tokens ∧
    (¬ WellPlaced tokens → ∃ before next after cause, tokens = before ++ next :: after ∧
      WellPlaced before ∧ refusal? before next.token = some cause) ∧
    (∀ before next after cause, tokens = before ++ next :: after → WellPlaced before →
      refusal? before next.token = some cause → parse text = .error ⟨cause, next.offset⟩) ∧
    (WellPlaced tokens →
      (∀ count : Nat, depth tokens = count → 0 < count →
        parse text = .error ⟨.unclosed count, text.utf8ByteSize⟩) ∧
      (¬ 0 < depth tokens →
        (tokens = [] → parse text = .error ⟨.missing, text.utf8ByteSize⟩) ∧
        (tokens ≠ [] → ∃ tree, parse text = .ok tree))) ∧
    (∀ fault, parse text = .error fault → String.Pos.Raw.IsValid text ⟨fault.offset⟩) ∧
    Fault.Cause.strayClosing.message = "unexpected ')'" ∧
    Fault.Cause.leafOutside.message = "expected '(' before leaf" ∧
    Fault.Cause.secondTree.message = "expected end of input" ∧
    (∀ count, (Fault.Cause.unclosed count).message =
      "expected ')' (" ++ toString count ++ " bracket(s) left open)") ∧
    Fault.Cause.missing.message = "expected '('" := by
  intro tokens
  refine ⟨lexed_ofText text, Token.exists_refusal, ?_, ?_, ?_, rfl, rfl, rfl, fun _ => rfl, rfl⟩
  · intro before next after cause htokens hbefore hnext
    exact parse_of_refusal htokens hbefore hnext
  · intro hplaced
    refine ⟨fun count hdepth hpos => parse_of_open hplaced hdepth hpos, ?_⟩
    intro hdepth
    exact ⟨parse_of_no_tokens, exists_parse_eq_ok hplaced hdepth⟩
  · intro fault hfault
    exact isValid_offset_of_parse hfault

/-- The closing bracket is the first of two faults; in the second text two brackets stay open, and
the third one has only blanks. -/
theorem parse_reports_first_fault_two_faults :
    (¬ WellPlaced (Token.ofText "(é a) ) b".toList) ∧
      parse "(é a) ) b" = .error ⟨.strayClosing, 7⟩) ∧
    (WellPlaced (Token.ofText "((é".toList) ∧ parse "((é" = .error ⟨.unclosed 2, 4⟩) ∧
    (WellPlaced (Token.ofText "\t".toList) ∧ parse "\t" = .error ⟨.missing, 1⟩) ∧
    (WellPlaced (Token.ofText "( a)".toList) ∧ ∃ tree, parse "( a)" = .ok tree) := by
  have hfirst : Token.ofText "(é a) ) b".toList =
      [⟨0, .opening [] ['é']⟩, ⟨4, .word ['a']⟩, ⟨5, .closing⟩] ++
        ⟨7, .closing⟩ :: [⟨9, .word ['b']⟩] := by decide +kernel
  have hopen : Token.ofText "((é".toList =
      [⟨0, .opening [] []⟩, ⟨1, .opening [] ['é']⟩] := by decide +kernel
  have hnone : Token.ofText "\t".toList = [] := by decide +kernel
  have hread : Token.ofText "( a)".toList = [⟨0, .opening [' '] ['a']⟩, ⟨3, .closing⟩] := by
    decide +kernel
  obtain ⟨-, -, hrefused, -⟩ := parse_reports_first_fault "(é a) ) b"
  obtain ⟨-, -, -, hunclosed, -⟩ := parse_reports_first_fault "((é"
  obtain ⟨-, -, -, hmissing, -⟩ := parse_reports_first_fault "\t"
  obtain ⟨-, -, -, hparsed, -⟩ := parse_reports_first_fault "( a)"
  rw [hopen] at hunclosed
  rw [hnone] at hmissing
  rw [hread] at hparsed
  refine ⟨⟨?_, ?_⟩, ⟨?_, ?_⟩, ⟨?_, ?_⟩, ⟨?_, ?_⟩⟩
  · rw [hfirst]
    decide
  · exact hrefused _ ⟨7, .closing⟩ _ .strayClosing hfirst (by decide) (by decide)
  · rw [hopen]
    decide
  · exact (hunclosed (by decide)).1 2 (by decide) (by decide)
  · rw [hnone]
    decide
  · exact ((hmissing (by decide)).2 (by decide)).1 rfl
  · rw [hread]
    decide
  · exact ((hparsed (by decide)).2 (by decide)).2 (by decide)

end Tree

end TreeFigure
