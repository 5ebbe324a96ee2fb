import TreeFigure.Proofs.Text.Runs
import TreeFigure.Tree.Token

/-!
The tokens of a text by rule. `Token.Lexed` says which tokens a text has and where they start,
without saying how they are found: between two tokens there are only blanks, a word is as long as
it can be, and an opening bracket takes the blanks after it and a word that follows them. Every
text has tokens by this rule, and they are the ones that `Token.ofSigns` finds.
-/

namespace TreeFigure

open Text

namespace Sign

theorem ofChar_opening : ofChar '(' = .opening := by decide

theorem ofChar_closing : ofChar ')' = .closing := by decide

theorem ofChar_of_isBlank {c : Char} (h : Text.isBlank c = true) : ofChar c = .blank c := by
  have hopening : c ≠ '(' := by rintro rfl; exact absurd h (by decide)
  have hclosing : c ≠ ')' := by rintro rfl; exact absurd h (by decide)
  simp [ofChar, hopening, hclosing, h]

theorem ofChar_of_isInner {c : Char} (h : isInner c = true) : ofChar c = .piece [c] := by
  simp only [isInner, Bool.and_eq_true, Bool.not_eq_true', bne_iff_ne] at h
  simp [ofChar, h.1.1, h.1.2, h.2]

theorem isBlank_comp_ofChar : Sign.isBlank ∘ ofChar = Text.isBlank := by
  funext c
  cases hblank : Text.isBlank c with
  | true => simp [ofChar_of_isBlank hblank, Sign.isBlank]
  | false =>
    simp only [Function.comp, ofChar, hblank]
    split
    · rfl
    · split <;> rfl

theorem isPiece_comp_ofChar : Sign.isPiece ∘ ofChar = isInner := by
  funext c
  simp only [Function.comp, ofChar, isInner]
  split
  case isTrue h => simp [h, isPiece]
  case isFalse hopening =>
    split
    case isTrue h => simp [h, isPiece]
    case isFalse hclosing =>
      split
      case isTrue h => simp [h, isPiece]
      case isFalse h => simp [h, hopening, hclosing, isPiece]

theorem sizes_scan (text : List Char) : sizes (scan text) = byteSize text := by
  rw [sizes_eq_byteSize, texts_scan]

theorem takeWhile_isBlank_scan (text : List Char) :
    (scan text).takeWhile Sign.isBlank = scan (text.takeWhile Text.isBlank) := by
  rw [scan, List.takeWhile_map, isBlank_comp_ofChar, scan]

theorem dropWhile_isBlank_scan (text : List Char) :
    (scan text).dropWhile Sign.isBlank = scan (text.dropWhile Text.isBlank) := by
  rw [scan, List.dropWhile_map, isBlank_comp_ofChar, scan]

theorem takeWhile_isPiece_scan (text : List Char) :
    (scan text).takeWhile isPiece = scan (text.takeWhile isInner) := by
  rw [scan, List.takeWhile_map, isPiece_comp_ofChar, scan]

theorem dropWhile_isPiece_scan (text : List Char) :
    (scan text).dropWhile isPiece = scan (text.dropWhile isInner) := by
  rw [scan, List.dropWhile_map, isPiece_comp_ofChar, scan]

end Sign

namespace Token

/-! One equation for each sign that a text can start with. -/

theorem ofSigns_scan_gap (offset : Nat) {gap : List Char} (hgap : IsGap gap) (rest : List Char) :
    ofSigns offset (Sign.scan (gap ++ rest)) =
      ofSigns (offset + byteSize gap) (Sign.scan rest) := by
  induction gap generalizing offset with
  | nil => rfl
  | cons c gap ih =>
    have hc : isBlank c = true := hgap c (by simp)
    have hstep : ofSigns offset (Sign.scan (c :: (gap ++ rest))) =
        ofSigns (offset + Sign.size (.blank c)) (Sign.scan (gap ++ rest)) := by
      rw [Sign.scan, List.map_cons, Sign.ofChar_of_isBlank hc, ofSigns]
      rfl
    rw [List.cons_append, hstep, ih _ (fun d hd => hgap d (by simp [hd]))]
    simp [Sign.size, Sign.text, byteSize, Nat.add_assoc]

theorem ofSigns_scan_closing (offset : Nat) (rest : List Char) :
    ofSigns offset (Sign.scan (')' :: rest)) =
      ⟨offset, .closing⟩ :: ofSigns (offset + 1) (Sign.scan rest) := by
  rw [Sign.scan, List.map_cons, Sign.ofChar_closing, ofSigns]
  rfl

theorem ofSigns_scan_word (offset : Nat) {word rest : List Char} (hword : IsWord word)
    (hrest : ¬ Begins isInner rest) :
    ofSigns offset (Sign.scan (word ++ rest)) =
      ⟨offset, .word word⟩ :: ofSigns (offset + byteSize word) (Sign.scan rest) := by
  obtain ⟨hne, hinner⟩ := hword
  cases word with
  | nil => exact absurd rfl hne
  | cons c tail =>
    have hc : isInner c = true := hinner c (by simp)
    have htail : ∀ d ∈ tail, isInner d = true := fun d hd => hinner d (by simp [hd])
    have hscan : Sign.scan (c :: tail ++ rest) = .piece [c] :: Sign.scan (tail ++ rest) := by
      rw [← Sign.ofChar_of_isInner hc]
      rfl
    rw [hscan, ofSigns, Sign.takeWhile_isPiece_scan, Sign.dropWhile_isPiece_scan,
      takeWhile_run htail hrest, dropWhile_run htail hrest, Sign.texts_scan]
    rfl

theorem ofSigns_scan_opening (offset : Nat) {gap label rest : List Char} (hgap : IsGap gap)
    (hlabel : ∀ c ∈ label, isInner c = true) (hrest : ¬ Begins isInner rest)
    (hblank : label = [] → ¬ Begins isBlank rest) :
    ofSigns offset (Sign.scan ('(' :: (gap ++ (label ++ rest)))) =
      ⟨offset, .opening gap label⟩ ::
        ofSigns (offset + 1 + byteSize gap + byteSize label) (Sign.scan rest) := by
  have hscan : Sign.scan ('(' :: (gap ++ (label ++ rest))) =
      .opening :: Sign.scan (gap ++ (label ++ rest)) := by
    rw [← Sign.ofChar_opening]
    rfl
  have hinner : ¬ Begins isBlank (label ++ rest) := by
    cases label with
    | nil => exact hblank rfl
    | cons c tail =>
      intro h
      have hc : isInner c = true := hlabel c (by simp)
      rw [isInner_eq_false_of_isBlank (by simpa using h)] at hc
      exact absurd hc (by simp)
  rw [hscan, ofSigns]
  simp only [Sign.takeWhile_isBlank_scan, Sign.dropWhile_isBlank_scan,
    Sign.takeWhile_isPiece_scan, Sign.dropWhile_isPiece_scan, takeWhile_run hgap hinner,
    dropWhile_run hgap hinner, takeWhile_run hlabel hrest, dropWhile_run hlabel hrest,
    Sign.texts_scan, Sign.sizes_scan]

/-- The token is as long as it can be where this text follows it. The label of an opening bracket
is a word or nothing. -/
def WholeBefore (rest : List Char) : Token → Prop
  | .opening gap label =>
    IsGap gap ∧ (∀ c ∈ label, isInner c = true) ∧ ¬ Begins isInner rest ∧
      (label = [] → ¬ Begins isBlank rest)
  | .closing => True
  | .word text => IsWord text ∧ ¬ Begins isInner rest

theorem ofSigns_scan_token (offset : Nat) {token : Token} {rest : List Char}
    (h : token.WholeBefore rest) :
    ofSigns offset (Sign.scan (token.text ++ rest)) =
      ⟨offset, token⟩ :: ofSigns (offset + byteSize token.text) (Sign.scan rest) := by
  cases token with
  | opening gap label =>
    obtain ⟨hgap, hlabel, hrest, hblank⟩ := h
    have hsize : byteSize (Token.opening gap label).text =
        1 + byteSize gap + byteSize label := by
      rw [text, byteSize_append]
      rfl
    have hstart := ofSigns_scan_opening offset hgap hlabel hrest hblank
    rw [hsize, ← Nat.add_assoc, ← Nat.add_assoc, ← hstart, text]
    simp
  | closing => exact ofSigns_scan_closing offset rest
  | word text =>
    obtain ⟨hword, hrest⟩ := h
    exact ofSigns_scan_word offset hword hrest

/-- A text that starts at this byte offset has these tokens. -/
inductive Lexed : Nat → List Char → List Placed → Prop
  | done {offset : Nat} {gap : List Char} (hgap : IsGap gap) : Lexed offset gap []
  | token {offset : Nat} {gap rest : List Char} {token : Token} {placed : List Placed}
      (hgap : IsGap gap) (hwhole : token.WholeBefore rest)
      (tail : Lexed (offset + byteSize gap + byteSize token.text) rest placed) :
      Lexed offset (gap ++ (token.text ++ rest)) (⟨offset + byteSize gap, token⟩ :: placed)

/-- The tokens by rule are the tokens that are found. -/
theorem Lexed.ofSigns_eq {offset : Nat} {text : List Char} {placed : List Placed}
    (h : Lexed offset text placed) : ofSigns offset (Sign.scan text) = placed := by
  induction h with
  | @done offset gap hgap =>
    have hend := ofSigns_scan_gap offset hgap []
    rw [List.append_nil] at hend
    rw [hend, Sign.scan, List.map_nil, ofSigns]
  | token hgap hwhole _ ih => rw [ofSigns_scan_gap _ hgap, ofSigns_scan_token _ hwhole, ih]

/-- Blanks before a text move its tokens. -/
theorem Lexed.gap_append {offset : Nat} {gap text : List Char} {placed : List Placed}
    (hgap : IsGap gap) (h : Lexed (offset + byteSize gap) text placed) :
    Lexed offset (gap ++ text) placed := by
  generalize hmoved : offset + byteSize gap = moved at h
  cases h with
  | done hrest => exact .done (hgap.append hrest)
  | @token _ next rest token placed hnext hwhole tail =>
    have hsize : moved + byteSize next = offset + byteSize (gap ++ next) := by
      rw [byteSize_append]
      omega
    rw [hsize] at tail ⊢
    rw [← List.append_assoc]
    exact .token (hgap.append hnext) hwhole tail

/-- A text that does not start with a blank is empty or starts with a token. -/
theorem exists_wholeBefore {text : List Char} (hne : text ≠ []) (hstart : ¬ Begins isBlank text) :
    ∃ (token : Token) (rest : List Char), text = token.text ++ rest ∧ token.WholeBefore rest ∧
      rest.length < text.length := by
  obtain ⟨c, tail, rfl⟩ := List.exists_cons_of_ne_nil hne
  have hc : isBlank c = false := by simpa using hstart
  by_cases hopening : c = '('
  · subst hopening
    let after := tail.dropWhile isBlank
    refine ⟨.opening (tail.takeWhile isBlank) (after.takeWhile isInner),
      after.dropWhile isInner, ?_, ⟨forall_mem_takeWhile tail, forall_mem_takeWhile after,
        not_begins_dropWhile after, ?_⟩, ?_⟩
    · simp [text, after]
    · intro hlabel
      have hsame : after.dropWhile isInner = after := by
        have hsplit := List.takeWhile_append_dropWhile (p := isInner) (l := after)
        rwa [hlabel, List.nil_append] at hsplit
      rw [hsame]
      exact not_begins_dropWhile tail
    · have hdrop := (List.dropWhile_suffix isInner (l := after)).length_le
      have hskip : after.length ≤ tail.length :=
        (List.dropWhile_suffix isBlank (l := tail)).length_le
      simp only [List.length_cons]
      omega
  by_cases hclosing : c = ')'
  · subst hclosing
    exact ⟨.closing, tail, rfl, trivial, by simp⟩
  · have hinner : isInner c = true := by simp [isInner, hc, hopening, hclosing]
    refine ⟨.word (c :: tail.takeWhile isInner), tail.dropWhile isInner, ?_,
      ⟨⟨by simp, ?_⟩, not_begins_dropWhile tail⟩, ?_⟩
    · simp [text]
    · intro d hd
      rcases List.mem_cons.mp hd with rfl | hd
      · exact hinner
      · exact forall_mem_takeWhile tail d hd
    · have hdrop := (List.dropWhile_suffix isInner (l := tail)).length_le
      simp only [List.length_cons]
      omega

theorem exists_lexed (offset : Nat) (text : List Char) :
    ∃ placed, Lexed offset text placed := by
  induction hlength : text.length using Nat.strongRecOn generalizing offset text with
  | ind length ih =>
    have hsplit := List.takeWhile_append_dropWhile (p := isBlank) (l := text)
    have hgap : IsGap (text.takeWhile isBlank) := forall_mem_takeWhile text
    by_cases hend : text.dropWhile isBlank = []
    · rw [hend, List.append_nil] at hsplit
      exact ⟨[], hsplit ▸ .done hgap⟩
    · obtain ⟨token, rest, htext, hwhole, hshort⟩ :=
        exists_wholeBefore hend (not_begins_dropWhile text)
      have hskip := (List.dropWhile_suffix isBlank (l := text)).length_le
      obtain ⟨placed, htail⟩ := ih rest.length (by omega) (offset +
        byteSize (text.takeWhile isBlank) + byteSize token.text) rest rfl
      have hlexed := Lexed.token hgap hwhole htail
      rw [← htext, hsplit] at hlexed
      exact ⟨_, hlexed⟩

/-- A text has the tokens that are found and no others. -/
theorem lexed_iff {offset : Nat} {text : List Char} {placed : List Placed} :
    Lexed offset text placed ↔ ofSigns offset (Sign.scan text) = placed := by
  constructor
  · exact Lexed.ofSigns_eq
  · intro h
    obtain ⟨found, hfound⟩ := exists_lexed offset text
    rwa [← h, hfound.ofSigns_eq]

end Token

end TreeFigure
