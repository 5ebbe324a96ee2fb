import Mathlib.Data.List.Infix
import TreeFigure.Proofs.Literal.Hiding
import TreeFigure.Proofs.Tree.Renaming
import TreeFigure.Proofs.Tree.Texts

/-!
Reading a text whose bracket literals are words, in one pass. The reader scans the text once, takes
a bracket before an underscore as a piece of a word, and never sees a placeholder. Hiding the
literals, reading, and showing them again gives the same tree, or the same fault. Only the offset
of a fault differs: a placeholder is one byte longer than its literal, and the fault is reported
in the hidden text.
-/

namespace TreeFigure

open Text LiteralTable

/-- The signs of a text in which a bracket before an underscore is a piece of a word. -/
def Sign.scanLiterals : List Char → List Sign
  | [] => []
  | '(' :: '_' :: rest => .piece ['(', '_'] :: scanLiterals rest
  | ')' :: '_' :: rest => .piece [')', '_'] :: scanLiterals rest
  | c :: rest => .ofChar c :: scanLiterals rest

/-- Reads one tree from a text in which literals are no brackets, without hiding them. -/
def Tree.parseLiterals (text : String) : Except Tree.Fault Tree :=
  ofSigns? (Sign.scanLiterals text.toList)

namespace LiteralTable

def EndsInLiteral (text : List Char) : Bool :=
  ['(', '_'].isSuffixOf text || [')', '_'].isSuffixOf text

/-- Number of literals that lie before a byte offset as a whole: each of them ends a beginning of
the text that is no longer. -/
def literalsBefore (offset : Nat) (text : List Char) : Nat :=
  text.inits.countP fun before => decide (byteSize before ≤ offset) && EndsInLiteral before

theorem endsInLiteral_iff {text : List Char} :
    EndsInLiteral text = true ↔ ['(', '_'] <:+ text ∨ [')', '_'] <:+ text := by
  simp [EndsInLiteral]

theorem endsInLiteral_nil : EndsInLiteral [] = false := by decide

theorem endsInLiteral_cons (c : Char) (text : List Char) :
    EndsInLiteral (c :: text) = true ↔
      ((c = '(' ∨ c = ')') ∧ text = ['_']) ∨ EndsInLiteral text = true := by
  simp only [endsInLiteral_iff, List.suffix_cons_iff, List.cons.injEq]
  constructor
  · rintro ((⟨rfl, rfl⟩ | h) | (⟨rfl, rfl⟩ | h))
    · exact .inl ⟨.inl rfl, rfl⟩
    · exact .inr (.inl h)
    · exact .inl ⟨.inr rfl, rfl⟩
    · exact .inr (.inr h)
  · rintro (⟨rfl | rfl, rfl⟩ | h | h)
    · exact .inl (.inl ⟨rfl, rfl⟩)
    · exact .inr (.inl ⟨rfl, rfl⟩)
    · exact .inl (.inr h)
    · exact .inr (.inr h)

theorem literalsBefore_zero (text : List Char) : literalsBefore 0 text = 0 := by
  rw [literalsBefore, List.countP_eq_zero]
  intro before _
  cases before with
  | nil => simp [endsInLiteral_nil]
  | cons c rest =>
    have hpos := Char.utf8Size_pos c
    have hsize : ¬ byteSize (c :: rest) ≤ 0 := by
      rw [byteSize]
      omega
    simp [hsize]

/-- A character that starts no literal only takes up room. -/
theorem literalsBefore_cons {c : Char} {rest : List Char}
    (h : ¬ ((c = '(' ∨ c = ')') ∧ rest.head? = some '_')) (offset : Nat) :
    literalsBefore (c.utf8Size + offset) (c :: rest) = literalsBefore offset rest := by
  rw [literalsBefore, List.inits_cons, List.countP_cons_of_neg (by simp [endsInLiteral_nil]),
    List.countP_map, literalsBefore]
  apply List.countP_congr
  intro before hmem
  have hends : EndsInLiteral (c :: before) = EndsInLiteral before := by
    rw [Bool.eq_iff_iff, endsInLiteral_cons]
    constructor
    · rintro (⟨hc, rfl⟩ | hends)
      · obtain ⟨after, rfl⟩ := (List.mem_inits _ _).mp hmem
        exact absurd ⟨hc, rfl⟩ h
      · exact hends
    · exact .inr
  simp [byteSize, hends]

theorem countP_inits_isEmpty {p : List Char → Bool} (hp : p [] = false) (text : List Char) :
    text.inits.countP (fun before => before.isEmpty || p before) = text.inits.countP p + 1 := by
  cases text with
  | nil => simp [hp]
  | cons c rest =>
    rw [List.inits_cons, List.countP_cons_of_pos rfl, List.countP_cons_of_neg (by simp [hp]),
      List.countP_map, List.countP_map]
    simp [Function.comp_def]

/-- A literal that starts the text counts one. -/
theorem literalsBefore_literal {c : Char} (hc : c = '(' ∨ c = ')') (rest : List Char)
    (offset : Nat) :
    literalsBefore (2 + offset) (c :: '_' :: rest) = literalsBefore offset rest + 1 := by
  have hsize : c.utf8Size = 1 := by rcases hc with rfl | rfl <;> rfl
  have hfirst : EndsInLiteral [c] = false := by rcases hc with rfl | rfl <;> decide
  have hends (before : List Char) : EndsInLiteral (c :: '_' :: before) =
      (before.isEmpty || EndsInLiteral before) := by
    rw [Bool.eq_iff_iff, endsInLiteral_cons, endsInLiteral_cons]
    simp [hc]
  have hnil : (decide (byteSize [] ≤ offset) && EndsInLiteral []) = false := by
    rw [endsInLiteral_nil, Bool.and_false]
  rw [literalsBefore, List.inits_cons, List.inits_cons,
    List.countP_cons_of_neg (by simp [endsInLiteral_nil]), List.map_cons,
    List.countP_cons_of_neg (by simp [hfirst]), List.countP_map, List.countP_map,
    literalsBefore, ← countP_inits_isEmpty hnil]
  apply List.countP_congr
  intro before _
  have hroom : byteSize (c :: '_' :: before) ≤ 2 + offset ↔ byteSize before ≤ offset := by
    have hunderscore : ('_' : Char).utf8Size = 1 := rfl
    rw [byteSize, byteSize, hsize, hunderscore]
    omega
  simp only [Function.comp, hends, hroom]
  cases before with
  | nil => simp [byteSize]
  | cons d tail => simp

end LiteralTable

namespace Sign

open LiteralTable

theorem mapPiece_ofChar (c : Char) : mapPiece hideOnce (ofChar c) = ofChar c := by
  unfold ofChar
  split
  case isTrue => rfl
  case isFalse =>
    split
    case isTrue => rfl
    case isFalse =>
      split
      case isTrue => rfl
      case isFalse => simp [mapPiece, hideOnce]

/-- A hidden text has the signs of the text, with each literal hidden. -/
theorem scan_hideOnce (text : List Char) :
    scan (hideOnce text) = (scanLiterals text).map (mapPiece hideOnce) := by
  have hscan (c : Char) (rest : List Char) : scan (c :: rest) = ofChar c :: scan rest := rfl
  fun_induction scanLiterals text with
  | case1 => rfl
  | case2 rest ih =>
    rw [hideOnce, hscan, ih, List.map_cons]
    rfl
  | case3 rest ih =>
    rw [hideOnce, hscan, ih, List.map_cons]
    rfl
  | case4 c rest hopen hclose ih =>
    rw [hideOnce.eq_4 c rest hopen hclose, hscan, ih, List.map_cons, mapPiece_ofChar]

theorem texts_scanLiterals (text : List Char) : texts (scanLiterals text) = text := by
  fun_induction scanLiterals text with
  | case1 => rfl
  | case2 rest ih => rw [texts_cons, ih]; rfl
  | case3 rest ih => rw [texts_cons, ih]; rfl
  | case4 c rest hopen hclose ih => rw [texts_cons, ih, text_ofChar]; rfl

theorem undoes_scanLiterals {text : List Char} (h : Unmarked text) :
    Undoes shownChar hideOnce (scanLiterals text) := by
  intro piece hmem
  apply flatMap_shownChar_hideOnce
  intro c hc
  apply h c
  rw [← texts_scanLiterals text]
  exact List.mem_flatMap.mpr ⟨.piece piece, hmem, hc⟩

theorem sizes_add_literalsBefore_literal {c : Char} (hc : c = '(' ∨ c = ')')
    {before : List Sign} {rest : List Char}
    (h : sizes before + literalsBefore (sizes before) rest =
      sizes (before.map (mapPiece hideOnce))) :
    sizes (.piece [c, '_'] :: before) +
        literalsBefore (sizes (.piece [c, '_'] :: before)) (c :: '_' :: rest) =
      sizes ((.piece [c, '_'] :: before).map (mapPiece hideOnce)) := by
  have hplain : sizes (.piece [c, '_'] :: before) = 2 + sizes before := by
    rcases hc with rfl | rfl <;> rfl
  have hhidden : sizes ((.piece [c, '_'] :: before).map (mapPiece hideOnce)) =
      3 + sizes (before.map (mapPiece hideOnce)) := by
    rcases hc with rfl | rfl <;> rfl
  rw [hplain, hhidden, literalsBefore_literal hc, ← h]
  omega

theorem sizes_add_literalsBefore_nil (text : List Char) :
    sizes [] + literalsBefore (sizes []) text = sizes ([].map (mapPiece hideOnce)) := by
  rw [sizes, literalsBefore_zero]
  rfl

/-- Hiding makes a beginning of the text longer by one byte for each literal in it. -/
theorem sizes_add_literalsBefore {text : List Char} {before after : List Sign}
    (hsplit : scanLiterals text = before ++ after) :
    sizes before + literalsBefore (sizes before) text =
      sizes (before.map (mapPiece hideOnce)) := by
  fun_induction scanLiterals text generalizing before with
  | case1 =>
    rw [(List.append_eq_nil_iff.mp hsplit.symm).1]
    exact sizes_add_literalsBefore_nil []
  | case2 rest ih =>
    cases before with
    | nil => exact sizes_add_literalsBefore_nil _
    | cons sign before =>
      obtain ⟨rfl, hrest⟩ := List.cons_eq_cons.mp hsplit
      exact sizes_add_literalsBefore_literal (.inl rfl) (ih hrest)
  | case3 rest ih =>
    cases before with
    | nil => exact sizes_add_literalsBefore_nil _
    | cons sign before =>
      obtain ⟨rfl, hrest⟩ := List.cons_eq_cons.mp hsplit
      exact sizes_add_literalsBefore_literal (.inr rfl) (ih hrest)
  | case4 c rest hopen hclose ih =>
    cases before with
    | nil => exact sizes_add_literalsBefore_nil _
    | cons sign before =>
      obtain ⟨rfl, hrest⟩ := List.cons_eq_cons.mp hsplit
      have hplain : sizes (ofChar c :: before) = c.utf8Size + sizes before := by
        rw [sizes, size, text_ofChar]
        rfl
      have hhidden : sizes ((ofChar c :: before).map (mapPiece hideOnce)) =
          c.utf8Size + sizes (before.map (mapPiece hideOnce)) := by
        rw [List.map_cons, mapPiece_ofChar, sizes, size, text_ofChar]
        rfl
      have hfirst : ¬ ((c = '(' ∨ c = ')') ∧ rest.head? = some '_') := by
        rintro ⟨hc, hhead⟩
        obtain ⟨tail, htail⟩ := List.head?_eq_some_iff.mp hhead
        rcases hc with rfl | rfl
        · exact hopen tail rfl htail
        · exact hclose tail rfl htail
      rw [hplain, hhidden, literalsBefore_cons hfirst, ← ih hrest]
      omega

theorem follows_scanLiterals (text : List Char) :
    Token.Follows (fun offset => offset + literalsBefore offset text) hideOnce 0 0
      (scanLiterals text) := by
  intro before after hsplit
  rw [Nat.zero_add, Nat.zero_add]
  exact sizes_add_literalsBefore hsplit

end Sign

namespace Tree

theorem parseWith_eq_error {text : String} {before after : List Char} {mark : Char}
    (htext : text.toList = before ++ mark :: after) (hmark : IsMark mark)
    (hbefore : Unmarked before) :
    parseWith .brackets text = .error ⟨.reserved, byteSize before⟩ := by
  rw [parseWith, firstPlaceholder?_brackets_eq_some htext hmark hbefore]

/-- Reading with hidden literals is reading in one pass, but for the offset of a fault. -/
theorem parseWith_eq_mapError {text : String} (h : Unmarked text.toList) :
    parseWith .brackets text = (parseLiterals text).mapError
      (Fault.move fun offset => offset + literalsBefore offset text.toList) := by
  have hshow (chars : List Char) : reveal brackets (String.ofList chars) =
      String.ofList (chars.flatMap shownChar) := by
    rw [reveal, String.toList_ofList, showChars_brackets]
  have hparse : parse (hide brackets text) =
      ofSigns? ((Sign.scanLiterals text.toList).map (Sign.mapPiece hideOnce)) := by
    rw [parse, hide, String.toList_ofList, hideChars_brackets, Sign.scan_hideOnce]
  rw [parseWith, firstPlaceholder?_brackets_eq_none_iff.mpr h, parseLiterals]
  simp only [hparse]
  exact ofSigns?_mapPiece hshow _ (Sign.undoes_scanLiterals h) (Sign.follows_scanLiterals _)

/-- The texts of a tree that was read in one pass are pieces of the text. -/
theorem infix_of_parseLiterals {text : String} {tree : Tree}
    (h : parseLiterals text = .ok tree) :
    ∀ word ∈ tree.texts, word.toList <:+: text.toList := by
  intro word hmem
  rw [← Sign.texts_scanLiterals text.toList]
  exact infix_of_ofSigns?_eq_ok h word hmem

/-- Hiding the literals before reading comes to the same as reading in one pass. A text with a
placeholder is refused at the first one. Any other text gives the tree that is read in one pass,
and all words of the tree are pieces of the text without placeholders; or it fails for the same
cause, as many bytes later as there are literals before the fault. -/
theorem parseWith_brackets_iff_onePass (text : String) :
    (∀ before mark after, text.toList = before ++ mark :: after → IsMark mark →
      Unmarked before → parseWith .brackets text = .error ⟨.reserved, byteSize before⟩) ∧
    Fault.Cause.reserved.message = "reserved private-use character" ∧
    (Unmarked text.toList →
      (∀ tree, parseWith .brackets text = .ok tree ↔ parseLiterals text = .ok tree) ∧
      (∀ tree, parseLiterals text = .ok tree → ∀ word ∈ tree.texts,
        word.toList <:+: text.toList ∧ Unmarked word.toList) ∧
      ∀ cause offset, parseWith .brackets text = .error ⟨cause, offset⟩ ↔
        ∃ start, parseLiterals text = .error ⟨cause, start⟩ ∧
          offset = start + literalsBefore start text.toList) := by
  refine ⟨?_, rfl, ?_⟩
  · intro before mark after htext hmark hbefore
    exact parseWith_eq_error htext hmark hbefore
  · intro hplain
    rw [parseWith_eq_mapError hplain]
    refine ⟨?_, ?_, ?_⟩
    · intro tree
      cases parseLiterals text <;> simp [Except.mapError]
    · intro tree htree word hmem
      have hpart := infix_of_parseLiterals htree word hmem
      exact ⟨hpart, fun c hc => hplain c (hpart.subset hc)⟩
    · intro cause offset
      cases parseLiterals text with
      | ok tree => simp [Except.mapError]
      | error fault =>
        obtain ⟨found, start⟩ := fault
        simp only [Except.mapError, Fault.move, Except.error.injEq, Fault.mk.injEq]
        constructor
        · rintro ⟨rfl, rfl⟩
          exact ⟨start, ⟨rfl, rfl⟩, rfl⟩
        · rintro ⟨_, ⟨rfl, rfl⟩, rfl⟩
          exact ⟨rfl, rfl⟩

/-- The literal is the label here, and the bracket before it stays open. -/
theorem parseWith_brackets_unclosed_literal :
    Unmarked "((_ a".toList ∧ parseWith .brackets "((_ a" = .error ⟨.unclosed 1, 6⟩ ∧
      parseWith .brackets "((_ \ue001" = .error ⟨.reserved, 4⟩ := by
  have hplain : Unmarked "((_ a".toList := by decide
  have hread : parseLiterals "((_ a" = .error ⟨.unclosed 1, 5⟩ := by decide +kernel
  have hbefore : literalsBefore 5 "((_ a".toList = 1 := by decide
  obtain ⟨-, -, hsame⟩ := parseWith_brackets_iff_onePass "((_ a"
  obtain ⟨hreserved, -, -⟩ := parseWith_brackets_iff_onePass "((_ \ue001"
  refine ⟨hplain, ?_, ?_⟩
  · exact ((hsame hplain).2.2 (.unclosed 1) 6).mpr ⟨5, hread, by rw [hbefore]⟩
  · exact hreserved "((_ ".toList closeMark [] (by decide) (.inr rfl) (by decide)

end Tree

end TreeFigure
