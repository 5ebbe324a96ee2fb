import TreeFigure.Proofs.Tree.Lexing
import TreeFigure.Proofs.Tree.Syntax

/-!
The grammar of bracketed notation, rule by rule and without tokens. A text is read as a tree
exactly if the grammar derives it with that tree as its value, and a text has at most one value.
-/

namespace TreeFigure.Grammar

open Text Token TreeFigure.Tree

/-- The first of these trees is a leaf. -/
def LeafFirst : Forest → Prop
  | .leaf _ :: _ => True
  | _ => False

mutual

/-- A tree in brackets. Its label is a word, or it has no label and does not begin with a word. -/
inductive TreeText : List Char → Tree → Prop
  | labelled {gap label items last : List Char} {children : Forest} (hgap : IsGap gap)
      (hlabel : IsWord label) (hitems : ItemsText true items children) (hlast : IsGap last) :
      TreeText ('(' :: (gap ++ (label ++ (items ++ (last ++ [')'])))))
        (.node (String.ofList label) children)
  | unlabelled {gap items last : List Char} {children : Forest} (hgap : IsGap gap)
      (hitems : ItemsText false items children) (hfirst : ¬ LeafFirst children)
      (hlast : IsGap last) :
      TreeText ('(' :: (gap ++ (items ++ (last ++ [')'])))) (.node "" children)

/-- Words and trees with blanks before each of them. There may be no blank, except between two
words; the flag tells that a word stands before the items. -/
inductive ItemsText : Bool → List Char → Forest → Prop
  | nil {afterWord : Bool} : ItemsText afterWord [] []
  | word {afterWord : Bool} {gap word rest : List Char} {trees : Forest} (hgap : IsGap gap)
      (happart : afterWord = true → gap ≠ []) (hword : IsWord word)
      (hrest : ItemsText true rest trees) :
      ItemsText afterWord (gap ++ (word ++ rest)) (.leaf (String.ofList word) :: trees)
  | tree {afterWord : Bool} {gap text rest : List Char} {tree : Tree} {trees : Forest}
      (hgap : IsGap gap) (htree : TreeText text tree) (hrest : ItemsText false rest trees) :
      ItemsText afterWord (gap ++ (text ++ rest)) (tree :: trees)

end

/-- A tree with blanks around it. -/
inductive DocumentText : List Char → Tree → Prop
  | intro {before text after : List Char} {tree : Tree} (hbefore : IsGap before)
      (htree : TreeText text tree) (hafter : IsGap after) :
      DocumentText (before ++ (text ++ after)) tree

theorem TreeText.eq_cons {text : List Char} {tree : Tree} (h : TreeText text tree) :
    ∃ rest, text = '(' :: rest := by
  cases h <;> exact ⟨_, rfl⟩

theorem TreeText.isNode {text : List Char} {tree : Tree} (h : TreeText text tree) :
    ∃ label children, tree = .node label children := by
  cases h <;> exact ⟨_, _, rfl⟩

/-! From the grammar to tokens. -/

theorem not_begins_isInner_opening (rest : List Char) : ¬ Begins isInner ('(' :: rest) := by
  rw [begins_cons]
  decide

theorem not_begins_isInner_closing (rest : List Char) : ¬ Begins isInner (')' :: rest) := by
  rw [begins_cons]
  decide

theorem TreeText.not_begins_isInner {text : List Char} {tree : Tree} (h : TreeText text tree)
    (rest : List Char) : ¬ Begins isInner (text ++ rest) := by
  obtain ⟨tail, rfl⟩ := h.eq_cons
  exact not_begins_isInner_opening _

/-- Items after a word do not make it longer. -/
theorem ItemsText.not_begins_isInner {items rest : List Char} {trees : Forest}
    (h : ItemsText true items trees) (hrest : ¬ Begins isInner rest) :
    ¬ Begins isInner (items ++ rest) := by
  cases h with
  | nil => exact hrest
  | word hgap happart =>
    rw [List.append_assoc]
    exact hgap.not_begins_isInner fun hnil => absurd hnil (happart rfl)
  | tree hgap htree =>
    rw [List.append_assoc, List.append_assoc]
    exact hgap.not_begins_isInner fun _ => htree.not_begins_isInner _

theorem dropWhile_gap_append {gap : List Char} (hgap : IsGap gap) (rest : List Char) :
    (gap ++ rest).dropWhile isBlank = rest.dropWhile isBlank :=
  List.dropWhile_append_of_pos hgap

/-- A bracket is no blank, so blanks before it end there. -/
theorem dropWhile_isBlank_cons {c : Char} (h : c = '(' ∨ c = ')') (rest : List Char) :
    (c :: rest).dropWhile isBlank = c :: rest := by
  apply dropWhile_of_not_begins
  rw [begins_cons]
  rcases h with rfl | rfl <;> decide

/-- After the blanks behind an opening bracket without label there is no word. -/
theorem ItemsText.not_begins_isInner_dropWhile {items last : List Char} {trees : Forest}
    {afterWord : Bool} (h : ItemsText afterWord items trees) (hfirst : ¬ LeafFirst trees)
    (hlast : IsGap last) (rest : List Char) :
    ¬ Begins isInner ((items ++ (last ++ ')' :: rest)).dropWhile isBlank) := by
  cases h with
  | nil =>
    rw [List.nil_append, dropWhile_gap_append hlast, dropWhile_isBlank_cons (.inr rfl)]
    exact not_begins_isInner_closing rest
  | word => exact absurd trivial hfirst
  | tree hgap htree =>
    obtain ⟨tail, rfl⟩ := htree.eq_cons
    rw [List.append_assoc, dropWhile_gap_append hgap, List.cons_append, List.cons_append,
      dropWhile_isBlank_cons (.inl rfl)]
    exact not_begins_isInner_opening _

/-- The closing bracket of a tree after blanks. -/
theorem lexed_closing {offset next : Nat} {last rest : List Char} {tail : List Placed}
    (hlast : IsGap last) (hnext : next = offset + byteSize last + 1)
    (htail : Lexed next rest tail) :
    Lexed offset (last ++ ')' :: rest) (⟨offset + byteSize last, .closing⟩ :: tail) := by
  subst hnext
  have hwhole : Token.closing.WholeBefore rest := trivial
  exact .token hlast hwhole htail

theorem byteSize_opening (text : List Char) : byteSize ('(' :: text) = 1 + byteSize text := rfl

theorem byteSize_closing : byteSize [')'] = 1 := rfl

/-- An opening bracket without label takes all blanks after it. -/
theorem lexed_opening {offset : Nat} {text : List Char} {tail : List Placed}
    (hinner : ¬ Begins isInner (text.dropWhile isBlank)) (h : Lexed (offset + 1) text tail) :
    ∃ gap, Lexed offset ('(' :: text) (⟨offset, .opening gap []⟩ :: tail) := by
  refine ⟨text.takeWhile isBlank, ?_⟩
  have hgap : IsGap (text.takeWhile isBlank) := forall_mem_takeWhile text
  have hsplit := List.takeWhile_append_dropWhile (p := isBlank) (l := text)
  obtain ⟨found, hfound⟩ := exists_lexed
    (offset + 1 + byteSize (text.takeWhile isBlank)) (text.dropWhile isBlank)
  have hsame : found = tail := by
    have hmoved := hfound.gap_append hgap
    rw [hsplit] at hmoved
    rw [← hmoved.ofSigns_eq, h.ofSigns_eq]
  subst hsame
  have hwhole : (Token.opening (text.takeWhile isBlank) []).WholeBefore
      (text.dropWhile isBlank) :=
    ⟨hgap, by simp, hinner, fun _ => not_begins_dropWhile text⟩
  have hsize : byteSize [] + byteSize (Token.opening (text.takeWhile isBlank) []).text =
      1 + byteSize (text.takeWhile isBlank) := by
    rw [Token.text, List.append_nil]
    simp only [byteSize]
    exact Nat.zero_add _
  rw [Nat.add_assoc, ← hsize, ← Nat.add_assoc] at hfound
  have hlexed := Lexed.token isGap_nil hwhole hfound
  simpa [Token.text, byteSize, hsplit] using hlexed

/-- An opening bracket with its label takes the blanks between them. -/
theorem lexed_opening_label {offset : Nat} {gap label rest : List Char} {tail : List Placed}
    (hgap : IsGap gap) (hlabel : IsWord label) (hrest : ¬ Begins isInner rest)
    (h : Lexed (offset + byteSize ('(' :: (gap ++ label))) rest tail) :
    Lexed offset ('(' :: (gap ++ (label ++ rest))) (⟨offset, .opening gap label⟩ :: tail) := by
  have hwhole : (Token.opening gap label).WholeBefore rest :=
    ⟨hgap, hlabel.2, hrest, fun hnil => absurd hnil hlabel.1⟩
  have htext : (Token.opening gap label).text = '(' :: (gap ++ label) := by simp [Token.text]
  rw [← htext] at h
  have hlexed := Lexed.token isGap_nil hwhole h
  simpa [byteSize, htext] using hlexed

mutual

/-- The text of a tree has tokens that are the notation of the tree, whatever follows it. -/
theorem TreeText.lexed {text : List Char} {tree : Tree} (h : TreeText text tree) (offset : Nat)
    (rest : List Char) (tail : List Placed) (htail : Lexed (offset + byteSize text) rest tail) :
    ∃ placed, Lexed offset (text ++ rest) (placed ++ tail) ∧ TreeTokens placed tree := by
  cases h with
  | @labelled gap label items last children hgap hlabel hitems hlast =>
    let start := offset + byteSize ('(' :: (gap ++ label))
    let stop := start + byteSize items + byteSize last
    have hclosing : Lexed (start + byteSize items) (last ++ ')' :: rest)
        (⟨stop, .closing⟩ :: tail) := by
      apply lexed_closing hlast _ htail
      simp only [start, byteSize_opening, byteSize_closing, byteSize_append]
      omega
    have hstop : ¬ Begins isInner (last ++ ')' :: rest) :=
      hlast.not_begins_isInner fun _ => not_begins_isInner_closing rest
    obtain ⟨inner, hlexed, hforest⟩ := hitems.lexed start hstop hclosing
    have hwhole := lexed_opening_label hgap hlabel (hitems.not_begins_isInner hstop) hlexed
    refine ⟨⟨offset, .opening gap label⟩ :: inner ++ [⟨stop, .closing⟩], ?_, .node hforest⟩
    simpa using hwhole
  | @unlabelled gap items last children hgap hitems hfirst hlast =>
    let start := offset + 1 + byteSize gap
    let stop := start + byteSize items + byteSize last
    have hclosing : Lexed (start + byteSize items) (last ++ ')' :: rest)
        (⟨stop, .closing⟩ :: tail) := by
      apply lexed_closing hlast _ htail
      simp only [start, byteSize_opening, byteSize_closing, byteSize_append]
      omega
    have hstop : ¬ Begins isInner (last ++ ')' :: rest) :=
      hlast.not_begins_isInner fun _ => not_begins_isInner_closing rest
    obtain ⟨inner, hlexed, hforest⟩ := hitems.lexed start hstop hclosing
    have hinner := hitems.not_begins_isInner_dropWhile hfirst hlast rest
    rw [← dropWhile_gap_append hgap] at hinner
    obtain ⟨blanks, hwhole⟩ := lexed_opening hinner (hlexed.gap_append hgap)
    refine ⟨⟨offset, .opening blanks []⟩ :: inner ++ [⟨stop, .closing⟩], ?_, .node hforest⟩
    simpa using hwhole

/-- The text of items has tokens that are the notation of the items, if what follows them does
not make a word longer. -/
theorem ItemsText.lexed {items : List Char} {trees : Forest} {afterWord : Bool}
    (h : ItemsText afterWord items trees) (offset : Nat) {rest : List Char} {tail : List Placed}
    (hrest : ¬ Begins isInner rest) (htail : Lexed (offset + byteSize items) rest tail) :
    ∃ placed, Lexed offset (items ++ rest) (placed ++ tail) ∧ ForestTokens placed trees := by
  cases h with
  | nil => exact ⟨[], by simpa [byteSize] using htail, .nil⟩
  | @word _ gap word after trees hgap happart hword hafter =>
    rw [byteSize_append, byteSize_append, ← Nat.add_assoc, ← Nat.add_assoc] at htail
    obtain ⟨placed, hlexed, hforest⟩ := hafter.lexed _ hrest htail
    have hwhole : (Token.word word).WholeBefore (after ++ rest) :=
      ⟨hword, hafter.not_begins_isInner hrest⟩
    have htoken := Lexed.token hgap hwhole hlexed
    refine ⟨⟨offset + byteSize gap, .word word⟩ :: placed, ?_, .leaf hforest⟩
    simpa [Token.text] using htoken
  | @tree _ gap text after tree trees hgap htree hafter =>
    rw [byteSize_append, byteSize_append, ← Nat.add_assoc, ← Nat.add_assoc] at htail
    obtain ⟨placed, hlexed, hforest⟩ := hafter.lexed _ hrest htail
    obtain ⟨first, hfirst, htokens⟩ := htree.lexed (offset + byteSize gap) _ _ hlexed
    refine ⟨first ++ placed, ?_, .tree htokens hforest⟩
    simpa using hfirst.gap_append hgap

end

/-! From tokens to the grammar. -/

/-- A text whose first token is this one starts with it after blanks. -/
theorem lexed_cons {offset : Nat} {text : List Char} {placed : Placed} {tail : List Placed}
    (h : Lexed offset text (placed :: tail)) :
    ∃ gap rest next, text = gap ++ (placed.token.text ++ rest) ∧ IsGap gap ∧
      placed.token.WholeBefore rest ∧ Lexed next rest tail := by
  cases h with
  | token hgap hwhole htail => exact ⟨_, _, _, rfl, hgap, hwhole, htail⟩

/-- Items that begin with a leaf begin with a blank or with the leaf. -/
theorem ItemsText.begins_of_leafFirst {items rest : List Char} {trees : Forest}
    {afterWord : Bool} (h : ItemsText afterWord items trees) (hfirst : LeafFirst trees) :
    Begins isBlank (items ++ rest) ∨ Begins isInner (items ++ rest) := by
  cases h with
  | nil => exact absurd hfirst id
  | @word _ gap word after trees hgap happart hword hrest =>
    rw [List.append_assoc, List.append_assoc]
    cases gap with
    | nil => exact .inr (hword.begins _)
    | cons c gap => exact .inl (by simpa using hgap c (by simp))
  | tree hgap htree =>
    obtain ⟨label, children, rfl⟩ := htree.isNode
    exact absurd hfirst id

mutual

/-- Tokens that are the notation of a tree have a text of that tree. -/
theorem exists_treeText {placed tail : List Placed} {tree : Tree} (h : TreeTokens placed tree)
    {offset : Nat} {text : List Char} (hlexed : Lexed offset text (placed ++ tail)) :
    ∃ gap body rest next, text = gap ++ (body ++ rest) ∧ IsGap gap ∧ TreeText body tree ∧
      Lexed next rest tail := by
  cases h with
  | @node start stop gap label inner children hinner =>
    rw [List.append_assoc, List.cons_append] at hlexed
    obtain ⟨before, afterLabel, next, rfl, hbefore, hwhole, hrest⟩ := lexed_cons hlexed
    obtain ⟨hgap, hlabel, hstop, hblank⟩ := hwhole
    obtain ⟨items, afterItems, next, rfl, hitems, hrest⟩ :=
      exists_itemsText hinner (decide (label ≠ [])) hrest (fun _ => hstop)
    obtain ⟨last, rest, next, rfl, hlast, -, hrest⟩ := lexed_cons hrest
    by_cases hnil : label = []
    · subst hnil
      have hfirst : ¬ LeafFirst children := by
        intro hleaf
        rcases hitems.begins_of_leafFirst hleaf with h | h
        · exact hblank rfl h
        · exact hstop h
      refine ⟨before, _, rest, next, ?_, hbefore, .unlabelled hgap hitems hfirst hlast, hrest⟩
      simp [Token.text]
    · rw [decide_eq_true hnil] at hitems
      refine ⟨before, _, rest, next, ?_, hbefore,
        .labelled hgap ⟨hnil, hlabel⟩ hitems hlast, hrest⟩
      simp [Token.text]

/-- Tokens that are the notation of trees side by side have a text of items. -/
theorem exists_itemsText {placed tail : List Placed} {trees : Forest}
    (h : ForestTokens placed trees) (afterWord : Bool) {offset : Nat} {text : List Char}
    (hlexed : Lexed offset text (placed ++ tail))
    (hstop : afterWord = true → ¬ Begins isInner text) :
    ∃ items rest next, text = items ++ rest ∧ ItemsText afterWord items trees ∧
      Lexed next rest tail := by
  cases h with
  | nil => exact ⟨[], text, offset, rfl, .nil, hlexed⟩
  | @leaf start word more trees hmore =>
    obtain ⟨gap, afterWord', next, rfl, hgap, ⟨hword, hend⟩, hrest⟩ := lexed_cons hlexed
    obtain ⟨items, rest, next, rfl, hitems, hrest⟩ :=
      exists_itemsText hmore true hrest (fun _ => hend)
    have happart : afterWord = true → gap ≠ [] := by
      rintro hafter rfl
      exact hstop hafter (hword.begins _)
    refine ⟨_, rest, next, ?_, .word hgap happart hword hitems, hrest⟩
    simp [Token.text]
  | tree hfirst hmore =>
    rw [List.append_assoc] at hlexed
    obtain ⟨gap, body, rest, next, rfl, hgap, htree, hrest⟩ := exists_treeText hfirst hlexed
    obtain ⟨items, rest, next, rfl, hitems, hrest⟩ :=
      exists_itemsText hmore false hrest (fun h => absurd h (by simp))
    refine ⟨_, rest, next, ?_, .tree hgap htree hitems, hrest⟩
    simp

end

/-- The grammar derives what is read, with the same tree. -/
theorem parse_eq_ok_iff (text : String) (tree : Tree) :
    Tree.parse text = .ok tree ↔ DocumentText text.toList tree := by
  rw [parse_eq_ok_iff_treeTokens]
  constructor
  · intro htokens
    have hlexed := lexed_iff.mpr (rfl : Token.ofSigns 0 (Sign.scan text.toList) = _)
    rw [← List.append_nil (Token.ofSigns 0 _)] at hlexed
    obtain ⟨before, body, after, next, htext, hbefore, htree, hrest⟩ :=
      exists_treeText htokens hlexed
    rw [htext]
    cases hrest with
    | done hafter => exact .intro hbefore htree hafter
  · intro h
    generalize text.toList = chars at h
    cases h with
    | @intro before _ _ _ hbefore htree hafter =>
      obtain ⟨placed, hlexed, htokens⟩ :=
        htree.lexed (0 + byteSize before) _ [] (.done hafter)
      rw [List.append_nil] at hlexed
      have hall := hlexed.gap_append hbefore
      rwa [hall.ofSigns_eq]

/-! Brackets pair up. -/

theorem count_bracket_gap {gap : List Char} (hgap : IsGap gap) :
    gap.count '(' = 0 ∧ gap.count ')' = 0 :=
  ⟨count_run hgap (by decide), count_run hgap (by decide)⟩

theorem count_bracket_word {word : List Char} (hword : IsWord word) :
    word.count '(' = 0 ∧ word.count ')' = 0 :=
  ⟨count_run hword.2 (by decide), count_run hword.2 (by decide)⟩

mutual

/-- The text of a tree has as many opening as closing brackets. -/
theorem TreeText.count_opening {text : List Char} {tree : Tree} (h : TreeText text tree) :
    text.count '(' = text.count ')' := by
  cases h with
  | labelled hgap hlabel hitems hlast =>
    simp only [List.count_cons, List.count_append, List.count_nil, count_bracket_gap hgap,
      count_bracket_word hlabel, count_bracket_gap hlast, hitems.count_opening]
    simp
  | unlabelled hgap hitems hfirst hlast =>
    simp only [List.count_cons, List.count_append, List.count_nil, count_bracket_gap hgap,
      count_bracket_gap hlast, hitems.count_opening]
    simp

theorem ItemsText.count_opening {items : List Char} {trees : Forest} {afterWord : Bool}
    (h : ItemsText afterWord items trees) : items.count '(' = items.count ')' := by
  cases h with
  | nil => rfl
  | word hgap happart hword hrest =>
    simp only [List.count_append, count_bracket_gap hgap, count_bracket_word hword,
      hrest.count_opening]
  | tree hgap htree hrest =>
    simp only [List.count_append, count_bracket_gap hgap, htree.count_opening,
      hrest.count_opening]

end

theorem count_opening_of_parse {text : String} {tree : Tree} (h : Tree.parse text = .ok tree) :
    text.toList.count '(' = text.toList.count ')' := by
  rw [parse_eq_ok_iff] at h
  generalize text.toList = chars at h
  cases h with
  | intro hbefore htree hafter =>
    simp only [List.count_append, count_bracket_gap hbefore, count_bracket_gap hafter,
      htree.count_opening]

/-- Reading accepts exactly the texts of the grammar, each with the tree that the grammar gives
it, and no text has two trees. -/
theorem parse_accepts_exactly_documents (text : String) :
    (∀ tree, Tree.parse text = .ok tree ↔ DocumentText text.toList tree) ∧
      ∀ first second, DocumentText text.toList first → DocumentText text.toList second →
        first = second := by
  refine ⟨parse_eq_ok_iff text, ?_⟩
  intro first second hfirst hsecond
  have hread := (parse_eq_ok_iff text first).mpr hfirst
  rw [(parse_eq_ok_iff text second).mpr hsecond] at hread
  exact (Except.ok.inj hread).symm

end TreeFigure.Grammar
