import TreeFigure.Proofs.Decimal.Nearest
import TreeFigure.Proofs.Figure.Decoration
import TreeFigure.Proofs.Figure.Recovery

/-!
The rows below a diagram. Every token and every index is drawn once, in order. The ends of a row
stand under the anchors and are drawn first, for both rows; then each inner token and its index
follow at one fraction of the way, so that reading a row from its start to its end gives all of it.
-/

namespace TreeFigure.Document

open Tex

/-- A node below a diagram: under an anchor, or on the way from one named node to another. -/
inductive RowNode where
  | under (anchor : String) (height : Int) (name : String) (body : List Char)
  | between (first last : String) (fraction body : List Char)
  deriving DecidableEq, Repr

namespace RowNode

/-- The node as it is written. -/
def chars : RowNode → List Char
  | .under anchor height name body =>
    "\\draw (".toList ++ anchor.toList ++ " |- 0,".toList ++ (toString height).toList ++
      "pt) node (".toList ++ name.toList ++ ") \x7b".toList ++ body ++ "\x7d;\n".toList
  | .between first last fraction body =>
    "\\node () at ($(".toList ++ first.toList ++ ")!".toList ++ fraction ++ "!(".toList ++
      last.toList ++ ")$) \x7b".toList ++ body ++ "\x7d;\n".toList

/-- What stands in the node if it has this name. -/
def named? (name : String) : RowNode → Option (List Char)
  | .under _ _ other body => if other = name then some body else none
  | .between .. => none

/-- What stands in the node if it is between these two. -/
def between? (start stop : String) : RowNode → Option (List Char)
  | .under .. => none
  | .between first last _ body => if first = start ∧ last = stop then some body else none

end RowNode

/-- A row as it is seen: its start, what stands between its ends, and its end. -/
def readRow (start stop : String) (nodes : List RowNode) : List (List Char) :=
  nodes.filterMap (RowNode.named? start) ++ nodes.filterMap (RowNode.between? start stop) ++
    nodes.filterMap (RowNode.named? stop)

/-- The token with this index as it is written. -/
def tokenChars (tokens : List String) (index : Nat) : List Char :=
  escapeChars (tokens.getD index "").toList

/-- An index as it is written. -/
def indexChars (index : Nat) : List Char :=
  (toString index).toList

/-- A token between the ends of its row, and its index, at the same fraction of the way. -/
def innerNodes (tokens : List String) (index : Nat) : List RowNode :=
  [.between "s0" "s1" (fraction index (tokens.length - 1)) (tokenChars tokens index),
    .between "p0" "p1" (fraction index (tokens.length - 1)) (indexChars index)]

/-- The nodes below a diagram in the order in which they are drawn: the ends of the token row, the
ends of the index row, and the other tokens from left to right, each with its index. -/
def rowNodes (first last : String) (tokenRow indexRow : Int) (record : Record) : List RowNode :=
  [.under first tokenRow "s0" (tokenChars record.tokens 0),
    .under last tokenRow "s1" (tokenChars record.tokens record.lastIndex),
    .under first indexRow "p0" (indexChars 0),
    .under last indexRow "p1" (indexChars record.lastIndex)] ++
    (List.range' 1 (record.tokens.length - 2)).flatMap (innerNodes record.tokens)

theorem under_eq_chars (anchor : String) (height : Int) (name : String) (body : List Char) :
    under anchor height name body = (RowNode.under anchor height name body).chars := by
  have hopen : ") \x7b".toList = ") ".toList ++ ['\x7b'] := by decide
  have hclose : "\x7d;\n".toList = '\x7d' :: ";\n".toList := by decide
  unfold under intChars group RowNode.chars
  dsimp only
  rw [hopen, hclose]
  simp only [List.append_assoc, List.cons_append, List.nil_append]

theorem between_eq_chars (first last : String) (fraction body : List Char) :
    between first last fraction body = (RowNode.between first last fraction body).chars := by
  have hopen : ")$) \x7b".toList = ")$) ".toList ++ ['\x7b'] := by decide
  have hclose : "\x7d;\n".toList = '\x7d' :: ";\n".toList := by decide
  unfold between group RowNode.chars
  rw [hopen, hclose]
  simp only [List.append_assoc, List.cons_append, List.nil_append]

theorem closing_eq :
    closing = ("\n\\end\x7bscope\x7d\n\\end\x7btikzpicture\x7d\n" ++
      "\\end\x7bCJK\x7d\n\\end\x7bdocument\x7d\n").toList := by
  decide

section Rows

variable {tokens : List String} {record : Record}

theorem inner_eq_innerNodes (index : Nat) :
    inner (tokens.length - 1) index (tokens.getD index "") =
      (innerNodes tokens index).flatMap RowNode.chars := by
  rw [inner, between_eq_chars, between_eq_chars, innerNodes, List.flatMap_cons,
    List.flatMap_singleton]
  rfl

/-- Inner tokens that stand in the list from an index on are drawn with the indices from it on. -/
theorem inners_eq_flatMap {index : Nat} {inside : List String}
    (h : ∀ k < inside.length, inside[k]? = tokens[index + k]?) :
    inners (tokens.length - 1) index inside =
      ((List.range' index inside.length).flatMap (innerNodes tokens)).flatMap RowNode.chars := by
  induction inside generalizing index with
  | nil => rfl
  | cons token rest ih =>
    have htoken : token = tokens.getD index "" := by
      have hfirst := h 0 (Nat.succ_pos _)
      rw [List.getD_eq_getElem?_getD, ← Nat.add_zero index, ← hfirst]
      rfl
    have hrest : ∀ k < rest.length, rest[k]? = tokens[index + 1 + k]? := by
      intro k hk
      have hnext := h (k + 1) (Nat.succ_lt_succ hk)
      rwa [List.getElem?_cons_succ, Nat.add_comm k 1, ← Nat.add_assoc] at hnext
    rw [inners, ih hrest, List.length_cons, List.range'_succ, List.flatMap_cons,
      List.flatMap_append, ← inner_eq_innerNodes, htoken]

/-- What is drawn below a diagram are the nodes of the rows and nothing else. -/
theorem rows_eq_flatMap (diagram : Diagram) (layout : Layout) (height : Nat) :
    rows diagram layout height record.tokens =
      (rowNodes diagram.first diagram.last (layout.tokenRow height) (layout.indexRow height)
        record).flatMap RowNode.chars := by
  have hfirst : record.tokens.headD "" = record.tokens.getD 0 "" := by
    cases record.tokens with
    | nil => rfl
    | cons => rfl
  have hlast : record.tokens.getLastD "" = record.tokens.getD record.lastIndex "" := by
    rw [List.getLastD_eq_getLast?, List.getLast?_eq_getElem?, List.getD_eq_getElem?_getD]
    rfl
  have hlength : (record.tokens.drop 1).dropLast.length = record.tokens.length - 2 := by
    rw [List.length_dropLast, List.length_drop]
    omega
  have hinside : ∀ k < (record.tokens.drop 1).dropLast.length,
      (record.tokens.drop 1).dropLast[k]? = record.tokens[1 + k]? := by
    intro k hk
    rw [List.length_dropLast] at hk
    rw [List.getElem?_dropLast, if_pos hk, List.getElem?_drop]
  rw [rows, inners_eq_flatMap hinside, hlength, hfirst, hlast, rowNodes, List.flatMap_append,
    under_eq_chars, under_eq_chars, under_eq_chars, under_eq_chars]
  simp only [List.flatMap_cons, List.flatMap_nil, List.append_nil, List.append_assoc]
  rfl

/-- The indices of two tokens or more: the first, those between, and the last. -/
theorem range_eq_ends {n : Nat} (h : 2 ≤ n) :
    List.range n = 0 :: (List.range' 1 (n - 2) ++ [n - 1]) := by
  obtain ⟨inside, rfl⟩ := Nat.exists_eq_add_of_le' h
  have hlast : inside + 2 - 1 = 1 + inside := by omega
  rw [List.range_eq_range', List.range'_succ, List.range'_1_concat, Nat.add_sub_cancel, hlast]

theorem map_tokenChars :
    (List.range tokens.length).map (tokenChars tokens) =
      tokens.map fun token => escapeChars token.toList := by
  apply List.ext_getElem
  · simp
  · intro index hindex hmore
    rw [List.length_map] at hmore
    simp [tokenChars, hmore]

/-- Reading a row skips what belongs to the other one, and takes one part from each inner pair. -/
theorem readRow_append {start stop : String} {ends : List RowNode} {shown : Nat → List Char}
    (hnamed : ∀ name index, (innerNodes tokens index).filterMap (RowNode.named? name) = [])
    (hbetween : ∀ index,
      (innerNodes tokens index).filterMap (RowNode.between? start stop) = [shown index])
    (hends : ends.filterMap (RowNode.between? start stop) = []) (indices : List Nat) :
    readRow start stop (ends ++ indices.flatMap (innerNodes tokens)) =
      ends.filterMap (RowNode.named? start) ++ indices.map shown ++
        ends.filterMap (RowNode.named? stop) := by
  have hnone (name : String) :
      (indices.flatMap (innerNodes tokens)).filterMap (RowNode.named? name) = [] := by
    rw [List.filterMap_flatMap, List.flatMap_eq_nil_iff]
    exact fun index _ => hnamed name index
  have hinner : (indices.flatMap (innerNodes tokens)).filterMap (RowNode.between? start stop) =
      indices.map shown := by
    rw [List.filterMap_flatMap, List.map_eq_flatMap]
    exact List.flatMap_congr fun index _ => hbetween index
  rw [readRow, List.filterMap_append, List.filterMap_append, List.filterMap_append, hnone, hnone,
    hinner, hends, List.append_nil, List.append_nil, List.nil_append]

/-- With two tokens or more, the token row holds all tokens in order and the index row all
indices. -/
theorem readRow_rowNodes (first last : String) (tokenRow indexRow : Int)
    (h : 2 ≤ record.tokens.length) :
    readRow "s0" "s1" (rowNodes first last tokenRow indexRow record) =
        (List.range record.tokens.length).map (tokenChars record.tokens) ∧
      readRow "p0" "p1" (rowNodes first last tokenRow indexRow record) =
        (List.range record.tokens.length).map indexChars := by
  have hnamed (name : String) (index : Nat) :
      (innerNodes record.tokens index).filterMap (RowNode.named? name) = [] := rfl
  rw [range_eq_ends h]
  constructor
  · rw [rowNodes, readRow_append hnamed (fun _ => rfl) rfl, List.map_cons, List.map_append]
    rfl
  · rw [rowNodes, readRow_append hnamed (fun _ => rfl) rfl, List.map_cons, List.map_append]
    rfl

theorem rowNodes_single {token : String} (h : record.tokens = [token]) (first last : String)
    (tokenRow indexRow : Int) :
    rowNodes first last tokenRow indexRow record =
      [.under first tokenRow "s0" (escapeChars token.toList),
        .under last tokenRow "s1" (escapeChars token.toList),
        .under first indexRow "p0" (indexChars 0), .under last indexRow "p1" (indexChars 0)] := by
  obtain ⟨treeText, tokens⟩ := record
  obtain rfl : tokens = [token] := h
  rfl

end Rows

/-- Below its diagram a document draws every token and every index once and in order, and nothing
else before its end. The rows lie below the lowest level of the tree, at exact places if these are
integers of 64 bits. A token between the ends stands with its index at one fraction of the way,
which is written as a decimal that rounds to the number nearest to the fraction. A single token
stands at both ends, and nothing between them. -/
theorem render?_draws_rows {tree : Tree} (hleaf : tree.leaves ≠ []) (record : Record)
    (layout : Layout) (font : String) :
    let tokens := record.tokens
    let offset (gap : Int) : Int := -(tree.height * layout.levelHeight) - gap
    ∃ diagram text nodes tokenRow indexRow, Diagram.ofTree? layout tree = some diagram ∧
      render? layout font tree tokens = some text ∧
      text.toList = opening font ++ (diagram.text.toList ++ '\n' :: (nodes.flatMap RowNode.chars ++
        ("\n\\end\x7bscope\x7d\n\\end\x7btikzpicture\x7d\n" ++
          "\\end\x7bCJK\x7d\n\\end\x7bdocument\x7d\n").toList)) ∧
      nodes = rowNodes diagram.first diagram.last tokenRow indexRow record ∧
      diagram.first = "n0" ∧ diagram.last = (if tree.leaves.length = 1 then "n0" else "n1") ∧
      tokenRow = (offset layout.tokenGap).bmod Text.wordBound ∧
      indexRow = (offset layout.indexGap).bmod Text.wordBound ∧
      (-(Text.signedBound : Int) ≤ offset layout.tokenGap →
        offset layout.tokenGap < Text.signedBound → tokenRow = offset layout.tokenGap) ∧
      (-(Text.signedBound : Int) ≤ offset layout.indexGap →
        offset layout.indexGap < Text.signedBound → indexRow = offset layout.indexGap) ∧
      (2 ≤ tokens.length →
        readRow "s0" "s1" nodes = tokens.map (fun token => escapeChars token.toList) ∧
        readRow "p0" "p1" nodes = (List.range tokens.length).map indexChars) ∧
      (∀ token, tokens = [token] → nodes =
        [.under diagram.first tokenRow "s0" (escapeChars token.toList),
          .under diagram.last tokenRow "s1" (escapeChars token.toList),
          .under diagram.first indexRow "p0" (indexChars 0),
          .under diagram.last indexRow "p1" (indexChars 0)]) ∧
      (∀ index, 0 < index → index < tokens.length - 1 →
        ∃ (b : Binary) (d : Decimal) (whole places : List Char),
          fraction index (tokens.length - 1) =
            whole ++ (if places = [] then [] else '.' :: places) ∧
          d.Digits whole places ∧ b.Nearest index (tokens.length - 1) ∧
          b.Nearest d.digits (Nat.pow 10 d.places) ∧ b.absorbs d = true) := by
  intro tokens offset
  obtain ⟨diagram, hdiagram⟩ := Diagram.exists_ofTree? hleaf layout
  obtain ⟨hfirst, hlast⟩ := Diagram.names_eq hdiagram
  have hrender : (render? layout font tree tokens).isSome = true := by
    rw [render?, hdiagram]
    rfl
  obtain ⟨text, htext⟩ := Option.isSome_iff_exists.mp hrender
  obtain ⟨other, hother, hchars⟩ := toList_of_render? htext
  obtain rfl : diagram = other := Option.some.inj (hdiagram.symm.trans hother)
  rw [rows_eq_flatMap, closing_eq] at hchars
  refine ⟨diagram, text, _, layout.tokenRow tree.height, layout.indexRow tree.height, hdiagram,
    htext, hchars, rfl, hfirst, hlast, layout.rowAt_eq_bmod _ _, layout.rowAt_eq_bmod _ _,
    layout.rowAt_eq _ _, layout.rowAt_eq _ _, ?_, ?_, ?_⟩
  · intro htwo
    rw [← map_tokenChars]
    exact readRow_rowNodes _ _ _ _ htwo
  · exact fun token htoken => rowNodes_single htoken _ _ _ _
  · intro index hpos hlt
    have hnearest := Binary.nearest_ofQuotient hpos hlt
    have hsignificand : 0 < (Binary.ofQuotient index (tokens.length - 1)).significand :=
      Nat.lt_of_lt_of_le (Nat.pow_pos Nat.two_pos) hnearest.le_significand
    have habsorbs := Binary.absorbs_shortest hsignificand
    obtain ⟨whole, places, hdigits, hchars⟩ :=
      (Binary.ofQuotient index (tokens.length - 1)).shortest.exists_digits
    exact ⟨_, _, whole, places, hchars, hdigits, hnearest,
      Binary.nearest_of_absorbs hnearest habsorbs, habsorbs⟩

/-- Three tokens, two of them equal and one with markup, and one token alone. -/
theorem render?_draws_rows_three_and_one :
    let tree : Tree := .node "S" [.leaf "a", .node "B" [.leaf "b"]]
    let three : Record := ⟨"(S a (B b))", ["x_y", "$", "x_y"]⟩
    let one : Record := ⟨"(S a (B b))", ["$"]⟩
    tree.leaves ≠ [] ∧
      (∃ diagram text nodes, render? {} "gbsn" tree three.tokens = some text ∧
        text.toList = opening "gbsn" ++ (Diagram.text diagram).toList ++ '\n' ::
          (nodes.flatMap RowNode.chars ++ closing) ∧
        nodes = [.under "n0" (-94) "s0" "x\\ y".toList, .under "n1" (-94) "s1" "x\\ y".toList,
          .under "n0" (-114) "p0" ['0'], .under "n1" (-114) "p1" ['2'],
          .between "s0" "s1" "0.5".toList "\\$".toList, .between "p0" "p1" "0.5".toList ['1']] ∧
        readRow "s0" "s1" nodes = ["x\\ y".toList, "\\$".toList, "x\\ y".toList] ∧
        readRow "p0" "p1" nodes = [['0'], ['1'], ['2']]) ∧
      (∃ diagram text nodes, render? {} "gbsn" tree one.tokens = some text ∧
        text.toList = opening "gbsn" ++ (Diagram.text diagram).toList ++ '\n' ::
          (nodes.flatMap RowNode.chars ++ closing) ∧
        nodes = [.under "n0" (-94) "s0" "\\$".toList, .under "n1" (-94) "s1" "\\$".toList,
          .under "n0" (-114) "p0" ['0'], .under "n1" (-114) "p1" ['0']]) := by
  intro tree three one
  have hleaf : tree.leaves ≠ [] := by decide
  refine ⟨hleaf, ?_, ?_⟩
  · obtain ⟨diagram, text, nodes, tokenRow, indexRow, -, htext, hchars, hnodes, hfirst, hlast,
      -, -, htokenRow, hindexRow, hread, -, -⟩ := render?_draws_rows hleaf three {} "gbsn"
    obtain ⟨hrow, hindices⟩ := hread (by decide)
    rw [hfirst, hlast, htokenRow (by decide) (by decide), hindexRow (by decide) (by decide)]
      at hnodes
    refine ⟨diagram, text, nodes, htext, ?_, ?_, hrow, hindices⟩
    · rw [hchars, List.append_assoc, closing_eq]
    · rw [hnodes]
      decide +kernel
  · obtain ⟨diagram, text, nodes, tokenRow, indexRow, -, htext, hchars, -, hfirst, hlast, -, -,
      htokenRow, hindexRow, -, hsingle, -⟩ := render?_draws_rows hleaf one {} "gbsn"
    have hnodes := hsingle "$" rfl
    rw [hfirst, hlast, htokenRow (by decide) (by decide), hindexRow (by decide) (by decide)]
      at hnodes
    refine ⟨diagram, text, nodes, htext, ?_, hnodes⟩
    rw [hchars, List.append_assoc, closing_eq]

end TreeFigure.Document
