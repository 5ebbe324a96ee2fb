import TreeFigure.Proofs.Figure.Decoration
import TreeFigure.Proofs.Figure.Recovery
import TreeFigure.Proofs.Tex.Stretches
import TreeFigure.Proofs.Text.Occurrences

/-!
Bars in a document. Escaped text has at most three in a row, and in a document other characters
stand between any two texts. So no document has four bars in a row, as long as its font has none.
-/

namespace TreeFigure

open Text Tex

def fourBars : List Char := List.replicate 4 '|'

/-- In front of a text that does not begin with a bar, no four bars start here. -/
def Sparse (text : List Char) : Prop :=
  ∀ rest, ¬ Begins (· == '|') rest →
    occurrences fourBars (text ++ rest) = occurrences fourBars rest

section Sparse

variable {text left right : List Char}

theorem adds_of_bar_notMem (h : '|' ∉ text) : Adds fourBars text 0 :=
  adds_of_notMem h

theorem Sparse.of_adds (h : Adds fourBars text 0) : Sparse text :=
  fun rest _ => h rest

theorem Sparse.of_not_isInfix (h : ¬ fourBars <:+: text) : Sparse text := by
  intro rest hrest
  cases rest with
  | nil =>
    rw [List.append_nil]
    exact (occurrences_eq_zero_iff (by decide)).mpr h
  | cons c rest =>
    have hc : c ∉ fourBars := by
      intro hmem
      obtain rfl := List.eq_of_mem_replicate hmem
      exact hrest (begins_cons.mpr rfl)
    exact occurrences_append_cons hc h rest

theorem Sparse.prepend (hleft : Adds fourBars left 0) (hright : Sparse right) :
    Sparse (left ++ right) := by
  intro rest hrest
  rw [List.append_assoc, hleft, hright rest hrest]
  rfl

/-- A text that begins with another character than a bar ends a run of bars. -/
theorem Sparse.append_adds (hleft : Sparse left) (hright : Adds fourBars right 0)
    (hbegins : Begins (· != '|') right) : Adds fourBars (left ++ right) 0 := by
  obtain ⟨c, tail, rfl, hc⟩ := hbegins.exists_cons
  have hend (rest : List Char) : ¬ Begins (· == '|') (c :: tail ++ rest) := by
    simpa using hc
  intro rest
  rw [List.append_assoc, hleft _ (hend rest), hright rest]

theorem sparse_escapeChars (text : List Char) : Sparse (escapeChars text) :=
  .of_not_isInfix (not_four_bars_isInfix text)

theorem Sparse.group (h : Sparse text) : Adds fourBars (Tex.group text) 0 := by
  have hopen : Adds fourBars ['{'] 0 := adds_of_bar_notMem (by decide)
  have hclose : Adds fourBars ['}'] 0 := adds_of_bar_notMem (by decide)
  exact hopen.append (h.append_adds hclose (begins_cons.mpr rfl))

end Sparse

namespace Diagram

theorem sparse_leafChars {name : Option String} (text : String)
    (h : ∀ found ∈ name, found = "n0" ∨ found = "n1") : Sparse (leafChars name text) := by
  cases name with
  | none => exact sparse_escapeChars text.toList
  | some name =>
    have hedge : Adds fourBars "\\edge; \\node(".toList 0 := adds_of_bar_notMem (by decide)
    have hname : Adds fourBars name.toList 0 := by
      rcases h name rfl with rfl | rfl <;> exact adds_of_bar_notMem (by decide)
    have hclose : Adds fourBars ") ".toList 0 := adds_of_bar_notMem (by decide)
    have hend : Adds fourBars [';'] 0 := adds_of_bar_notMem (by decide)
    have hgroup := (sparse_escapeChars text.toList).group
    exact .of_adds ((((hedge.append hname).append hclose).append hgroup).append hend)

theorem sparse_header (label : String) : Sparse (header label) :=
  .prepend (adds_of_bar_notMem (by decide)) (sparse_escapeChars label.toList)

theorem bar_notMem_of_isSpacing {gap : List Char} (h : IsSpacing gap) : '|' ∉ gap :=
  fun hmem => absurd (h.2 '|' hmem) (by decide)

/-- The drawings of the children of a node begin with spacing. -/
theorem ItemsDrawn.begins_not_bar {names : Naming} {index : Nat} {items : List Char}
    {trees : Forest} (h : ItemsDrawn names index items trees) : Begins (· != '|') items := by
  have hspacing := h.begins []
  rw [List.append_nil] at hspacing
  obtain ⟨c, rest, rfl, hc⟩ := hspacing.exists_cons
  rw [begins_cons, bne_iff_ne]
  rintro rfl
  exact absurd hc (by decide)

mutual

theorem TreeDrawn.sparse {names : Naming} {text : List Char} {tree : Tree}
    (h : TreeDrawn names text tree) (hnames : names.OfAnchors) : Sparse text := by
  cases h with
  | @leaf _ text => exact sparse_leafChars text (hnames [])
  | @node _ label items children hitems =>
    exact .of_adds ((sparse_header label).append_adds (hitems.adds_fourBars hnames)
      hitems.begins_not_bar)

theorem ItemsDrawn.adds_fourBars {names : Naming} {index : Nat} {items : List Char}
    {trees : Forest} (h : ItemsDrawn names index items trees) (hnames : names.OfAnchors) :
    Adds fourBars items 0 := by
  cases h with
  | close hgap =>
    have hbracket : Adds fourBars [']'] 0 := adds_of_bar_notMem (by decide)
    exact (adds_of_bar_notMem (bar_notMem_of_isSpacing hgap)).append hbracket
  | item hgap htree hrest =>
    have hfirst := htree.sparse (hnames.below index)
    have hall := hfirst.append_adds (hrest.adds_fourBars hnames) hrest.begins_not_bar
    exact (adds_of_bar_notMem (bar_notMem_of_isSpacing hgap)).append hall

end

theorem sparse_text {layout : Layout} {tree : Tree} {diagram : Diagram}
    (h : ofTree? layout tree = some diagram) : Sparse diagram.text.toList := by
  obtain ⟨anchors, body, -, htext, hbody⟩ := exists_drawn h
  rw [htext]
  exact .prepend (adds_of_bar_notMem (by decide)) (hbody.sparse anchors.naming_ofAnchors)

end Diagram

namespace Document

theorem bar_notMem_of_isDigits {digits : List Char} (h : IsDigits digits) : '|' ∉ digits :=
  fun hmem => absurd (h.2 '|' hmem) (by decide)

theorem bar_notMem_natChars (n : Nat) : '|' ∉ natChars n :=
  bar_notMem_of_isDigits (isDigits_natChars n)

theorem bar_notMem_intChars (n : Int) : '|' ∉ intChars n := by
  rcases intChars_cases n with hchars | hchars
  · rw [hchars]
    exact bar_notMem_natChars n.toNat
  · rw [hchars, List.mem_cons, not_or]
    exact ⟨by decide, bar_notMem_natChars (-n).toNat⟩

theorem bar_notMem_of_numeral {text : List Char} (h : Numeral text) : '|' ∉ text := by
  cases h with
  | whole hdigits => exact bar_notMem_of_isDigits hdigits
  | point hdigits hplaces =>
    rw [List.mem_append, List.mem_cons, not_or, not_or]
    exact ⟨bar_notMem_of_isDigits hdigits, by decide, bar_notMem_of_isDigits hplaces⟩

section Rows

variable {first last name : String} {body : List Char}

/-- The coordinate under an anchor has a bar of its own, between a space and a hyphen. -/
theorem adds_under (hanchor : '|' ∉ first.toList) (height : Int) (hname : '|' ∉ name.toList)
    (hbody : Sparse body) : Adds fourBars (under first height name body) 0 := by
  have hdraw : Adds fourBars "\\draw (".toList 0 := adds_of_bar_notMem (by decide)
  have hplace : Adds fourBars " |- 0,".toList 0 := by
    have hbar : Sparse " |".toList := .of_not_isInfix (by decide)
    have hrest : Adds fourBars "- 0,".toList 0 := adds_of_bar_notMem (by decide)
    exact hbar.append_adds hrest (begins_cons.mpr rfl)
  have hunit : Adds fourBars "pt) node (".toList 0 := adds_of_bar_notMem (by decide)
  have hclose : Adds fourBars ") ".toList 0 := adds_of_bar_notMem (by decide)
  have hend : Adds fourBars ";\n".toList 0 := adds_of_bar_notMem (by decide)
  have hheight := adds_of_bar_notMem (bar_notMem_intChars height)
  have hpoint := (((hdraw.append (adds_of_bar_notMem hanchor)).append hplace).append
    hheight).append hunit
  exact (((hpoint.append (adds_of_bar_notMem hname)).append hclose).append hbody.group).append hend

theorem adds_between (hfirst : '|' ∉ first.toList) (hlast : '|' ∉ last.toList) (index span : Nat)
    (hbody : Sparse body) : Adds fourBars (between first last (fraction index span) body) 0 := by
  have hnode : Adds fourBars "\\node () at ($(".toList 0 := adds_of_bar_notMem (by decide)
  have hstart : Adds fourBars ")!".toList 0 := adds_of_bar_notMem (by decide)
  have hstop : Adds fourBars "!(".toList 0 := adds_of_bar_notMem (by decide)
  have hclose : Adds fourBars ")$) ".toList 0 := adds_of_bar_notMem (by decide)
  have hend : Adds fourBars ";\n".toList 0 := adds_of_bar_notMem (by decide)
  have hfraction := adds_of_bar_notMem (bar_notMem_of_numeral
    (Decimal.numeral_chars (Binary.ofQuotient index span).shortest))
  have hpoint := (((hnode.append (adds_of_bar_notMem hfirst)).append hstart).append
    hfraction).append hstop
  exact (((hpoint.append (adds_of_bar_notMem hlast)).append hclose).append hbody.group).append hend

theorem sparse_natChars (n : Nat) : Sparse (natChars n) :=
  .of_adds (adds_of_bar_notMem (bar_notMem_natChars n))

theorem adds_inners (span index : Nat) (tokens : List String) :
    Adds fourBars (inners span index tokens) 0 := by
  induction tokens generalizing index with
  | nil => exact adds_nil
  | cons token rest ih =>
    have htoken : Adds fourBars
        (between "s0" "s1" (fraction index span) (escapeChars token.toList)) 0 :=
      adds_between (by decide) (by decide) index span (sparse_escapeChars token.toList)
    have hindex : Adds fourBars
        (between "p0" "p1" (fraction index span) (natChars index)) 0 :=
      adds_between (by decide) (by decide) index span (sparse_natChars index)
    exact (htoken.append hindex).append (ih (index + 1))

theorem adds_rows {diagram : Diagram} (hfirst : '|' ∉ diagram.first.toList)
    (hlast : '|' ∉ diagram.last.toList) (layout : Layout) (height : Nat) (tokens : List String) :
    Adds fourBars (rows diagram layout height tokens) 0 := by
  have hs0 : Adds fourBars (under diagram.first (layout.tokenRow height) "s0"
      (escapeChars (tokens.headD "").toList)) 0 :=
    adds_under hfirst _ (by decide) (sparse_escapeChars _)
  have hs1 : Adds fourBars (under diagram.last (layout.tokenRow height) "s1"
      (escapeChars (tokens.getLastD "").toList)) 0 :=
    adds_under hlast _ (by decide) (sparse_escapeChars _)
  have hp0 : Adds fourBars (under diagram.first (layout.indexRow height) "p0" (natChars 0)) 0 :=
    adds_under hfirst _ (by decide) (sparse_natChars 0)
  have hp1 : Adds fourBars (under diagram.last (layout.indexRow height) "p1"
      (natChars (tokens.length - 1))) 0 :=
    adds_under hlast _ (by decide) (sparse_natChars _)
  have hinner := adds_inners (tokens.length - 1) 1 (tokens.drop 1).dropLast
  exact (((hs0.append hs1).append hp0).append hp1).append hinner

end Rows

theorem bar_notMem_opening {font : String} (h : '|' ∉ font.toList) : '|' ∉ opening font := by
  have hframe : '|' ∉ opening "" := by decide
  have hgroup : '|' ∉ group font.toList := by simp [group, h]
  unfold opening at hframe ⊢
  iterate 4 rw [List.mem_append, not_or] at hframe ⊢
  obtain ⟨⟨⟨⟨hbefore, -⟩, hlines⟩, hpicture⟩, hscope⟩ := hframe
  exact ⟨⟨⟨⟨hbefore, hgroup⟩, hlines⟩, hpicture⟩, hscope⟩

/-- A document has at most three bars in a row, whatever the labels, the leaves and the tokens
hold. -/
theorem not_fourBars_isInfix_render? {layout : Layout} {font text : String} {tree : Tree}
    {tokens : List String} (hfont : '|' ∉ font.toList)
    (h : render? layout font tree tokens = some text) : ¬ fourBars <:+: text.toList := by
  obtain ⟨diagram, hdiagram, htext⟩ := toList_of_render? h
  obtain ⟨hfirst, hlast⟩ := Diagram.names_eq hdiagram
  have hn0 : '|' ∉ diagram.first.toList := by
    rw [hfirst]
    decide
  have hn1 : '|' ∉ diagram.last.toList := by
    rw [hlast]
    split <;> decide
  have hline : Adds fourBars ['\n'] 0 := adds_of_bar_notMem (by decide)
  have hclosing : Adds fourBars closing 0 := adds_of_bar_notMem (by decide)
  have hafter := hline.append ((adds_rows hn0 hn1 layout tree.height tokens).append hclosing)
  have hbody := (Diagram.sparse_text hdiagram).append_adds hafter (begins_cons.mpr rfl)
  have hall := (adds_of_bar_notMem (bar_notMem_opening hfont)).append hbody
  rw [htext, ← occurrences_eq_zero_iff (by decide)]
  exact hall.occurrences_eq

end Document

end TreeFigure
