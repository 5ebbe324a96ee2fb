import TreeFigure.Document
import TreeFigure.Proofs.Figure.Diagram

/-!
Documents are well-formed TeX, whatever the texts of the tree and the tokens hold. Every part of a
document is a fragment, and the frame has the only environments.
-/

namespace TreeFigure

open Tex

theorem Decimal.numeral_chars (d : Decimal) : Numeral d.chars := by
  unfold chars
  split
  case isTrue => exact .whole (isDigits_toDigits d.digits)
  case isFalse =>
    rw [List.append_assoc, List.cons_append]
    exact .point (isDigits_toDigits _) ((isDigits_toDigits _).replicate_append _)

namespace Document

theorem isDigits_natChars (n : Nat) : IsDigits (natChars n) := by
  have hdigits : natChars n = Nat.toDigits 10 n := Nat.toList_repr
  rw [hdigits]
  exact isDigits_toDigits n

theorem intChars_cases (n : Int) :
    intChars n = natChars n.toNat ∨ intChars n = '-' :: natChars (-n).toNat := by
  rw [intChars, Int.toString_eq_repr, Int.repr_eq_if]
  split
  case isTrue => exact .inl rfl
  case isFalse =>
    rw [String.toList_append]
    exact .inr rfl

theorem isPlain_natChars (n : Nat) : (natChars n).all isPlain = true :=
  (isDigits_natChars n).all_isPlain

theorem isPlain_intChars (n : Int) : (intChars n).all isPlain = true := by
  rcases intChars_cases n with hchars | hchars
  · rw [hchars]
    exact isPlain_natChars n.toNat
  · have hsign : isPlain '-' = true := rfl
    rw [hchars, List.all_cons, hsign, Bool.true_and]
    exact isPlain_natChars (-n).toNat

theorem fragment_under {anchor name : String} {height : Int} {body : List Char}
    (hanchor : anchor.toList.all isPlain = true) (hname : name.toList.all isPlain = true)
    (hbody : Fragment [] body) : Fragment [] (under anchor height name body) := by
  have hdraw : Fragment [] "\\draw (".toList := .control rfl
  have hplace : Fragment [] " |- 0,".toList := .run rfl
  have hunit : Fragment [] "pt) node (".toList := .run rfl
  have hclose : Fragment [] ") ".toList := .run rfl
  have hend : Fragment [] ";\n".toList := .run rfl
  have hpoint := (((hdraw.append (.run hanchor)).append hplace).append
    (.run (isPlain_intChars height))).append hunit
  exact (((hpoint.append (.run hname)).append hclose).append hbody.group).append hend

/-- A place in math mode between two parts of a line. -/
theorem fragment_place {start stop : List Char} {first last : String} {fraction : List Char}
    (hstart : Fragment [] start)
    (hrow : first = "s0" ∧ last = "s1" ∨ first = "p0" ∧ last = "p1")
    (hfraction : Numeral fraction) (hstop : Fragment [] stop) :
    Fragment [] (start ++ ['$', '('] ++ first.toList ++ ")!".toList ++ fraction ++
      "!(".toList ++ last.toList ++ ([')', '$'] ++ stop)) := by
  have hwhole := (hstart.append (.math (.place hrow hfraction))).append hstop
  simpa using hwhole

theorem fragment_between {first last : String} {fraction body : List Char}
    (hrow : first = "s0" ∧ last = "s1" ∨ first = "p0" ∧ last = "p1")
    (hfraction : Numeral fraction) (hbody : Fragment [] body) :
    Fragment [] (between first last fraction body) := by
  have hnode : Fragment [] "\\node () at (".toList := .control rfl
  have hclose : Fragment [] ") ".toList := .run rfl
  have hend : Fragment [] ";\n".toList := .run rfl
  have hstart : "\\node () at ($(".toList = "\\node () at (".toList ++ ['$', '('] := by decide
  have hstop : ")$) ".toList = [')', '$'] ++ ") ".toList := by decide
  unfold between
  rw [hstart, hstop]
  exact ((fragment_place hnode hrow hfraction hclose).append hbody.group).append hend

theorem fragment_inners (span index : Nat) (tokens : List String) :
    Fragment [] (inners span index tokens) := by
  induction tokens generalizing index with
  | nil => exact .nil
  | cons token rest ih =>
    have hnumeral : Numeral (fraction index span) := Decimal.numeral_chars _
    have htoken := fragment_between (.inl ⟨rfl, rfl⟩) hnumeral
      (fragment_escapeChars token.toList)
    have hindex := fragment_between (.inr ⟨rfl, rfl⟩) hnumeral (.run (isPlain_natChars index))
    rw [inners, inner]
    exact (htoken.append hindex).append (ih (index + 1))

theorem fragment_rows {diagram : Diagram} (hfirst : diagram.first.toList.all isPlain = true)
    (hlast : diagram.last.toList.all isPlain = true) (layout : Layout) (height : Nat)
    (tokens : List String) : Fragment [] (rows diagram layout height tokens) := by
  have hname : ∀ name ∈ ["s0", "s1", "p0", "p1"], name.toList.all isPlain = true := by
    simp only [List.forall_mem_cons]
    decide
  have hindex (n : Nat) : Fragment [] (natChars n) := .run (isPlain_natChars n)
  have hs0 : Fragment [] (under diagram.first (layout.tokenRow height) "s0"
      (escapeChars (tokens.headD "").toList)) :=
    fragment_under hfirst (hname _ (by simp)) (fragment_escapeChars _)
  have hs1 : Fragment [] (under diagram.last (layout.tokenRow height) "s1"
      (escapeChars (tokens.getLastD "").toList)) :=
    fragment_under hlast (hname _ (by simp)) (fragment_escapeChars _)
  have hp0 : Fragment [] (under diagram.first (layout.indexRow height) "p0" (natChars 0)) :=
    fragment_under hfirst (hname _ (by simp)) (hindex 0)
  have hp1 : Fragment [] (under diagram.last (layout.indexRow height) "p1"
      (natChars (tokens.length - 1))) :=
    fragment_under hlast (hname _ (by simp)) (hindex _)
  have hinner := fragment_inners (tokens.length - 1) 1 (tokens.drop 1).dropLast
  exact (((hs0.append hs1).append hp0).append hp1).append hinner

theorem fragment_controlLine {name argument : String}
    (hname : isControl ('\\' :: name.toList) = true)
    (hargument : argument.toList.all isPlain = true) : Fragment [] (controlLine name argument) := by
  exact ((Fragment.control hname).append (.group (.run hargument))).append .line

/-- The environments of the frame, the outermost first. -/
def environments : List String := ["document", "CJK", "tikzpicture", "scope"]

/-- The events of a control word with these arguments. -/
def eventsOf (word : List Char) (names : List String) : List Event :=
  names.map fun name => .environment word name.toList

theorem arguments_eventsOf (word : List Char) (names : List String) :
    (eventsOf word names).filterMap (Event.argument? word) = names.map String.toList := by
  rw [eventsOf, List.filterMap_map, ← List.filterMap_eq_map]
  congr 1
  funext name
  simp [Event.argument?]

theorem arguments_eventsOf_of_ne {word other : List Char} (h : other ≠ word)
    (names : List String) : (eventsOf other names).filterMap (Event.argument? word) = [] := by
  rw [eventsOf, List.filterMap_map, List.filterMap_eq_nil_iff]
  intro name _
  exact if_neg h

theorem arguments_replicate_brackets (word : List Char) (count : Nat) :
    (List.replicate count Event.brackets).filterMap (Event.argument? word) = [] := by
  rw [List.filterMap_eq_nil_iff]
  intro event hmem
  rw [List.eq_of_mem_replicate hmem]
  rfl

theorem fragment_environment {word argument : String}
    (hword : word.toList = begins ∨ word.toList = ends)
    (hargument : argument.toList.all isPlain = true) :
    Fragment [.environment word.toList argument.toList] (controlLine word argument) :=
  (Fragment.environment hword hargument).append .line

theorem fragment_class :
    Fragment [.brackets] "\\documentclass[tikz]\x7bstandalone\x7d\n".toList := by
  have hword : Fragment [] "\\documentclass".toList := .control rfl
  have hoption : Fragment [] "tikz".toList := .run rfl
  have hname : Fragment [] "standalone".toList := .run rfl
  exact ((hword.append hoption.brackets).append hname.group).append .line

/-- What stands before the diagram: one option in brackets and the start of all environments. -/
theorem fragment_opening {font : String} (hfont : font.toList.all isPlain = true) :
    Fragment (.brackets :: eventsOf begins environments) (opening font) := by
  have hutf8 : Fragment [] (controlLine "usepackage" "CJKutf8") :=
    fragment_controlLine rfl rfl
  have hcolor : Fragment [] (controlLine "usepackage" "color") :=
    fragment_controlLine rfl rfl
  have htikz : Fragment [] (controlLine "usepackage" "tikz") :=
    fragment_controlLine rfl rfl
  have hqtree : Fragment [] (controlLine "usepackage" "tikz-qtree") :=
    fragment_controlLine rfl rfl
  have hcalc : Fragment [] (controlLine "usetikzlibrary" "calc") :=
    fragment_controlLine rfl rfl
  have hstyle : Fragment [] (controlLine "thispagestyle" "empty") :=
    fragment_controlLine rfl rfl
  have hdocument : Fragment [.environment begins "document".toList]
      (controlLine "begin" "document") :=
    fragment_environment (.inl rfl) rfl
  have hcjk : Fragment [.environment begins "CJK".toList] (control "begin" "CJK".toList) :=
    .environment (.inl rfl) rfl
  have hencoding : Fragment [] (group "UTF8".toList) := .group (.run rfl)
  have hlines : Fragment [] "\n\n".toList := .run rfl
  have hpicture : Fragment [.environment begins "tikzpicture".toList]
      (controlLine "begin" "tikzpicture") :=
    fragment_environment (.inl rfl) rfl
  have hscope : Fragment [.environment begins "scope".toList] (controlLine "begin" "scope") :=
    fragment_environment (.inl rfl) rfl
  have hpackages := ((((fragment_class.append hutf8).append hcolor).append htikz).append
    hqtree).append hcalc
  have hcjkLine := (((hpackages.append hstyle).append hdocument).append hcjk).append hencoding
  exact (((hcjkLine.append (.group (.run hfont))).append hlines).append hpicture).append hscope

theorem fragment_closing :
    Fragment (eventsOf ends environments.reverse) closing := by
  have hscope : Fragment [.environment ends "scope".toList] (controlLine "end" "scope") :=
    fragment_environment (.inr rfl) rfl
  have hpicture : Fragment [.environment ends "tikzpicture".toList]
      (controlLine "end" "tikzpicture") :=
    fragment_environment (.inr rfl) rfl
  have hcjk : Fragment [.environment ends "CJK".toList] (controlLine "end" "CJK") :=
    fragment_environment (.inr rfl) rfl
  have hdocument : Fragment [.environment ends "document".toList] (controlLine "end" "document") :=
    fragment_environment (.inr rfl) rfl
  exact (((Fragment.line.append hscope).append hpicture).append hcjk).append hdocument

/-- A document is a fragment: the option of its class, the environments of the frame, and between
their start and their end the nodes of the tree. -/
theorem fragment_render? {font : String} (hfont : font.toList.all isPlain = true)
    {layout : Layout} {tree : Tree} {diagram : Diagram}
    (hdiagram : Diagram.ofTree? layout tree = some diagram) (tokens : List String) :
    ∃ text after, render? layout font tree tokens = some text ∧
      text.toList = opening font ++ diagram.text.toList ++ after ∧
      Fragment (.brackets :: eventsOf begins environments ++
        (List.replicate tree.nodeCount .brackets ++ eventsOf ends environments.reverse))
        text.toList := by
  have hnames := Diagram.isPlain_names hdiagram
  have hrows := Fragment.line.append (fragment_rows hnames.1 hnames.2 layout tree.height tokens)
  have hafter := hrows.append fragment_closing
  have hframe := (fragment_opening hfont).append
    ((Diagram.fragment_of_ofTree? hdiagram).append hafter)
  let after := ['\n'] ++ rows diagram layout tree.height tokens ++ closing
  have htext : opening font ++ diagram.text.toList ++ '\n' ::
      rows diagram layout tree.height tokens ++ closing =
        opening font ++ diagram.text.toList ++ after := by
    simp [after]
  refine ⟨String.ofList (opening font ++ diagram.text.toList ++ after), after, ?_, ?_, ?_⟩
  · rw [render?, hdiagram, Option.map_some, htext]
  · rw [String.toList_ofList]
  · rw [String.toList_ofList, List.append_assoc]
    exact hframe

theorem arguments_of_fragment {word text : List Char} {count : Nat}
    (hword : word = begins ∨ word = ends)
    (h : Fragment (.brackets :: eventsOf begins environments ++
      (List.replicate count .brackets ++ eventsOf ends environments.reverse)) text) :
    arguments word text = (eventsOf begins environments).filterMap (Event.argument? word) ++
      (eventsOf ends environments.reverse).filterMap (Event.argument? word) := by
  have hall := h.arguments_append hword []
  rw [List.append_nil, List.filterMap_append, List.filterMap_append,
    arguments_replicate_brackets, List.nil_append] at hall
  rw [hall, arguments, List.append_nil]
  rfl

/-- The document of every tree with a leaf is well-formed TeX, whatever the labels, the leaves and
the tokens hold. Its diagram has one pair of square brackets for each node, and it opens and closes
exactly the environments of its frame. -/
theorem render?_wellFormed {font : String} {tree : Tree} (hleaf : tree.leaves ≠ [])
    (hfont : ∀ c ∈ font.toList, c ∉ special) (layout : Layout) (tokens : List String) :
    ∃ text diagram before after, render? layout font tree tokens = some text ∧
      WellFormed text.toList ∧
      Diagram.ofTree? layout tree = some diagram ∧
      text.toList = before ++ diagram.text.toList ++ after ∧
      diagram.text.toList.count '[' = tree.nodeCount ∧
      diagram.text.toList.count ']' = tree.nodeCount ∧
      arguments begins text.toList =
        ["document", "CJK", "tikzpicture", "scope"].map String.toList ∧
      arguments ends text.toList =
        ["scope", "tikzpicture", "CJK", "document"].map String.toList := by
  obtain ⟨diagram, hdiagram⟩ := Diagram.exists_ofTree? hleaf layout
  have hplain : font.toList.all isPlain = true := by
    rw [List.all_eq_true]
    exact fun c hc => isPlain_eq_true_iff.mpr (hfont c hc)
  obtain ⟨text, after, hrender, htext, hfragment⟩ := fragment_render? hplain hdiagram tokens
  have htree := Diagram.fragment_of_ofTree? hdiagram
  have hother : ends ≠ begins := by decide
  refine ⟨text, diagram, opening font, after, hrender, hfragment.wellFormed, hdiagram, htext,
    ?_, ?_, ?_, ?_⟩
  · rw [htree.count_bracket (.inl rfl), List.count_replicate_self]
  · rw [htree.count_bracket (.inr rfl), List.count_replicate_self]
  · rw [arguments_of_fragment (.inl rfl) hfragment, arguments_eventsOf,
      arguments_eventsOf_of_ne hother, List.append_nil]
    rfl
  · rw [arguments_of_fragment (.inr rfl) hfragment, arguments_eventsOf,
      arguments_eventsOf_of_ne hother.symm, List.nil_append]
    rfl

/-- Texts that hold markup, among them the start of an environment. -/
theorem render?_wellFormed_markup :
    let tree : Tree := .node "[_" [.leaf "\\begin\x7bscope\x7d", .node "" [], .leaf "||||$"]
    let tokens := ["\x7b", "|||", "]%\\"]
    ∃ text diagram, render? {} "gbsn" tree tokens = some text ∧ WellFormed text.toList ∧
      Diagram.ofTree? {} tree = some diagram ∧ diagram.text.toList.count '[' = 2 ∧
      (arguments begins text.toList).length = 4 := by
  intro tree tokens
  have hplain : "gbsn".toList.all isPlain = true := rfl
  have hfont : ∀ c ∈ "gbsn".toList, c ∉ special :=
    fun c hc => isPlain_eq_true_iff.mp (List.all_eq_true.mp hplain c hc)
  have hleaf : tree.leaves ≠ [] := by
    rw [Tree.leaves, Forest.leaves, Tree.leaves]
    simp
  obtain ⟨text, diagram, _, _, hrender, hwell, hdiagram, _, hcount, _, hbegins, _⟩ :=
    render?_wellFormed hleaf hfont {} tokens
  exact ⟨text, diagram, hrender, hwell, hdiagram, hcount, by rw [hbegins]; rfl⟩

end Document

end TreeFigure
