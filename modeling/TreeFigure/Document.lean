import TreeFigure.Decimal.Shortest
import TreeFigure.Diagram
import TreeFigure.Record

/-!
The document of a figure: a frame, the diagram, and below it a row of tokens and a row of their
indices. The first and the last token stand under the anchors of the diagram; the others stand
between them at equal distances.
-/

namespace TreeFigure.Document

def opening (font : String) : List Char :=
  "\\documentclass[tikz]\x7bstandalone\x7d\n".toList ++
  Tex.controlLine "usepackage" "CJKutf8" ++
  Tex.controlLine "usepackage" "color" ++
  Tex.controlLine "usepackage" "tikz" ++
  Tex.controlLine "usepackage" "tikz-qtree" ++
  Tex.controlLine "usetikzlibrary" "calc" ++
  Tex.controlLine "thispagestyle" "empty" ++
  Tex.controlLine "begin" "document" ++
  Tex.control "begin" "CJK".toList ++ Tex.group "UTF8".toList ++ Tex.group font.toList ++
  "\n\n".toList ++
  Tex.controlLine "begin" "tikzpicture" ++
  Tex.controlLine "begin" "scope"

def closing : List Char :=
  '\n' :: Tex.controlLine "end" "scope" ++
  Tex.controlLine "end" "tikzpicture" ++
  Tex.controlLine "end" "CJK" ++
  Tex.controlLine "end" "document"

def intChars (n : Int) : List Char :=
  (toString n).toList

def natChars (n : Nat) : List Char :=
  (toString n).toList

/-- A node under an anchor of the diagram, at a height. -/
def under (anchor : String) (height : Int) (name : String) (body : List Char) : List Char :=
  "\\draw (".toList ++ anchor.toList ++ " |- 0,".toList ++ intChars height ++
    "pt) node (".toList ++ name.toList ++ ") ".toList ++ Tex.group body ++ ";\n".toList

/-- A node on the line from one named node to another, at a fraction of the way. -/
def between (first last : String) (fraction body : List Char) : List Char :=
  "\\node () at ($(".toList ++ first.toList ++ ")!".toList ++ fraction ++ "!(".toList ++
    last.toList ++ ")$) ".toList ++ Tex.group body ++ ";\n".toList

/-- The text of `index / span` as a number. -/
def fraction (index span : Nat) : List Char :=
  (Binary.ofQuotient index span).shortest.chars

/-- An inner token and its index, both at the same fraction of the way. -/
def inner (span index : Nat) (token : String) : List Char :=
  between "s0" "s1" (fraction index span) (Tex.escapeChars token.toList) ++
    between "p0" "p1" (fraction index span) (natChars index)

/-- The inner tokens from one with this index on. -/
def inners (span index : Nat) : List String → List Char
  | [] => []
  | token :: rest => inner span index token ++ inners span (index + 1) rest

/-- The rows of tokens and indices under a diagram. -/
def rows (diagram : Diagram) (layout : Layout) (height : Nat) (tokens : List String) :
    List Char :=
  under diagram.first (layout.tokenRow height) "s0"
      (Tex.escapeChars (tokens.headD "").toList) ++
    under diagram.last (layout.tokenRow height) "s1"
      (Tex.escapeChars (tokens.getLastD "").toList) ++
    under diagram.first (layout.indexRow height) "p0" (natChars 0) ++
    under diagram.last (layout.indexRow height) "p1" (natChars (Record.lastOf tokens)) ++
    inners (tokens.length - 1) 1 (tokens.drop 1).dropLast

/-- The document of a tree that has a leaf, with its tokens. -/
def render? (layout : Layout) (font : String) (tree : Tree) (tokens : List String) :
    Option String :=
  (Diagram.ofTree? layout tree).map fun diagram =>
    String.ofList (opening font ++ diagram.text.toList ++ '\n' ::
      rows diagram layout tree.height tokens ++ closing)

end TreeFigure.Document
