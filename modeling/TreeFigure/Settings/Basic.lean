import TreeFigure.Layout

/-!
The settings of a run, and overlays that give some of them. An overlay wins over the settings below
it where it says something and leaves the rest alone.
-/

namespace TreeFigure

structure Settings where
  /-- Where the document is written. -/
  output : String := "tree.tex"
  /-- Font family for Chinese, Japanese and Korean text. -/
  font : String := "gbsn"
  layout : Layout := {}
  deriving DecidableEq, Repr

/-- Some of the numbers of a layout. -/
structure Layout.Overlay where
  levelHeight : Option Int := none
  tokenGap : Option Int := none
  indexGap : Option Int := none
  margin : Option Nat := none
  indent : Option Nat := none
  deriving DecidableEq, Repr

def Layout.overlaid (layout : Layout) (overlay : Layout.Overlay) : Layout where
  levelHeight := overlay.levelHeight.getD layout.levelHeight
  tokenGap := overlay.tokenGap.getD layout.tokenGap
  indexGap := overlay.indexGap.getD layout.indexGap
  margin := overlay.margin.getD layout.margin
  indent := overlay.indent.getD layout.indent

namespace Settings

/-- Some of the settings. -/
structure Overlay where
  output : Option String := none
  font : Option String := none
  layout : Layout.Overlay := {}
  deriving DecidableEq, Repr

def overlaid (settings : Settings) (overlay : Overlay) : Settings where
  output := overlay.output.getD settings.output
  font := overlay.font.getD settings.font
  layout := settings.layout.overlaid overlay.layout

end Settings

end TreeFigure
