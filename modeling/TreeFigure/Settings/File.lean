import TreeFigure.Settings.Basic
import TreeFigure.Toml.Parse

/-!
Settings files. A file is a TOML text whose keys are the settings; other keys are ignored. The
layout is a table or an array that gives its numbers in order, of which the last may be missing.
A value of a wrong type makes the whole file invalid.
-/

namespace TreeFigure.Settings

open Toml

/-- The text that is required where a value stands. -/
def textOf? : Value → Option String
  | .text text => some text
  | _ => none

/-- The integer that is required where a value stands. -/
def integerOf? : Value → Option Int
  | .integer n => some n
  | _ => none

/-- The natural number that is required where a value stands. -/
def naturalOf? (value : Value) : Option Nat := do
  let n ← integerOf? value
  if 0 ≤ n then some n.toNat else none

/-- Reads a value that may be missing. The result is missing if the value has the wrong type. -/
def optionally {α : Type} (read? : Value → Option α) : Option Value → Option (Option α)
  | none => some none
  | some value => (read? value).map some

/-- The numbers of a layout, each from the value found for it. -/
def layoutFrom? (levelHeight tokenGap indexGap margin indent : Option Value) :
    Option Layout.Overlay := do
  some
    { levelHeight := ← optionally integerOf? levelHeight
      tokenGap := ← optionally integerOf? tokenGap
      indexGap := ← optionally integerOf? indexGap
      margin := ← optionally naturalOf? margin
      indent := ← optionally naturalOf? indent }

/-- What a value says about the layout. A date counts as a table with no known key, and an array of
tables holds no number. -/
def layoutOf? : Value → Option Layout.Overlay
  | .table _ entries =>
    layoutFrom? (entries.lookup "level_height") (entries.lookup "token_gap")
      (entries.lookup "index_gap") (entries.lookup "margin") (entries.lookup "indent")
  | .array items => layoutFrom? items[0]? items[1]? items[2]? items[3]? items[4]?
  | .date => some {}
  | _ => none

/-- What a table says about the settings. -/
def Overlay.ofTable? (table : Table) : Option Overlay := do
  some
    { output := ← optionally textOf? (table.lookup "output")
      font := ← optionally textOf? (table.lookup "cjk_font")
      layout := (← optionally layoutOf? (table.lookup "layout")).getD {} }

/-- What the text of a settings file says. -/
def Overlay.ofToml? (text : String) : Option Overlay := do
  let table ← Table.parse? text
  Overlay.ofTable? table

end TreeFigure.Settings
