import TreeFigure.Failure
import TreeFigure.Settings.Basic
import TreeFigure.Text.Numeral
import TreeFigure.Toml.Quoted

/-!
Writing settings as a settings file. Every setting is written, so that the file wins over all
other files. An integer in such a file has 64 bits with its sign.
-/

namespace TreeFigure.Settings

/-- A line that gives a key a value. -/
def keyLine (key : String) (value : List Char) : List Char :=
  key.toList ++ " = ".toList ++ value ++ ['\n']

/-- The integers of a layout can be written. -/
def Writable (settings : Settings) : Prop :=
  settings.layout.margin < Text.signedBound ∧ settings.layout.indent < Text.signedBound

instance (settings : Settings) : Decidable settings.Writable :=
  inferInstanceAs (Decidable (_ ∧ _))

def tomlChars (settings : Settings) : List Char :=
  keyLine "output" (Toml.Quoted.write settings.output.toList) ++
  keyLine "cjk_font" (Toml.Quoted.write settings.font.toList) ++
  "\n[layout]\n".toList ++
  keyLine "level_height" (toString settings.layout.levelHeight).toList ++
  keyLine "token_gap" (toString settings.layout.tokenGap).toList ++
  keyLine "index_gap" (toString settings.layout.indexGap).toList ++
  keyLine "margin" (toString settings.layout.margin).toList ++
  keyLine "indent" (toString settings.layout.indent).toList

/-- The settings as the text of a settings file. -/
def toToml (settings : Settings) : Except Failure String :=
  if settings.Writable then .ok (String.ofList settings.tomlChars)
  else .error (.config "serialize settings: out-of-range value for u64 type")

end TreeFigure.Settings
