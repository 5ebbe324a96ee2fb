import TreeFigure.Settings.Basic
import TreeFigure.Text.Numeral
import TreeFigure.Text.Replace

/-!
The environment of a run and the settings in it. A variable names a setting by its key after a
mark, in letters of any case, with two underscores or a point between a section and its key. Of
several variables that name one setting the last one counts, and a value that cannot be converted to
the type of its setting is ignored.
-/

namespace TreeFigure

/-- The environment variables in their order, and the home directory of the user's account. -/
structure Environment where
  bindings : List (String × String)
  accountHome : Option String := none
  deriving Repr

namespace Environment

/-- The entry of a variable: its name and its value with an equals sign between them. -/
def entry (name value : String) : List Char :=
  name.toList ++ '=' :: value.toList

/-- What follows a name and an equals sign in an entry that begins with them. -/
def valueIn? (name entry : List Char) : Option (List Char) :=
  if (name ++ ['=']).isPrefixOf entry then some (entry.drop (name.length + 1)) else none

/-- The value of a variable: what follows its name in the first entry that begins with it. The part
of an entry up to a later equals sign is a name too, but the empty text is none. -/
def get? (environment : Environment) (name : String) : Option String :=
  if name.isEmpty then none
  else environment.bindings.findSome? fun (key, value) =>
    (valueIn? name.toList (entry key value)).map String.ofList

/-- The user's home directory: a variable that is not empty, or that of the account. -/
def home? (environment : Environment) : Option String :=
  match environment.get? "HOME" with
  | some home => if home.isEmpty then environment.accountHome else some home
  | none => environment.accountHome

end Environment

namespace Settings

/-- The mark in front of the variables that are settings. -/
def variableMark : List Char := "treedraw_".toList

/-- Lower case of a letter, where the Kelvin sign is a K. -/
def lower (c : Char) : Char :=
  if c = '\u212a' then 'k' else c.toLower

/-- The settings key that a variable names, with points between sections. -/
def keyOf? (name : String) : Option (List Char) :=
  let lowered := name.toList.map lower
  if variableMark.isPrefixOf lowered then
    some (Text.replace "__".toList ".".toList (lowered.drop variableMark.length))
  else none

/-- The value of the last variable that names a settings key. -/
def setting? (environment : Environment) (key : String) : Option String :=
  environment.bindings.reverse.findSome? fun (name, value) =>
    if keyOf? name = some key.toList then some value else none

/-- Words for one and zero in letters of any case. -/
def switch? (text : List Char) : Option Nat :=
  let word := text.map Char.toLower
  if word = "true".toList ∨ word = "on".toList ∨ word = "yes".toList then some 1
  else if word = "false".toList ∨ word = "off".toList ∨ word = "no".toList then some 0
  else none

def integerVariable? (text : String) : Option Int :=
  match switch? text.toList with
  | some n => some n
  | none => Text.integer? text.toList

def naturalVariable? (text : String) : Option Nat :=
  match switch? text.toList with
  | some n => some n
  | none => Text.natural? text.toList

/-- What the environment says about the settings. -/
def Overlay.ofEnvironment (environment : Environment) : Overlay where
  output := setting? environment "output"
  font := setting? environment "cjk_font"
  layout :=
    { levelHeight := (setting? environment "layout.level_height").bind integerVariable?
      tokenGap := (setting? environment "layout.token_gap").bind integerVariable?
      indexGap := (setting? environment "layout.index_gap").bind integerVariable?
      margin := (setting? environment "layout.margin").bind naturalVariable?
      indent := (setting? environment "layout.indent").bind naturalVariable? }

end Settings

end TreeFigure
