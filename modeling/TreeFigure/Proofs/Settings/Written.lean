import TreeFigure.Settings.Written
import TreeFigure.Proofs.Settings.Expansion
import TreeFigure.Proofs.Settings.Layers
import TreeFigure.Proofs.Source.Lines
import TreeFigure.Proofs.Toml.Statements

/-!
The written form of settings is a settings file that reproduces them. It gives every setting, so
that it wins over the user's file and the defaults, and every text and integer in it is read back.
-/

namespace TreeFigure

/-- The distances of a layout are integers of 64 bits. -/
structure Layout.Typed (layout : Layout) : Prop where
  levelHeight : Toml.IsInteger layout.levelHeight
  tokenGap : Toml.IsInteger layout.tokenGap
  indexGap : Toml.IsInteger layout.indexGap

namespace Settings

open Toml
open Environment (expand_of_notMem)

/-- The overlay that says everything about settings. -/
def complete (settings : Settings) : Overlay where
  output := some settings.output
  font := some settings.font
  layout :=
    { levelHeight := some settings.layout.levelHeight
      tokenGap := some settings.layout.tokenGap
      indexGap := some settings.layout.indexGap
      margin := some settings.layout.margin
      indent := some settings.layout.indent }

@[simp]
theorem overlaid_complete (below settings : Settings) :
    below.overlaid settings.complete = settings :=
  rfl

section Statements

variable (settings : Settings)

/-- What the written form says, line by line. -/
def written : List Statement :=
  [.assign ⟨[], "output"⟩ (.text settings.output),
    .assign ⟨[], "cjk_font"⟩ (.text settings.font),
    .header ⟨[], "layout"⟩,
    .assign ⟨[], "level_height"⟩ (.integer settings.layout.levelHeight),
    .assign ⟨[], "token_gap"⟩ (.integer settings.layout.tokenGap),
    .assign ⟨[], "index_gap"⟩ (.integer settings.layout.indexGap),
    .assign ⟨[], "margin"⟩ (.integer settings.layout.margin),
    .assign ⟨[], "indent"⟩ (.integer settings.layout.indent)]

def table : Table :=
  [("output", .text settings.output),
    ("cjk_font", .text settings.font),
    ("layout", .table .header
      [("level_height", .integer settings.layout.levelHeight),
        ("token_gap", .integer settings.layout.tokenGap),
        ("index_gap", .integer settings.layout.indexGap),
        ("margin", .integer settings.layout.margin),
        ("indent", .integer settings.layout.indent)])]

theorem ofStatements?_written : Table.ofStatements? settings.written = some settings.table := by
  rfl

theorem ofTable?_table : Overlay.ofTable? settings.table = some settings.complete := by
  rfl

theorem keyLine_append (key : String) (value rest : List Char) :
    keyLine key value ++ rest = key.toList ++ ' ' :: '=' :: ' ' :: (value ++ '\n' :: rest) := by
  have hmark : " = ".toList = [' ', '=', ' '] := by decide
  simp [keyLine, hmark]

variable {settings}

theorem statements_layout (fuel : Nat) (rest : List Char) :
    Scan.statements (fuel + 2) ("\n[layout]\n".toList ++ rest) =
      (Scan.statements fuel rest).map (.header ⟨[], "layout"⟩ :: ·) := by
  have hline : "\n[layout]\n".toList = '\n' :: '[' :: ("layout".toList ++ [']', '\n']) := by decide
  rw [hline, List.cons_append, List.cons_append, List.append_assoc, statements_blank]
  exact statements_header (by decide) fuel rest

theorem statements_keyLine (key : String) (hkey : IsBare key) {value : List Char} {item : Expr}
    (hvalue : Writes value item) (fuel : Nat) (rest : List Char) :
    Scan.statements (fuel + 1) (keyLine key value ++ rest) =
      (Scan.statements fuel rest).map (.assign ⟨[], key⟩ item :: ·) := by
  rw [keyLine_append]
  exact statements_assign hkey hvalue fuel rest

theorem statements_tomlChars (hlayout : settings.layout.Typed) (hwritable : settings.Writable)
    (fuel : Nat) :
    Scan.statements (fuel + 10) settings.tomlChars = some settings.written := by
  rw [tomlChars, ← List.append_nil (keyLine "indent" _)]
  simp only [List.append_assoc]
  rw [statements_keyLine "output" (by decide) (writes_text settings.output),
    statements_keyLine "cjk_font" (by decide) (writes_text settings.font), statements_layout,
    statements_keyLine "level_height" (by decide) (writes_integer hlayout.levelHeight),
    statements_keyLine "token_gap" (by decide) (writes_integer hlayout.tokenGap),
    statements_keyLine "index_gap" (by decide) (writes_integer hlayout.indexGap),
    statements_keyLine "margin" (by decide) (writes_natural hwritable.1),
    statements_keyLine "indent" (by decide) (writes_natural hwritable.2)]
  rfl

theorem length_tomlChars (settings : Settings) : 9 ≤ settings.tomlChars.length := by
  simp [tomlChars, keyLine]

theorem ofToml?_tomlChars (hlayout : settings.layout.Typed) (hwritable : settings.Writable) :
    Overlay.ofToml? (String.ofList settings.tomlChars) = some settings.complete := by
  have hmark : Scan.skipOrderMark settings.tomlChars = settings.tomlChars := by
    simp [tomlChars, keyLine, Scan.skipOrderMark]
  obtain ⟨extra, hlength⟩ := Nat.exists_eq_add_of_le' settings.length_tomlChars
  unfold Overlay.ofToml? Table.parse?
  dsimp only
  rw [String.toList_ofList, hmark, hlength, statements_tomlChars hlayout hwritable extra]
  simp only [Option.bind_eq_bind, Option.bind_some, ofStatements?_written, ofTable?_table]

end Statements

/-- A file that gives everything wins where no variable is a setting. -/
theorem loadFrom_complete {σ : Type} {files : Files (StateM σ)} (hfiles : files.Steady)
    {environment : Environment} (henvironment : environment.Silent) {settings : Settings}
    {userFile directory : Option String} {user : Overlay} {state : σ}
    (huser : Gives files state userFile user)
    (hdirectory : Gives files state (directory.map localFile) settings.complete) :
    (loadFrom files environment userFile directory state).1 =
      .ok { settings with output := environment.expand settings.output } := by
  have hlayered : layered environment user settings.complete = settings := by
    rw [layered, Overlay.ofEnvironment_eq_empty henvironment]
    rfl
  rw [loadFrom_eq hfiles, resolve_eq_ok_iff]
  refine ⟨user, settings.complete, (layerOverlay_eq_ok_iff hfiles).mpr huser,
    (layerOverlay_eq_ok_iff hfiles).mpr hdirectory, ?_⟩
  rw [hlayered]

/-- The written form of settings reproduces them, if their integers fit. It gives every setting,
whatever lies below. As the file in the directory it wins over the user's file, if no variable is a
setting, and the output stays as it is if it mentions no variable and no home directory. If the
margin or the indent does not fit, there is no written form. -/
theorem toToml_reproduces {settings : Settings} (hlayout : settings.layout.Typed) :
    (settings.layout.margin < Text.signedBound → settings.layout.indent < Text.signedBound →
      ∃ text, settings.toToml = .ok text ∧
        (∀ below : Settings, (Overlay.ofToml? text).map below.overlaid = some settings) ∧
        ('$' ∉ settings.output.toList → settings.output.toList.head? ≠ some '~' →
          ∀ {σ : Type} {files : Files (StateM σ)} {environment : Environment}
            {userFile : Option String} {directory : String} {user : Overlay} {state : σ},
            files.Steady → environment.Silent → Gives files state userFile user →
            (files.isPresent (localFile directory) state).1 = true →
            (files.openFile (localFile directory) state).1 = .ok { bytes := Source.encode text } →
            (loadFrom files environment userFile (some directory) state).1 = .ok settings)) ∧
    (Text.signedBound ≤ settings.layout.margin ∨ Text.signedBound ≤ settings.layout.indent →
      ∃ message, settings.toToml = .error (.config message)) := by
  constructor
  · intro hmargin hindent
    have hwritable : settings.Writable := ⟨hmargin, hindent⟩
    have hread := ofToml?_tomlChars hlayout hwritable
    refine ⟨String.ofList settings.tomlChars, if_pos hwritable, ?_, ?_⟩
    · intro below
      rw [hread, Option.map_some, overlaid_complete]
    · intro hdollar hhome σ files environment userFile directory user state hfiles henvironment
        huser hpresent hopen
      obtain ⟨table, htable, hreads⟩ := Overlay.ofToml?_eq_some_iff.mp hread
      have hdirectory : Gives files state ((some directory).map localFile) settings.complete :=
        .present hpresent hopen (Source.text_encode _) htable hreads
      rw [loadFrom_complete hfiles henvironment huser hdirectory,
        expand_of_notMem environment hdollar hhome]
  · intro hlarge
    have hunwritable : ¬ settings.Writable := by
      rintro ⟨hmargin, hindent⟩
      omega
    exact ⟨_, if_neg hunwritable⟩

/-- Quotes of both kinds, a backslash, a line feed, a control character and a negative distance,
over a user's file that says something else. -/
theorem toToml_reproduces_quotes :
    let settings : Settings :=
      { output := "a'\"\\b\n.tex"
        font := "\x07'''\"\"\""
        layout := { levelHeight := -3, indent := 0 } }
    let huge : Settings := { layout := { margin := Text.signedBound } }
    ∃ text, settings.toToml = .ok text ∧
      (Overlay.ofToml? text).map ({} : Settings).overlaid = some settings ∧
      (loadFrom Store.system { bindings := [("HOME", "/h")] } (some "user") (some "here")
        { files := [("user", Source.encode "output = 'x'\nlayout.margin = 1\n"),
            ("here/.treedraw.toml", Source.encode text)] }).1 = .ok settings ∧
      ∃ message, huge.toToml = .error (.config message) := by
  intro settings huge
  have hlayout : settings.layout.Typed := ⟨by decide, by decide, by decide⟩
  have hhuge : huge.layout.Typed := ⟨by decide, by decide, by decide⟩
  obtain ⟨text, hwritten, hread, hload⟩ :=
    (toToml_reproduces hlayout).1 (by decide +kernel) (by decide +kernel)
  have huser : ∃ table, Table.parse? "output = 'x'\nlayout.margin = 1\n" = some table ∧
      ({ output := some "x", layout := { margin := some 1 } } : Overlay).Reads table :=
    Overlay.ofToml?_eq_some_iff.mp (by decide +kernel)
  obtain ⟨table, htable, hreads⟩ := huser
  refine ⟨text, hwritten, hread {}, ?_, ?_⟩
  · exact hload (by decide +kernel) (by decide +kernel) Store.system_steady (by decide +kernel)
      (.present rfl rfl (Source.text_encode _) htable hreads) rfl rfl
  · exact (toToml_reproduces hhuge).2 (.inl (Nat.le_refl _))

end Settings

end TreeFigure
