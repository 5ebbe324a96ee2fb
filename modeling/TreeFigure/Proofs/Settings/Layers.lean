import Mathlib.Data.List.Basic
import TreeFigure.Settings.Load
import TreeFigure.Proofs.Files.Lawful
import TreeFigure.Proofs.Settings.Variables

/-!
How settings are found over the layers: the defaults, the user's file, the file in the directory and
the environment. Loading fails over a file that is present and cannot be used, and in no other way.
Otherwise each field has the content of the last layer that says something about it.
-/

namespace TreeFigure.Settings

section Files

variable {σ : Type} (files : Files (StateM σ)) (state : σ)

/-- What a settings file says that may be missing. -/
inductive Gives : Option String → Overlay → Prop
  | nowhere : Gives none {}
  | missing {path : String} (hmissing : (files.isPresent path state).1 = false) :
      Gives (some path) {}
  | present {path text : String} {source : Source} {table : Toml.Table} {overlay : Overlay}
      (hpresent : (files.isPresent path state).1 = true)
      (hopen : (files.openFile path state).1 = .ok source) (htext : source.text = .ok text)
      (htable : Toml.Table.parse? text = some table) (hreads : overlay.Reads table) :
      Gives (some path) overlay

/-- A settings file that is present cannot be opened, has no text, or its text is not that of a
settings file. -/
inductive Refuses : Option String → Failure → Prop
  | unopened {path reason : String} (hpresent : (files.isPresent path state).1 = true)
      (hopen : (files.openFile path state).1 = .error reason) :
      Refuses (some path) (.config ("read " ++ path ++ ": " ++ reason))
  | unreadable {path reason : String} {source : Source}
      (hpresent : (files.isPresent path state).1 = true)
      (hopen : (files.openFile path state).1 = .ok source) (htext : source.text = .error reason) :
      Refuses (some path) (.config ("read " ++ path ++ ": " ++ reason))
  | invalid {path text : String} {source : Source}
      (hpresent : (files.isPresent path state).1 = true)
      (hopen : (files.openFile path state).1 = .ok source) (htext : source.text = .ok text)
      (hinvalid : ∀ table, Toml.Table.parse? text = some table →
        ∀ overlay : Overlay, ¬ overlay.Reads table) :
      Refuses (some path) (.config ("parse " ++ path))

end Files

section Overlays

theorem Overlay.ofToml?_eq_some_iff {text : String} {overlay : Overlay} :
    Overlay.ofToml? text = some overlay ↔
      ∃ table, Toml.Table.parse? text = some table ∧ overlay.Reads table := by
  simp only [Overlay.ofToml?, Option.bind_eq_bind, Option.bind_eq_some_iff,
    ofTable?_eq_some_iff_reads]

variable {σ : Type} {files : Files (StateM σ)} {state : σ} {path? : Option String}

theorem findLayer_some (hfiles : files.Steady) (path : String) :
    findLayer files (some path) state =
      (if (files.isPresent path state).1 then
        some ⟨path, (files.openFile path state).1.bind Source.text⟩ else none, state) := by
  have hlook := hfiles.isPresent path state
  have hopen := hfiles.openFile path state
  unfold findLayer
  dsimp only [bind, StateT.bind]
  cases hpresent : files.isPresent path state with
  | mk present next =>
    obtain rfl : next = state := by rw [← hlook, hpresent]
    cases present with
    | false => rfl
    | true => exact Prod.ext rfl hopen

theorem findLayer_state (hfiles : files.Steady) (path? : Option String) :
    (findLayer files path? state).2 = state := by
  cases path? with
  | none => rfl
  | some path => rw [findLayer_some hfiles]

theorem layer_overlay_eq_ok_iff {layer : Layer} {overlay : Overlay} :
    layer.overlay = .ok overlay ↔
      ∃ text, layer.content = .ok text ∧ Overlay.ofToml? text = some overlay := by
  unfold Layer.overlay
  cases layer.content with
  | error reason => simp
  | ok text =>
    cases hread : Overlay.ofToml? text with
    | none => simp [hread]
    | some found => simp [hread]

theorem layer_overlay_eq_error_iff {layer : Layer} {failure : Failure} :
    layer.overlay = .error failure ↔
      (∃ reason, layer.content = .error reason ∧
        failure = .config ("read " ++ layer.path ++ ": " ++ reason)) ∨
      ∃ text, layer.content = .ok text ∧ Overlay.ofToml? text = none ∧
        failure = .config ("parse " ++ layer.path) := by
  unfold Layer.overlay
  cases layer.content with
  | error reason => simp [eq_comm]
  | ok text =>
    cases hread : Overlay.ofToml? text with
    | none => simp [hread, eq_comm]
    | some found => simp [hread]

theorem bind_text_eq_ok_iff {opened : Except String Source} {text : String} :
    opened.bind Source.text = .ok text ↔
      ∃ source, opened = .ok source ∧ source.text = .ok text := by
  cases opened with
  | error reason => simp [Except.bind]
  | ok source => simp [Except.bind]

theorem bind_text_eq_error_iff {opened : Except String Source} {reason : String} :
    opened.bind Source.text = .error reason ↔
      opened = .error reason ∨ ∃ source, opened = .ok source ∧ source.text = .error reason := by
  cases opened with
  | error found => simp [Except.bind]
  | ok source => simp [Except.bind]

/-- What is found of a settings file is used exactly if the file gives it. -/
theorem layerOverlay_eq_ok_iff (hfiles : files.Steady) {overlay : Overlay} :
    layerOverlay (findLayer files path? state).1 = .ok overlay ↔
      Gives files state path? overlay := by
  cases path? with
  | none =>
    constructor
    · rintro ⟨⟩
      exact .nowhere
    · rintro ⟨⟩
      rfl
  | some path =>
    rw [findLayer_some hfiles]
    cases hpresent : (files.isPresent path state).1 with
    | false =>
      constructor
      · rintro ⟨⟩
        exact .missing hpresent
      · intro h
        cases h with
        | missing => rfl
        | present hfound => exact absurd (hpresent.symm.trans hfound) Bool.false_ne_true
    | true =>
      refine layer_overlay_eq_ok_iff.trans ?_
      simp only [bind_text_eq_ok_iff, Overlay.ofToml?_eq_some_iff]
      constructor
      · rintro ⟨text, ⟨source, hopen, htext⟩, table, htable, hreads⟩
        exact .present hpresent hopen htext htable hreads
      · intro h
        cases h with
        | missing hmissing => exact absurd (hmissing.symm.trans hpresent) Bool.false_ne_true
        | present _ hopen htext htable hreads =>
          exact ⟨_, ⟨_, hopen, htext⟩, _, htable, hreads⟩

theorem layerOverlay_eq_error_iff (hfiles : files.Steady) {failure : Failure} :
    layerOverlay (findLayer files path? state).1 = .error failure ↔
      Refuses files state path? failure := by
  cases path? with
  | none =>
    constructor
    · rintro ⟨⟩
    · rintro ⟨⟩
  | some path =>
    rw [findLayer_some hfiles]
    cases hpresent : (files.isPresent path state).1 with
    | false =>
      constructor
      · rintro ⟨⟩
      · intro h
        cases h with
        | unopened hfound | unreadable hfound | invalid hfound =>
          exact absurd (hpresent.symm.trans hfound) Bool.false_ne_true
    | true =>
      refine layer_overlay_eq_error_iff.trans ?_
      simp only [bind_text_eq_error_iff, bind_text_eq_ok_iff]
      constructor
      · rintro (⟨reason, hopen | ⟨source, hopen, htext⟩, rfl⟩ |
          ⟨text, ⟨source, hopen, htext⟩, hread, rfl⟩)
        · exact .unopened hpresent hopen
        · exact .unreadable hpresent hopen htext
        · refine .invalid hpresent hopen htext fun table htable overlay hreads => ?_
          have hsome := Overlay.ofToml?_eq_some_iff.mpr ⟨table, htable, hreads⟩
          rw [hread] at hsome
          cases hsome
      · intro h
        cases h with
        | unopened _ hopen => exact .inl ⟨_, .inl hopen, rfl⟩
        | unreadable _ hopen htext => exact .inl ⟨_, .inr ⟨_, hopen, htext⟩, rfl⟩
        | invalid _ hopen htext hinvalid =>
          refine .inr ⟨_, ⟨_, hopen, htext⟩, ?_, rfl⟩
          rw [Option.eq_none_iff_forall_ne_some]
          intro overlay hread
          obtain ⟨table, htable, hreads⟩ := Overlay.ofToml?_eq_some_iff.mp hread
          exact hinvalid table htable overlay hreads

/-- Both files are looked for, one after the other, before the settings are resolved. -/
theorem loadFrom_apply (environment : Environment) (userFile directory : Option String) :
    loadFrom files environment userFile directory state =
      (resolve environment (findLayer files userFile state).1
          (findLayer files (directory.map localFile) (findLayer files userFile state).2).1,
        (findLayer files (directory.map localFile) (findLayer files userFile state).2).2) :=
  rfl

theorem loadFrom_eq (hfiles : files.Steady) (environment : Environment)
    (userFile directory : Option String) :
    (loadFrom files environment userFile directory state).1 =
      resolve environment (findLayer files userFile state).1
        (findLayer files (directory.map localFile) state).1 := by
  rw [loadFrom_apply, findLayer_state hfiles userFile]

end Overlays

section Resolve

variable {environment : Environment} {user inDirectory : Option Layer}

/-- The settings from what the layers say, before the path of the output is expanded. -/
def layered (environment : Environment) (user inDirectory : Overlay) : Settings :=
  ((({} : Settings).overlaid user).overlaid inDirectory).overlaid
    (Overlay.ofEnvironment environment)

theorem resolve_eq_error_iff {failure : Failure} :
    resolve environment user inDirectory = .error failure ↔
      layerOverlay user = .error failure ∨
        ∃ first, layerOverlay user = .ok first ∧ layerOverlay inDirectory = .error failure := by
  unfold resolve
  dsimp only [bind, Except.bind]
  cases layerOverlay user with
  | error found => simp
  | ok first =>
    cases layerOverlay inDirectory with
    | error found => simp
    | ok second => simp

theorem resolve_eq_ok_iff {settings : Settings} :
    resolve environment user inDirectory = .ok settings ↔
      ∃ first second, layerOverlay user = .ok first ∧ layerOverlay inDirectory = .ok second ∧
        settings = { layered environment first second with
          output := environment.expand (layered environment first second).output } := by
  unfold resolve
  dsimp only [bind, Except.bind]
  cases layerOverlay user with
  | error found => simp
  | ok first =>
    cases layerOverlay inDirectory with
    | error found => simp
    | ok second => simp [layered, eq_comm]

end Resolve

section Fields

variable {environment : Environment} {user inDirectory : Overlay} {field : Field}

/-- No variable for the field can be converted. -/
def Field.Unset (field : Field) (environment : Environment) : Prop :=
  ∀ name text, (name, text) ∈ environment.bindings → field.NamedBy name →
    field.ofVariable? text = none

/-- The content that a field has over the layers, which is that of the highest layer that says
something about it. -/
inductive Field.Resolved (environment : Environment) (user inDirectory : Overlay) (field : Field) :
    field.Content → Prop
  | named {name text : String} {content : field.Content}
      (hmem : (name, text) ∈ environment.bindings) (hname : field.NamedBy name)
      (hcontent : field.ofVariable? text = some content) :
      Resolved environment user inDirectory field content
  | inDirectory {content : field.Content} (hunset : field.Unset environment)
      (hgiven : field.given? inDirectory = some content) :
      Resolved environment user inDirectory field content
  | user {content : field.Content} (hunset : field.Unset environment)
      (hsilent : field.given? inDirectory = none) (hgiven : field.given? user = some content) :
      Resolved environment user inDirectory field content
  | default (hunset : field.Unset environment) (hsilent : field.given? inDirectory = none)
      (hnowhere : field.given? user = none) :
      Resolved environment user inDirectory field (field.of {})

theorem Field.unset_iff (h : environment.NamesOnce) :
    field.Unset environment ↔ field.given? (Overlay.ofEnvironment environment) = none := by
  rw [Option.eq_none_iff_forall_ne_some]
  constructor
  · intro hunset content hgiven
    obtain ⟨name, text, hmem, hname, hcontent⟩ := (given?_ofEnvironment_eq_some_iff h).mp hgiven
    rw [hunset name text hmem hname] at hcontent
    cases hcontent
  · intro hnone name text hmem hname
    rw [Option.eq_none_iff_forall_ne_some]
    intro content hcontent
    exact hnone content
      ((given?_ofEnvironment_eq_some_iff h).mpr ⟨name, text, hmem, hname, hcontent⟩)

theorem Field.of_layered (field : Field) :
    field.of (layered environment user inDirectory) =
      (field.given? (Overlay.ofEnvironment environment)).getD
        ((field.given? inDirectory).getD ((field.given? user).getD (field.of {}))) := by
  rw [layered, of_overlaid, of_overlaid, of_overlaid]

/-- Overlaying the layers resolves every field on its own. -/
theorem Field.resolved_iff (h : environment.NamesOnce) {content : field.Content} :
    field.Resolved environment user inDirectory content ↔
      field.of (layered environment user inDirectory) = content := by
  rw [of_layered]
  constructor
  · intro hresolved
    cases hresolved with
    | named hmem hname hcontent =>
      rw [(given?_ofEnvironment_eq_some_iff h).mpr ⟨_, _, hmem, hname, hcontent⟩]
      rfl
    | inDirectory hunset hgiven =>
      rw [(unset_iff h).mp hunset, hgiven]
      rfl
    | user hunset hsilent hgiven =>
      rw [(unset_iff h).mp hunset, hsilent, hgiven]
      rfl
    | default hunset hsilent hnowhere =>
      rw [(unset_iff h).mp hunset, hsilent, hnowhere]
      rfl
  · rintro rfl
    cases henvironment : field.given? (Overlay.ofEnvironment environment) with
    | some content =>
      obtain ⟨name, text, hmem, hname, hcontent⟩ :=
        (given?_ofEnvironment_eq_some_iff h).mp henvironment
      exact .named hmem hname hcontent
    | none =>
      have hunset := (unset_iff h).mpr henvironment
      cases hdirectory : field.given? inDirectory with
      | some content => exact .inDirectory hunset hdirectory
      | none =>
        cases huser : field.given? user with
        | some content => exact .user hunset hdirectory huser
        | none => exact .default hunset hdirectory huser

end Fields

/-- Settings are found field by field over four layers. Loading fails exactly over a file that is
present and cannot be used, over the user's file first, whatever the environment is. Otherwise each
field has the content of its variable, if that can be converted, else what the file in the directory
says about it, else what the user's file says, else the default. In the end the output is expanded
once, whichever layer it comes from. -/
theorem loadFrom_resolves_fields {σ : Type} {files : Files (StateM σ)} (hfiles : files.Steady)
    {environment : Environment} (henvironment : environment.NamesOnce)
    (userFile directory : Option String) (state : σ) :
    (∀ failure, (loadFrom files environment userFile directory state).1 = .error failure ↔
      Refuses files state userFile failure ∨
        (∃ first, Gives files state userFile first) ∧
          Refuses files state (directory.map localFile) failure) ∧
    (∀ settings, (loadFrom files environment userFile directory state).1 = .ok settings →
      ∃ first second unexpanded, Gives files state userFile first ∧
        Gives files state (directory.map localFile) second ∧
        (∀ (field : Field) (content : field.Content),
          field.Resolved environment first second content ↔ field.of unexpanded = content) ∧
        settings = { unexpanded with output := environment.expand unexpanded.output }) := by
  rw [loadFrom_eq hfiles]
  refine ⟨fun failure => ?_, fun settings hsettings => ?_⟩
  · simp only [resolve_eq_error_iff, layerOverlay_eq_ok_iff hfiles,
      layerOverlay_eq_error_iff hfiles, exists_and_right]
  · obtain ⟨first, second, hfirst, hsecond, rfl⟩ := resolve_eq_ok_iff.mp hsettings
    exact ⟨first, second, layered environment first second,
      (layerOverlay_eq_ok_iff hfiles).mp hfirst, (layerOverlay_eq_ok_iff hfiles).mp hsecond,
      fun field content => field.resolved_iff henvironment, rfl⟩

/-- Two files and three variables, of which one cannot be converted, and a file that is no text. -/
theorem loadFrom_resolves_fields_mixed :
    let store : Store :=
      { files :=
          [("user", Source.encode "cjk_font = 'song'\n[layout]\nmargin = 9\nindent = 1\n"),
            ("here/.treedraw.toml", Source.encode "output = \"$NAME.tex\"\nlayout.indent = 2\n"),
            ("bad/.treedraw.toml", [255])] }
    let environment : Environment :=
      { bindings :=
          [("NAME", "fig"), ("TREEDRAW_LAYOUT__MARGIN", "wide"),
            ("treedraw_Layout.level_height", "on")] }
    let layout : Layout := { levelHeight := 1, margin := 9, indent := 2 }
    environment.NamesOnce ∧
      (loadFrom Store.system environment (some "user") (some "here") store).1 =
        .ok { output := "fig.tex", font := "song", layout } ∧
      (∃ first second, Gives Store.system store (some "user") first ∧
        Gives Store.system store (some "here/.treedraw.toml") second ∧
        Field.levelHeight.Resolved environment first second (1 : Int) ∧
        Field.margin.Resolved environment first second (9 : Nat) ∧
        Field.indent.Resolved environment first second (2 : Nat)) ∧
      (loadFrom Store.system environment (some "bad/.treedraw.toml") (some "bad") store).1 =
        .error (.config
          "read bad/.treedraw.toml: stream did not contain valid UTF-8") ∧
      Refuses Store.system store (some "bad/.treedraw.toml")
        (.config "read bad/.treedraw.toml: stream did not contain valid UTF-8") := by
  intro store environment layout
  have hnames : environment.NamesOnce := by decide +kernel
  have hresult : (loadFrom Store.system environment (some "user") (some "here") store).1 =
      .ok { output := "fig.tex", font := "song", layout } := by decide +kernel
  have hfailure : (loadFrom Store.system environment (some "bad/.treedraw.toml") (some "bad")
      store).1 = .error (.config
        "read bad/.treedraw.toml: stream did not contain valid UTF-8") := by
    decide +kernel
  have hfound := loadFrom_resolves_fields Store.system_steady hnames (some "user") (some "here")
    store
  have hlost := loadFrom_resolves_fields Store.system_steady hnames (some "bad/.treedraw.toml")
    (some "bad") store
  refine ⟨hnames, hresult, ?_, hfailure, ?_⟩
  · obtain ⟨first, second, unexpanded, hfirst, hsecond, hfield, heq⟩ := hfound.2 _ hresult
    have hlayout : layout = unexpanded.layout := congrArg Settings.layout heq
    exact ⟨first, second, hfirst, hsecond,
      (hfield .levelHeight _).mpr (congrArg Layout.levelHeight hlayout).symm,
      (hfield .margin _).mpr (congrArg Layout.margin hlayout).symm,
      (hfield .indent _).mpr (congrArg Layout.indent hlayout).symm⟩
  · rcases (hlost.1 _).mp hfailure with huser | ⟨-, hdirectory⟩
    · exact huser
    · exact hdirectory

end TreeFigure.Settings
