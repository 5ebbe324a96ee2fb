import TreeFigure.Command.Run
import TreeFigure.Proofs.Command.Reading
import TreeFigure.Proofs.Drawing.Trouble
import TreeFigure.Proofs.Files.Directory
import TreeFigure.Proofs.Settings.Layers

/-!
What a command line does to the files, and how it ends. The exit status tells whether something was
drawn: a run that ends with another status than zero wrote nothing, neither to a file nor to the
output. Completions come before the settings, and the settings before the line that is drawn.
-/

namespace TreeFigure

theorem Failure.exitCode_ne_zero (failure : Failure) : failure.exitCode ≠ 0 := by
  cases failure <;> exact Nat.succ_ne_zero _

namespace Settings

variable {σ φ : Type} {files : Files (StateM σ)} {content : σ → φ → Option (List UInt8)}
  {place : σ → String → φ}

theorem findLayer_preserves (h : files.Searchable content place) (path? : Option String)
    (state : σ) :
    content (findLayer files path? state).2 = content state ∧
      place (findLayer files path? state).2 = place state := by
  cases path? with
  | none => exact ⟨rfl, rfl⟩
  | some path =>
    have hcontent := h.content_isPresent path state
    have hplace := h.place_isPresent path state
    unfold findLayer
    dsimp only [bind, StateT.bind]
    generalize files.isPresent path state = looked at hcontent hplace ⊢
    obtain ⟨present, next⟩ := looked
    cases present with
    | false => exact ⟨hcontent, hplace⟩
    | true =>
      exact ⟨(h.content_openFile path next).trans hcontent,
        (h.place_openFile path next).trans hplace⟩

theorem loadFrom_preserves (h : files.Searchable content place) (environment : Environment)
    (userFile directory : Option String) (state : σ) :
    content (loadFrom files environment userFile directory state).2 = content state ∧
      place (loadFrom files environment userFile directory state).2 = place state := by
  obtain ⟨hcontent, hplace⟩ := findLayer_preserves h userFile state
  obtain ⟨hsecond, hthere⟩ := findLayer_preserves h (directory.map localFile)
    (findLayer files userFile state).2
  rw [loadFrom_apply]
  exact ⟨hsecond.trans hcontent, hthere.trans hplace⟩

theorem exists_config_of_layerOverlay {layer? : Option Layer} {failure : Failure}
    (h : layerOverlay layer? = .error failure) : ∃ message, failure = .config message := by
  cases layer? with
  | none => cases h
  | some layer =>
    rcases layer_overlay_eq_error_iff.mp h with ⟨reason, -, rfl⟩ | ⟨text, -, -, rfl⟩
    · exact ⟨_, rfl⟩
    · exact ⟨_, rfl⟩

/-- Loading fails over nothing but the configuration. -/
theorem exists_config_of_loadFrom {environment : Environment} {userFile directory : Option String}
    {state : σ} {failure : Failure}
    (h : (loadFrom files environment userFile directory state).1 = .error failure) :
    ∃ message, failure = .config message := by
  rw [loadFrom_apply] at h
  rcases resolve_eq_error_iff.mp h with huser | ⟨first, -, hdirectory⟩
  · exact exists_config_of_layerOverlay huser
  · exact exists_config_of_layerOverlay hdirectory

end Settings

namespace Command

section Run

variable {σ φ : Type} {host : Host (StateM σ)} {arguments : Arguments} {before : σ}

theorem runLine_eq {line : List String} (h : Arguments.parse line = .ok arguments) :
    runLine host line = run host arguments := by
  rw [runLine, h]

theorem run_completion {shell : Shell} (h : arguments.completion = some shell) :
    run host arguments before = (.completions shell, before) := by
  rw [run, h]
  rfl

theorem loadSettings_eq {directory : String} (h : host.directory = .ok directory) :
    loadSettings host = Settings.load host.files host.environment directory := by
  rw [loadSettings, h]

/-- Without a wish for completions a run loads the settings and goes on with them. -/
theorem run_of_completion_eq_none (h : arguments.completion = none) :
    run host arguments before =
      match loadSettings host before with
      | (.error failure, after) => (.ended (failed host.colour failure), after)
      | (.ok settings, after) =>
        (.ended (carryOut host arguments (effective arguments settings) after).1,
          (carryOut host arguments (effective arguments settings) after).2) := by
  rw [run, h]
  dsimp only [bind, StateT.bind]
  cases loadSettings host before with
  | mk loaded after =>
    cases loaded with
    | error failure => rfl
    | ok settings => rfl

theorem run_eq {directory : String} (hcompletion : arguments.completion = none)
    (hdirectory : host.directory = .ok directory) :
    run host arguments before =
      match Settings.load host.files host.environment directory before with
      | (.error failure, after) => (.ended (failed host.colour failure), after)
      | (.ok settings, after) =>
        (.ended (carryOut host arguments (effective arguments settings) after).1,
          (carryOut host arguments (effective arguments settings) after).2) := by
  rw [run_of_completion_eq_none hcompletion, loadSettings_eq hdirectory]

theorem carryOut_shown (h : arguments.showConfig = true) (settings : Settings) :
    carryOut host arguments settings before = (shown host.colour settings, before) := by
  rw [carryOut, if_pos h]
  rfl

theorem carryOut_drawing {path : String} {index : Nat} (hshow : arguments.showConfig = false)
    (hpath : arguments.treeFile = some path) (hindex : arguments.line = some index)
    (settings : Settings) :
    carryOut host arguments settings before =
      match Drawing.draw host.files settings path index before with
      | (.error failure, after) => (failed host.colour failure, after)
      | (.ok report, after) => (drawn host.colour arguments.printTree index report, after) := by
  rw [carryOut, hshow, hpath, hindex, if_neg Bool.false_ne_true]
  dsimp only [bind, StateT.bind]
  cases Drawing.draw host.files settings path index before with
  | mk result after =>
    cases result with
    | error failure => rfl
    | ok report => rfl

end Run

/-- The settings are printed, unless they have no written form. -/
structure EndsShowing (settings : Settings) (ending : Ending) : Prop where
  printed : ∀ text, settings.toToml = .ok text →
    ending.exitCode = 0 ∧ ending.out = text ++ "\n"
  refused : ∀ failure, settings.toToml = .error failure →
    ending.exitCode = 78 ∧ ending.out = ""

theorem endsShowing_shown (colour : Bool) (settings : Settings) :
    EndsShowing settings (shown colour settings) where
  printed text htext := by
    rw [shown, htext]
    exact ⟨rfl, rfl⟩
  refused failure hfailure := by
    rw [shown, hfailure]
    unfold Settings.toToml at hfailure
    split at hfailure
    case isTrue => cases hfailure
    case isFalse =>
      obtain rfl := Except.error.inj hfailure
      exact ⟨rfl, rfl⟩

section Drawing

variable {σ φ : Type} (files : Files (StateM σ)) (content : σ → φ → Option (List UInt8))
  (place : σ → String → φ) (settings : Settings) (path : String) (index : Nat)

/-- How a run ends that draws from one state of the files to another. The exit status is zero
exactly if drawing succeeds. Then the output holds the document, nothing else has changed, and what
is printed is the outline of the tree if that is wanted and a summary. Otherwise nothing has
changed, nothing is printed, and the status tells why. -/
structure EndsDrawing (printTree colour : Bool) (state : σ) (ending : Ending) (after : σ) :
    Prop where
  succeeds_iff : ending.exitCode = 0 ↔
    ∃ report, (Drawing.draw files settings path index state).1 = .ok report
  drawn : ending.exitCode = 0 → ∃ record tree text,
    (Drawing.load files path index state).1 = .ok ⟨record, tree⟩ ∧
    Document.render? settings.layout settings.font tree record.tokens = some text ∧
    content after (place state settings.output) = some (Source.encode text) ∧
    (∀ other, other ≠ place state settings.output → content after other = content state other) ∧
    ending.out = (if printTree then tree.outline ++ "\n" else "") ++
      (painted colour "32" "✓" ++ " " ++ settings.output ++ " (line " ++ toString index ++
        ", height " ++ toString tree.height ++ ", " ++ toString tree.leaves.length ++
        " leaves, " ++ toString record.tokens.length ++ " tokens)\n")
  refused : ending.exitCode ≠ 0 → content after = content state ∧ ending.out = ""
  status_iff : ∀ status, Drawing.Fails files settings path index state status ↔
    ending.exitCode = status ∧ status ≠ 0

variable {files content place settings path index}

theorem endsDrawing_failed (h : files.Lawful content place) {failure : Failure} {state after : σ}
    (hdraw : Drawing.draw files settings path index state = (.error failure, after))
    (printTree colour : Bool) :
    EndsDrawing files content place settings path index printTree colour state
      (failed colour failure) after where
  succeeds_iff := by
    rw [hdraw]
    constructor
    · intro hzero
      exact absurd hzero (failure.exitCode_ne_zero)
    · rintro ⟨report, ⟨⟩⟩
  drawn hzero := absurd hzero (failure.exitCode_ne_zero)
  refused _ := ⟨Drawing.content_of_draw_error h hdraw, rfl⟩
  status_iff status := by
    rw [Drawing.fails_iff, hdraw]
    constructor
    · rintro ⟨found, heq, rfl⟩
      obtain rfl := Except.error.inj heq
      exact ⟨rfl, failure.exitCode_ne_zero⟩
    · rintro ⟨rfl, -⟩
      exact ⟨failure, rfl, rfl⟩

theorem endsDrawing_drawn (h : files.Lawful content place) {report : Drawing.Report}
    {state after : σ}
    (hdraw : Drawing.draw files settings path index state = (.ok report, after))
    (printTree colour : Bool) :
    EndsDrawing files content place settings path index printTree colour state
      (Command.drawn colour printTree index report) after where
  succeeds_iff := by
    rw [hdraw]
    exact iff_of_true rfl ⟨report, rfl⟩
  drawn _ := by
    obtain ⟨loaded, text, hload, hdocument, rfl, hfile, hothers⟩ :=
      Drawing.effect_of_draw_ok h hdraw
    exact ⟨loaded.record, loaded.tree, text, hload, Drawing.document_eq_ok_iff.mp hdocument, hfile,
      hothers, rfl⟩
  refused hne := absurd rfl hne
  status_iff status := by
    rw [Drawing.fails_iff, hdraw]
    constructor
    · rintro ⟨failure, ⟨⟩, -⟩
    · rintro ⟨rfl, hne⟩
      exact absurd rfl hne

theorem endsDrawing_carryOut (host : Host (StateM σ)) (h : host.files.Lawful content place)
    {arguments : Arguments} (hshow : arguments.showConfig = false)
    (hpath : arguments.treeFile = some path) (hindex : arguments.line = some index) (state : σ) :
    EndsDrawing host.files content place settings path index arguments.printTree host.colour state
      (carryOut host arguments settings state).1 (carryOut host arguments settings state).2 := by
  rw [carryOut_drawing hshow hpath hindex]
  cases hdraw : Drawing.draw host.files settings path index state with
  | mk result after =>
    cases result with
    | error failure => exact endsDrawing_failed h hdraw arguments.printTree host.colour
    | ok report => exact endsDrawing_drawn h hdraw arguments.printTree host.colour

end Drawing

/-- The exit status of a command line and what it does agree. Completions need nothing and change
nothing. Otherwise a bad configuration ends the run before anything else is looked at. Otherwise the
settings, with the output as the command line gives it, are shown, or the line is drawn under
them. -/
theorem runLine_status_and_effect {σ φ : Type} {files : Files (StateM σ)}
    {content : σ → φ → Option (List UInt8)} {place : σ → String → φ}
    (hfiles : files.Searchable content place) {line : List String} {arguments : Arguments}
    (hline : Arguments.parse line = .ok arguments) (environment : Environment)
    (directory : String) (colour : Bool) (before : σ) :
    let host : Host (StateM σ) := { files, environment, directory := .ok directory, colour }
    let loading := Settings.load files environment directory before
    content loading.2 = content before ∧ place loading.2 = place before ∧
    (∀ shell, arguments.completion = some shell →
      runLine host line before = (.completions shell, before) ∧
        (Outcome.completions shell).exitCode = 0) ∧
    (arguments.completion = none →
      ∃ ending after, runLine host line before = (.ended ending, after) ∧
        (∀ failure, loading.1 = .error failure →
          after = loading.2 ∧ ending.exitCode = 78 ∧ ending.out = "") ∧
        ∀ settings, loading.1 = .ok settings →
          let used := { settings with output := arguments.output.getD settings.output }
          (arguments.showConfig = true → after = loading.2 ∧ EndsShowing used ending) ∧
          (arguments.showConfig = false →
            ∃ path index, arguments.treeFile = some path ∧ arguments.line = some index ∧
              EndsDrawing files content place used path index arguments.printTree colour loading.2
                ending after)) := by
  intro host loading
  obtain ⟨hcontent, hplace⟩ := Settings.loadFrom_preserves hfiles environment
    (Settings.userFile? environment) (some directory) before
  refine ⟨hcontent, hplace, ?_, ?_⟩
  · intro shell hshell
    rw [runLine_eq hline]
    exact ⟨run_completion hshell, rfl⟩
  · intro hcompletion
    cases hloading : loading with
    | mk loaded state =>
      have hload : Settings.load host.files host.environment directory before = (loaded, state) :=
        hloading
      rw [runLine_eq hline, run_eq hcompletion rfl, hload]
      cases loaded with
      | error failure =>
        obtain ⟨message, rfl⟩ := Settings.exists_config_of_loadFrom (congrArg Prod.fst hloading)
        refine ⟨_, _, rfl, ?_, ?_⟩
        · rintro found -
          exact ⟨rfl, rfl, rfl⟩
        · rintro settings ⟨⟩
      | ok settings =>
        refine ⟨_, _, rfl, ?_, ?_⟩
        · rintro failure ⟨⟩
        · rintro found heq
          obtain rfl := Except.ok.inj heq
          refine ⟨fun hshow => ?_, fun hshow => ?_⟩
          · rw [carryOut_shown hshow]
            exact ⟨rfl, endsShowing_shown colour _⟩
          · rcases asks_of_parse hline with hasked | hasked | ⟨path, index, hpath, hindex⟩
            · rw [hcompletion] at hasked
              cases hasked
            · rw [hshow] at hasked
              cases hasked
            · exact ⟨path, index, hpath, hindex,
                endsDrawing_carryOut host hfiles.toLawful hshow hpath hindex state⟩

/-- A line is drawn to an output that is not expanded, a line is missing, and a configuration is
broken, which only a wish for completions survives. -/
theorem runLine_status_and_effect_directory :
    let directory := (Directory.empty ["w"]).put "bank"
      (.file (Source.encode "(S a b) ||||| x y\n"))
    let broken := directory.put ".treedraw.toml" (.file (Source.encode "output = 1"))
    let environment : Environment := { bindings := [("HOME", "/h"), ("X", "figure")] }
    let host : Host (StateM Directory) :=
      { files := Directory.system, environment, directory := .ok "/w" }
    (∃ ending after text,
      runLine host ["bank", "0", "-o", "$X.tex"] directory = (.ended ending, after) ∧
        ending.exitCode = 0 ∧
        ending.out = "✓ $X.tex (line 0, height 2, 2 leaves, 2 tokens)\n" ∧
        Document.render? {} "gbsn" (.node "S" [.leaf "a", .leaf "b"]) ["x", "y"] = some text ∧
        after.content? ["w", "$X.tex"] = some (Source.encode text) ∧
        after.content? ["w", "bank"] = directory.content? ["w", "bank"]) ∧
      (∃ ending after, runLine host ["bank", "1"] directory = (.ended ending, after) ∧
        ending.exitCode = 65 ∧ ending.out = "" ∧ after.content? = directory.content?) ∧
      (∃ ending after, runLine host ["bank", "0"] broken = (.ended ending, after) ∧
        ending.exitCode = 78 ∧ after.content? = broken.content?) ∧
      runLine host ["--completion=bash"] broken = (.completions .bash, broken) := by
  intro directory broken environment host
  have hlaws := Directory.system_searchable
  have hdrawing : Arguments.parse ["bank", "0", "-o", "$X.tex"] =
      .ok { treeFile := some "bank", line := some 0, output := some "$X.tex" } := by
    decide +kernel
  have hnext : Arguments.parse ["bank", "1"] =
      .ok { treeFile := some "bank", line := some 1 } := by decide +kernel
  have hfirst : Arguments.parse ["bank", "0"] =
      .ok { treeFile := some "bank", line := some 0 } := by decide +kernel
  have hshell : Arguments.parse ["--completion=bash"] = .ok { completion := some .bash } := by
    decide +kernel
  have hsettings : (Settings.load Directory.system environment "/w" directory).1 = .ok {} := by
    decide +kernel
  have hbroken : (Settings.load Directory.system environment "/w" broken).1 =
      .error (.config "parse /w/.treedraw.toml") := by
    decide +kernel
  refine ⟨?_, ?_, ?_, ?_⟩
  · obtain ⟨hcontent, hplace, -, hasked⟩ :=
      runLine_status_and_effect hlaws hdrawing environment "/w" false directory
    obtain ⟨ending, after, hrun, -, hloaded⟩ := hasked rfl
    obtain ⟨path, index, hpath, hindex, hends⟩ := (hloaded _ hsettings).2 rfl
    obtain rfl : "bank" = path := Option.some.inj hpath
    obtain rfl : 0 = index := Option.some.inj hindex
    have hdrawn : (Drawing.draw Directory.system { output := "$X.tex" } "bank" 0
        (Settings.load Directory.system environment "/w" directory).2).1 =
        .ok ⟨"$X.tex", .node "S" [.leaf "a", .leaf "b"], 2, 2, 2⟩ := by decide +kernel
    have hread : (Drawing.load Directory.system "bank" 0
        (Settings.load Directory.system environment "/w" directory).2).1 =
        .ok ⟨⟨"(S a b)", ["x", "y"]⟩, .node "S" [.leaf "a", .leaf "b"]⟩ := by decide +kernel
    have htarget : directory.target "$X.tex" = ["w", "$X.tex"] := by decide +kernel
    have hzero := hends.succeeds_iff.mpr ⟨_, hdrawn⟩
    obtain ⟨record, tree, text, hload, hrender, hfile, hothers, hout⟩ := hends.drawn hzero
    obtain ⟨rfl, rfl⟩ := Drawing.Loaded.mk.inj (Except.ok.inj (hread.symm.trans hload))
    rw [hplace] at hfile hothers
    rw [hcontent] at hothers
    have hother : ["w", "bank"] ≠ directory.target "$X.tex" := by
      rw [htarget]
      decide
    refine ⟨ending, after, text, hrun, hzero, hout, hrender, ?_, ?_⟩
    · rw [← htarget]
      exact hfile
    · exact hothers _ hother
  · obtain ⟨hcontent, -, -, hasked⟩ :=
      runLine_status_and_effect hlaws hnext environment "/w" false directory
    obtain ⟨ending, after, hrun, -, hloaded⟩ := hasked rfl
    obtain ⟨path, index, hpath, hindex, hends⟩ := (hloaded _ hsettings).2 rfl
    obtain rfl : "bank" = path := Option.some.inj hpath
    obtain rfl : 1 = index := Option.some.inj hindex
    have hmissing : (Drawing.draw Directory.system {} "bank" 1
        (Settings.load Directory.system environment "/w" directory).2).1 =
        .error (.lineNotFound "bank" 1 1) := by decide +kernel
    have hfails : Drawing.Fails Directory.system {} "bank" 1
        (Settings.load Directory.system environment "/w" directory).2 65 :=
      (Drawing.fails_iff _ _ _ _ _).mpr ⟨_, hmissing, rfl⟩
    obtain ⟨hstatus, hne⟩ := (hends.status_iff 65).mp hfails
    obtain ⟨hsame, hout⟩ := hends.refused (hstatus ▸ hne)
    exact ⟨ending, after, hrun, hstatus, hout, hsame.trans hcontent⟩
  · obtain ⟨hcontent, -, -, hasked⟩ :=
      runLine_status_and_effect hlaws hfirst environment "/w" false broken
    obtain ⟨ending, after, hrun, hfailed, -⟩ := hasked rfl
    obtain ⟨hafter, hstatus, -⟩ := hfailed _ hbroken
    rw [← hafter] at hcontent
    exact ⟨ending, after, hrun, hstatus, hcontent⟩
  · obtain ⟨-, -, hshells, -⟩ :=
      runLine_status_and_effect hlaws hshell environment "/w" false broken
    exact (hshells .bash rfl).1

end Command

end TreeFigure
