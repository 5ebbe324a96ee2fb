import TreeFigure.Proofs.Command.Effect

/-!
What is asked for and what is carried out agree. The rule for the arguments stands with each of the
positional ones, and a run looks for something to carry out. It ends with the status of wrong usage,
64, exactly if the arguments break the rule and there are settings. So no command line that is
understood ends with it.
-/

namespace TreeFigure

section Statuses

variable {σ : Type} {files : Files (StateM σ)} {settings : Settings} {path : String}
  {index status : Nat} {state : σ} {opened : Except String Source} {failure : Failure}

theorem Drawing.Trouble.ne_usage (h : Trouble index opened status) : status ≠ 64 := by
  cases h with
  | unopened => decide
  | broken => decide
  | missing | notText | badRecord | badTree | leafless => decide

theorem Drawing.Fails.ne_usage (h : Fails files settings path index state status) :
    status ≠ 64 := by
  cases h with
  | noDocument htrouble => exact htrouble.ne_usage
  | unwritable => decide

theorem Settings.exitCode_of_toToml (h : settings.toToml = .error failure) :
    failure.exitCode = 78 := by
  unfold toToml at h
  split at h
  case isTrue => cases h
  case isFalse =>
    obtain rfl := Except.error.inj h
    rfl

end Statuses

namespace Command

section Usage

variable {σ : Type} {host : Host (StateM σ)} {arguments : Arguments} {before : σ}

/-- There are no settings without a working directory or with a bad configuration. -/
theorem exitCode_of_loadSettings {failure : Failure}
    (h : (loadSettings host before).1 = .error failure) :
    failure.exitCode = 74 ∨ failure.exitCode = 78 := by
  cases hdirectory : host.directory with
  | error reason =>
    rw [loadSettings, hdirectory] at h
    obtain rfl := Except.error.inj h
    exact .inl rfl
  | ok directory =>
    rw [loadSettings_eq hdirectory] at h
    obtain ⟨message, rfl⟩ := Settings.exists_config_of_loadFrom h
    exact .inr rfl

theorem shown_ne_usage (colour : Bool) (settings : Settings) :
    (shown colour settings).exitCode ≠ 64 := by
  unfold shown
  split
  case h_1 => exact Nat.zero_ne_add_one 63
  case h_2 failure hfailure =>
    exact ne_of_eq_of_ne (Settings.exitCode_of_toToml hfailure) (by decide)

theorem carryOut_drawing_ne_usage {path : String} {index : Nat}
    (hshow : arguments.showConfig = false) (hpath : arguments.treeFile = some path)
    (hindex : arguments.line = some index) (settings : Settings) :
    (carryOut host arguments settings before).1.exitCode ≠ 64 := by
  rw [carryOut_drawing hshow hpath hindex]
  cases hdraw : Drawing.draw host.files settings path index before with
  | mk result after =>
    cases result with
    | error failure =>
      have hfails : Drawing.Fails host.files settings path index before failure.exitCode :=
        (Drawing.fails_iff _ _ _ _ _).mpr ⟨failure, congrArg Prod.fst hdraw, rfl⟩
      exact hfails.ne_usage
    | ok report => exact Nat.zero_ne_add_one 63

/-- Under some settings there is nothing to carry out exactly if neither the settings nor a line of
a file are asked for. -/
theorem carryOut_exitCode_eq_64_iff (settings : Settings) :
    (carryOut host arguments settings before).1.exitCode = 64 ↔
      ¬ (arguments.showConfig = true ∨
        ∃ path index, arguments.treeFile = some path ∧ arguments.line = some index) := by
  cases hshow : arguments.showConfig with
  | true =>
    rw [carryOut_shown hshow]
    exact iff_of_false (shown_ne_usage host.colour settings) (fun h => h (.inl rfl))
  | false =>
    cases hpath : arguments.treeFile with
    | none =>
      rw [carryOut, hshow, hpath]
      exact iff_of_true rfl (by simp)
    | some path =>
      cases hindex : arguments.line with
      | none =>
        rw [carryOut, hshow, hpath, hindex]
        exact iff_of_true rfl (by simp)
      | some index =>
        exact iff_of_false (carryOut_drawing_ne_usage hshow hpath hindex settings) (by simp)

/-- A run ends with wrong usage exactly if its arguments break the rule for them, as soon as there
are settings. -/
theorem run_exitCode_eq_64_iff :
    (run host arguments before).1.exitCode = 64 ↔
      arguments.check ≠ .ok arguments ∧
        ∃ settings, (loadSettings host before).1 = .ok settings := by
  rw [Ne, Arguments.check_eq_ok_iff]
  cases hcompletion : arguments.completion with
  | some shell =>
    rw [run_completion hcompletion]
    exact iff_of_false (Nat.zero_ne_add_one 63) (by simp)
  | none =>
    rw [run_of_completion_eq_none hcompletion]
    cases hload : loadSettings host before with
    | mk loaded after =>
      cases loaded with
      | error failure =>
        have hstatus := exitCode_of_loadSettings (congrArg Prod.fst hload)
        refine iff_of_false ?_ (by simp)
        rcases hstatus with h | h
        · exact ne_of_eq_of_ne h (by decide)
        · exact ne_of_eq_of_ne h (by decide)
      | ok settings =>
        refine (carryOut_exitCode_eq_64_iff _).trans ?_
        simp

/-- A command line that is understood never ends with wrong usage. Its words spell operands and
options in any order, and its arguments hold what these say. They ask for completions, for the
settings, or for a line of a file, so that a run always finds something to carry out, whatever the
files and the environment are. -/
theorem runLine_usage_unreachable {words : List String}
    (h : Arguments.parse words = .ok arguments) :
    (∃ items, Spells none words items ∧ Holds items arguments) ∧
      (arguments.completion.isSome = true ∨ arguments.showConfig = true ∨
        ∃ path index, arguments.treeFile = some path ∧ arguments.line = some index) ∧
      ∀ (σ : Type) (host : Host (StateM σ)) (before : σ),
        (runLine host words before).1.exitCode ≠ 64 ∧
          ∀ message, (runLine host words before).1 ≠
            .ended (failed host.colour (.usage message)) := by
  have hasks := asks_of_parse h
  refine ⟨exists_spells_of_parse h, hasks, fun σ host before => ?_⟩
  have hne : (runLine host words before).1.exitCode ≠ 64 := by
    rw [runLine_eq h]
    intro h64
    obtain ⟨hcheck, -⟩ := run_exitCode_eq_64_iff.mp h64
    exact hcheck (Arguments.check_eq_ok_iff.mpr ⟨rfl, hasks⟩)
  refine ⟨hne, ?_⟩
  intro message hended
  rw [hended] at hne
  exact hne rfl

/-- The settings are asked for beside one operand, an operand behind two dashes looks like an
option, and options stand between the operands. -/
theorem runLine_usage_unreachable_mixed :
    let directory := Directory.empty ["w"]
    let host : Host (StateM Directory) :=
      { files := Directory.system, environment := { bindings := [] }, directory := .ok "/w" }
    (runLine host ["--show-config", "bank"] directory).1.exitCode ≠ 64 ∧
      (runLine host ["-vo", "out", "--", "-o", "0"] directory).1.exitCode ≠ 64 ∧
      (∃ items, Spells none ["-vo", "out", "--", "-o", "0"] items ∧
        (operands items)[0]? = some "-o") ∧
      ∃ items, Spells none ["7", "-vv", "--completion", "fish", "08", "-v"] items ∧
        .option .completion "fish" ∈ items ∧ min (items.count (.switch .verbose)) 255 = 3 ∧
        (operands items)[1]?.bind (fun word => Text.natural? word.toList) = some 8 := by
  intro directory host
  have hshow : Arguments.parse ["--show-config", "bank"] =
      .ok { treeFile := some "bank", showConfig := true } := by decide +kernel
  have hdashes : Arguments.parse ["-vo", "out", "--", "-o", "0"] =
      .ok { treeFile := some "-o", line := some 0, output := some "out", verbose := 1 } := by
    decide +kernel
  have hcompletion : Arguments.parse ["7", "-vv", "--completion", "fish", "08", "-v"] =
      .ok { treeFile := some "7", line := some 8, verbose := 3, completion := some .fish } := by
    decide +kernel
  refine ⟨?_, ?_, ?_, ?_⟩
  · exact ((runLine_usage_unreachable hshow).2.2 Directory host directory).1
  · exact ((runLine_usage_unreachable hdashes).2.2 Directory host directory).1
  · obtain ⟨⟨items, hspells, hholds⟩, -⟩ := runLine_usage_unreachable hdashes
    exact ⟨items, hspells, hholds.treeFile.symm⟩
  · obtain ⟨⟨items, hspells, hholds⟩, -⟩ := runLine_usage_unreachable hcompletion
    exact ⟨items, hspells, (hholds.completion "fish").mp rfl, hholds.verbose.symm,
      hholds.line.symm⟩

end Usage

end Command

end TreeFigure
