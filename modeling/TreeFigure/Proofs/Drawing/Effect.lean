import Mathlib.Data.List.Basic
import TreeFigure.Drawing
import TreeFigure.Proofs.Files.Lawful

/-!
What drawing does to the files. A run that fails leaves every file as it was, and a run that
succeeds replaces the output by the document of what it loaded, even if the output is the input.
-/

namespace TreeFigure.Drawing

section Prepare

variable {settings : Settings} {path : String} {index : Nat} {opened : Except String Source}
  {loaded : Loaded} {report : Report} {text : String} {failure : Failure}

theorem document_eq_ok_iff :
    document settings loaded = .ok text ↔
      Document.render? settings.layout settings.font loaded.tree loaded.record.tokens =
        some text := by
  unfold document
  cases Document.render? settings.layout settings.font loaded.tree loaded.record.tokens with
  | none => simp
  | some found => simp

theorem document_eq_error_iff :
    document settings loaded = .error failure ↔
      Document.render? settings.layout settings.font loaded.tree loaded.record.tokens = none ∧
        failure = .noLeaves := by
  unfold document
  cases Document.render? settings.layout settings.font loaded.tree loaded.record.tokens with
  | none => simp [eq_comm]
  | some found => simp

theorem prepare_eq_ok_iff :
    prepare settings path index opened = .ok (report, text) ↔
      ∃ loaded, loadFrom path index opened = .ok loaded ∧
        document settings loaded = .ok text ∧ report = Drawing.report settings loaded := by
  unfold prepare
  cases loadFrom path index opened with
  | error fault => simp
  | ok loaded =>
    cases hdocument : document settings loaded with
    | error fault => simp [hdocument]
    | ok found => simp [hdocument, eq_comm, and_comm]

theorem prepare_eq_error_iff :
    prepare settings path index opened = .error failure ↔
      loadFrom path index opened = .error failure ∨
        ∃ loaded, loadFrom path index opened = .ok loaded ∧
          document settings loaded = .error failure := by
  unfold prepare
  cases loadFrom path index opened with
  | error fault => simp
  | ok loaded =>
    cases hdocument : document settings loaded with
    | error fault => simp [hdocument]
    | ok found => simp [hdocument]

end Prepare

section Run

variable {σ φ : Type} {files : Files (StateM σ)}

/-- A run prepares a document from what it opened, and only then it writes. -/
theorem draw_eq (settings : Settings) (path : String) (index : Nat) (before : σ) :
    draw files settings path index before =
      match prepare settings path index (files.openFile path before).1 with
      | .error failure => (.error failure, (files.openFile path before).2)
      | .ok (report, text) =>
        match files.write settings.output text (files.openFile path before).2 with
        | (.error reason, after) => (.error (.outputUnwritable settings.output reason), after)
        | (.ok (), after) => (.ok report, after) := by
  unfold draw
  dsimp only [bind, StateT.bind]
  cases files.openFile path before with
  | mk opened state =>
    dsimp only
    cases prepare settings path index opened with
    | error failure => rfl
    | ok prepared =>
      obtain ⟨report, text⟩ := prepared
      dsimp only [StateT.bind]
      cases files.write settings.output text state with
      | mk written after =>
        cases written with
        | error reason => rfl
        | ok => rfl

section Lawful

variable {content : σ → φ → Option (List UInt8)} {place : σ → String → φ} {settings : Settings}
  {path : String} {index : Nat} {before after : σ}

theorem content_of_draw_error (h : files.Lawful content place) {failure : Failure}
    (hdraw : draw files settings path index before = (.error failure, after)) :
    content after = content before := by
  rw [← h.content_openFile path before]
  rw [draw_eq] at hdraw
  cases hprepare : prepare settings path index (files.openFile path before).1 with
  | error fault =>
    rw [hprepare] at hdraw
    exact congrArg content (congrArg Prod.snd hdraw).symm
  | ok prepared =>
    obtain ⟨report, text⟩ := prepared
    rw [hprepare] at hdraw
    dsimp only at hdraw
    cases hwrite : files.write settings.output text (files.openFile path before).2 with
    | mk written final =>
      rw [hwrite] at hdraw
      cases written with
      | error reason =>
        obtain rfl : final = after := congrArg Prod.snd hdraw
        exact h.content_of_error hwrite
      | ok => cases hdraw

theorem effect_of_draw_ok (h : files.Lawful content place) {report : Report}
    (hdraw : draw files settings path index before = (.ok report, after)) :
    ∃ loaded text, loadFrom path index (files.openFile path before).1 = .ok loaded ∧
      document settings loaded = .ok text ∧ report = Drawing.report settings loaded ∧
      content after (place before settings.output) = some (Source.encode text) ∧
      ∀ other, other ≠ place before settings.output →
        content after other = content before other := by
  rw [← h.content_openFile path before, ← h.place_openFile path before]
  rw [draw_eq] at hdraw
  cases hprepare : prepare settings path index (files.openFile path before).1 with
  | error fault =>
    rw [hprepare] at hdraw
    cases hdraw
  | ok prepared =>
    obtain ⟨found, text⟩ := prepared
    obtain ⟨loaded, hload, hdocument, rfl⟩ := prepare_eq_ok_iff.mp hprepare
    rw [hprepare] at hdraw
    dsimp only at hdraw
    cases hwrite : files.write settings.output text (files.openFile path before).2 with
    | mk written final =>
      rw [hwrite] at hdraw
      cases written with
      | error reason => cases hdraw
      | ok =>
        obtain rfl : final = after := congrArg Prod.snd hdraw
        have hreport := Except.ok.inj (congrArg Prod.fst hdraw)
        obtain ⟨hfile, hothers⟩ := h.content_of_ok hwrite
        exact ⟨loaded, text, hload, hdocument, hreport.symm, hfile, hothers⟩

end Lawful

/-- A run that fails changes no file, and one that succeeds replaces its output. A run fails as
loading does, else for want of a leaf, else because the output cannot be written. -/
theorem draw_all_or_nothing {content : σ → φ → Option (List UInt8)} {place : σ → String → φ}
    (h : files.Lawful content place) (settings : Settings) (path : String) (index : Nat)
    (before : σ) :
    (∀ failure after, draw files settings path index before = (.error failure, after) →
      content after = content before ∧
      ((load files path index before).1 = .error failure ∨
        ∃ loaded, (load files path index before).1 = .ok loaded ∧
          (Document.render? settings.layout settings.font loaded.tree loaded.record.tokens =
              none ∧ failure = .noLeaves ∨
            ∃ text reason,
              Document.render? settings.layout settings.font loaded.tree loaded.record.tokens =
                some text ∧
              (files.write settings.output text (load files path index before).2).1 =
                .error reason ∧
              failure = .outputUnwritable settings.output reason))) ∧
    (∀ report after, draw files settings path index before = (.ok report, after) →
      ∃ record tree text, (load files path index before).1 = .ok ⟨record, tree⟩ ∧
        Document.render? settings.layout settings.font tree record.tokens = some text ∧
        (files.write settings.output text (load files path index before).2).1 = .ok () ∧
        content after (place before settings.output) = some (Source.encode text) ∧
        (∀ other, other ≠ place before settings.output →
          content after other = content before other) ∧
        report = { output := settings.output, tree := tree, height := tree.height,
                   leafCount := tree.leaves.length, tokenCount := record.tokens.length }) := by
  have hload : load files path index before =
      (loadFrom path index (files.openFile path before).1, (files.openFile path before).2) := rfl
  have hcontent := h.content_openFile path before
  have hplace := h.place_openFile path before
  rw [hload, draw_eq]
  generalize files.openFile path before = opening at hcontent hplace ⊢
  obtain ⟨opened, state⟩ := opening
  dsimp only at hcontent hplace ⊢
  cases hprepare : prepare settings path index opened with
  | error fault =>
    refine ⟨?_, ?_⟩
    · rintro failure after ⟨⟩
      refine ⟨hcontent, ?_⟩
      rcases prepare_eq_error_iff.mp hprepare with hfail | ⟨loaded, hloaded, hdocument⟩
      · exact .inl hfail
      · exact .inr ⟨loaded, hloaded, .inl (document_eq_error_iff.mp hdocument)⟩
    · rintro report after ⟨⟩
  | ok prepared =>
    obtain ⟨report, text⟩ := prepared
    obtain ⟨loaded, hloaded, hdocument, rfl⟩ := prepare_eq_ok_iff.mp hprepare
    have hrender := document_eq_ok_iff.mp hdocument
    dsimp only
    cases hwrite : files.write settings.output text state with
    | mk written final =>
      cases written with
      | error reason =>
        refine ⟨?_, ?_⟩
        · rintro failure after ⟨⟩
          refine ⟨(h.content_of_error hwrite).trans hcontent, .inr ⟨loaded, hloaded, .inr ?_⟩⟩
          exact ⟨text, reason, hrender, congrArg Prod.fst hwrite, rfl⟩
        · rintro report after ⟨⟩
      | ok =>
        refine ⟨?_, ?_⟩
        · rintro failure after ⟨⟩
        · rintro report after ⟨⟩
          obtain ⟨hfile, hothers⟩ := h.content_of_ok hwrite
          rw [hplace] at hfile hothers
          refine ⟨loaded.record, loaded.tree, text, hloaded, hrender, congrArg Prod.fst hwrite,
            hfile, ?_, rfl⟩
          intro other hother
          rw [hothers other hother, hcontent]

end Run

/-- A line drawn over its own file, and a line that the file lacks. -/
theorem draw_all_or_nothing_over_input :
    let store : Store :=
      { files := [("bank", Source.encode "(S a b) ||||| x y\n"), ("other", [1])] }
    let settings : Settings := { output := "bank" }
    let tree : Tree := .node "S" [.leaf "a", .leaf "b"]
    (∃ after text,
      draw Store.system settings "bank" 0 store = (.ok ⟨"bank", tree, 2, 2, 2⟩, after) ∧
        Document.render? {} "gbsn" tree ["x", "y"] = some text ∧
        after.get? "bank" = some (Source.encode text) ∧ after.get? "other" = some [1]) ∧
      ∃ after,
        draw Store.system settings "bank" 1 store = (.error (.lineNotFound "bank" 1 1), after) ∧
          after.get? = store.get? := by
  intro store settings tree
  have hlaws := draw_all_or_nothing Store.system_lawful settings "bank"
  have hdrawn : (draw Store.system settings "bank" 0 store).1 = .ok ⟨"bank", tree, 2, 2, 2⟩ := by
    decide +kernel
  have hmissing : (draw Store.system settings "bank" 1 store).1 =
      .error (.lineNotFound "bank" 1 1) := by
    decide +kernel
  have hloaded : (load Store.system "bank" 0 store).1 =
      .ok ⟨⟨"(S a b)", ["x", "y"]⟩, tree⟩ := by
    decide +kernel
  constructor
  · have hrun : draw Store.system settings "bank" 0 store =
        (.ok ⟨"bank", tree, 2, 2, 2⟩, (draw Store.system settings "bank" 0 store).2) :=
      Prod.ext hdrawn rfl
    obtain ⟨record, found, text, hload, hrender, -, hfile, hothers, -⟩ :=
      (hlaws 0 store).2 _ _ hrun
    obtain ⟨rfl, rfl⟩ := Loaded.mk.inj (Except.ok.inj (hloaded.symm.trans hload))
    refine ⟨_, text, hrun, hrender, hfile, ?_⟩
    rw [hothers "other" (by decide)]
    rfl
  · have hrun : draw Store.system settings "bank" 1 store =
        (.error (.lineNotFound "bank" 1 1), (draw Store.system settings "bank" 1 store).2) :=
      Prod.ext hmissing rfl
    exact ⟨_, hrun, ((hlaws 1 store).1 _ _ hrun).1⟩

end TreeFigure.Drawing
