import TreeFigure.Proofs.Drawing.Effect
import TreeFigure.Proofs.Figure.Decoration

/-!
What can go wrong when a line is drawn, with the exit status that tells it. Each trouble is a
condition on the file, the line or the output, and drawing fails with a status exactly if there is
trouble of that status.
-/

namespace TreeFigure

theorem Document.render?_eq_none_iff {layout : Layout} {font : String} {tree : Tree}
    {tokens : List String} : render? layout font tree tokens = none ↔ tree.leaves = [] := by
  rw [render?, Option.map_eq_none_iff]
  constructor
  · intro hnone
    by_contra hleaf
    obtain ⟨diagram, hdiagram⟩ := Diagram.exists_ofTree? hleaf layout
    rw [hnone] at hdiagram
    cases hdiagram
  · intro hleaf
    exact Diagram.ofTree?_eq_none hleaf layout

namespace Drawing

/-- What was opened has a line with this index, complete and in UTF-8. -/
inductive HasLine (index : Nat) (opened : Except String Source) (line : String) : Prop
  | intro {source : Source} {bytes : List UInt8} (hopen : opened = .ok source)
      (hbytes : source.available[index]? = some bytes)
      (htext : Source.decode? (Source.dropReturn bytes) = some line)

/-- The line is a record with a tree in it. -/
inductive HasTree (line : String) (record : Record) (tree : Tree) : Prop
  | intro (hrecord : Record.parse line = .ok record)
      (htree : Tree.parseWith .brackets record.treeText = .ok tree)

/-- Why there is no document, and the exit status. -/
inductive Trouble (index : Nat) (opened : Except String Source) : Nat → Prop
  | unopened {reason : String} (hopen : opened = .error reason) : Trouble index opened 66
  | broken {source : Source} {reason : String} (hopen : opened = .ok source)
      (hbytes : source.available[index]? = none) (hbroken : source.failure = some reason) :
      Trouble index opened 74
  | missing {source : Source} (hopen : opened = .ok source)
      (hbytes : source.available[index]? = none) (hwhole : source.failure = none) :
      Trouble index opened 65
  | notText {source : Source} {bytes : List UInt8} (hopen : opened = .ok source)
      (hbytes : source.available[index]? = some bytes)
      (htext : Source.decode? (Source.dropReturn bytes) = none) : Trouble index opened 65
  | badRecord {line : String} {fault : Record.Fault} (hline : HasLine index opened line)
      (hrecord : Record.parse line = .error fault) : Trouble index opened 65
  | badTree {line : String} {record : Record} {fault : Tree.Fault}
      (hline : HasLine index opened line) (hrecord : Record.parse line = .ok record)
      (htree : Tree.parseWith .brackets record.treeText = .error fault) : Trouble index opened 65
  | leafless {line : String} {record : Record} {tree : Tree} (hline : HasLine index opened line)
      (htree : HasTree line record tree) (hleaf : tree.leaves = []) : Trouble index opened 65

section Prepare

variable {settings : Settings} {path : String} {index : Nat} {opened : Except String Source}

theorem selectLine_eq_ok_iff {line : String} :
    selectLine path index opened = .ok line ↔ HasLine index opened line := by
  constructor
  · intro h
    unfold selectLine at h
    split at h
    case h_1 => cases h
    case h_2 source =>
      split at h
      case h_1 bytes hbytes =>
        split at h
        case h_1 text htext =>
          obtain rfl := Except.ok.inj h
          exact .intro rfl hbytes htext
        case h_2 => cases h
      case h_2 =>
        split at h
        case h_1 => cases h
        case h_2 => cases h
  · rintro ⟨rfl, hbytes, htext⟩
    simp only [selectLine, hbytes, htext]

theorem readRecord_eq_ok_iff {line : String} {loaded : Loaded} :
    readRecord line = .ok loaded ↔ HasTree line loaded.record loaded.tree := by
  constructor
  · intro h
    unfold readRecord at h
    split at h
    case h_1 => cases h
    case h_2 record hrecord =>
      split at h
      case h_1 => cases h
      case h_2 tree htree =>
        obtain rfl := Except.ok.inj h
        exact .intro hrecord htree
  · rintro ⟨hrecord, htree⟩
    simp only [readRecord, hrecord, htree]

theorem loadFrom_eq_ok_iff {loaded : Loaded} :
    loadFrom path index opened = .ok loaded ↔
      ∃ line, HasLine index opened line ∧ HasTree line loaded.record loaded.tree := by
  have hline (line : String) :
      HasLine index opened line ↔ selectLine path index opened = .ok line :=
    selectLine_eq_ok_iff.symm
  simp only [hline, ← readRecord_eq_ok_iff]
  unfold loadFrom
  cases selectLine path index opened with
  | error failure => simp
  | ok line => simp

theorem trouble_of_selectLine {failure : Failure}
    (h : selectLine path index opened = .error failure) :
    Trouble index opened failure.exitCode := by
  unfold selectLine at h
  split at h
  case h_1 reason =>
    obtain rfl := Except.error.inj h
    exact .unopened rfl
  case h_2 source =>
    split at h
    case h_1 bytes hbytes =>
      split at h
      case h_1 => cases h
      case h_2 htext =>
        obtain rfl := Except.error.inj h
        exact .notText rfl hbytes htext
    case h_2 hbytes =>
      split at h
      case h_1 reason hbroken =>
        obtain rfl := Except.error.inj h
        exact .broken rfl hbytes hbroken
      case h_2 hwhole =>
        obtain rfl := Except.error.inj h
        exact .missing rfl hbytes hwhole

theorem trouble_of_readRecord {line : String} {failure : Failure}
    (hline : HasLine index opened line) (h : readRecord line = .error failure) :
    Trouble index opened failure.exitCode := by
  unfold readRecord at h
  split at h
  case h_1 fault hrecord =>
    obtain rfl := Except.error.inj h
    exact .badRecord hline hrecord
  case h_2 record hrecord =>
    split at h
    case h_1 fault htree =>
      obtain rfl := Except.error.inj h
      exact .badTree hline hrecord htree
    case h_2 => cases h

theorem trouble_of_prepare {failure : Failure}
    (h : prepare settings path index opened = .error failure) :
    Trouble index opened failure.exitCode := by
  rcases prepare_eq_error_iff.mp h with hload | ⟨loaded, hload, hdocument⟩
  · unfold loadFrom at hload
    cases hselect : selectLine path index opened with
    | error fault =>
      rw [hselect] at hload
      obtain rfl := Except.error.inj hload
      exact trouble_of_selectLine hselect
    | ok line =>
      rw [hselect] at hload
      exact trouble_of_readRecord (selectLine_eq_ok_iff.mp hselect) hload
  · obtain ⟨line, hline, htree⟩ := loadFrom_eq_ok_iff.mp hload
    obtain ⟨hnone, rfl⟩ := document_eq_error_iff.mp hdocument
    exact .leafless hline htree (Document.render?_eq_none_iff.mp hnone)

/-- Trouble is noticed before anything is written. -/
theorem Trouble.prepare_eq_error {status : Nat} (h : Trouble index opened status)
    (settings : Settings) (path : String) :
    ∃ failure, prepare settings path index opened = .error failure ∧
      failure.exitCode = status := by
  have hselected (line : String) (hline : HasLine index opened line) :
      loadFrom path index opened = readRecord line := by
    rw [loadFrom, selectLine_eq_ok_iff.mpr hline]
  have hloading (failure : Failure) (hload : loadFrom path index opened = .error failure) :
      prepare settings path index opened = .error failure :=
    prepare_eq_error_iff.mpr (.inl hload)
  cases h with
  | @unopened reason hopen =>
    refine ⟨.inputUnreadable path reason, hloading _ ?_, rfl⟩
    simp only [loadFrom, selectLine, hopen]
  | @broken source reason hopen hbytes hbroken =>
    refine ⟨.operationFailed ("read line: " ++ path) reason, hloading _ ?_, rfl⟩
    simp only [loadFrom, selectLine, hopen, hbytes, hbroken]
  | @missing source hopen hbytes hwhole =>
    refine ⟨.lineNotFound path index source.available.length, hloading _ ?_, rfl⟩
    simp only [loadFrom, selectLine, hopen, hbytes, hwhole]
  | notText hopen hbytes htext =>
    refine ⟨.malformedRecord Record.Fault.notText.message, hloading _ ?_, rfl⟩
    simp only [loadFrom, selectLine, hopen, hbytes, htext]
  | @badRecord line fault hline hrecord =>
    refine ⟨.malformedRecord fault.message, hloading _ ?_, rfl⟩
    simp only [hselected line hline, readRecord, hrecord]
  | @badTree line record fault hline hrecord htree =>
    refine ⟨.malformedTree fault.cause.message fault.offset, hloading _ ?_, rfl⟩
    simp only [hselected line hline, readRecord, hrecord, htree]
  | @leafless line record tree hline htree hleaf =>
    refine ⟨.noLeaves, prepare_eq_error_iff.mpr (.inr ⟨⟨record, tree⟩, ?_, ?_⟩), rfl⟩
    · exact loadFrom_eq_ok_iff.mpr ⟨line, hline, htree⟩
    · exact document_eq_error_iff.mpr ⟨Document.render?_eq_none_iff.mpr hleaf, rfl⟩

theorem prepare_eq_ok_of_hasTree {line text : String} {record : Record} {tree : Tree}
    (hline : HasLine index opened line) (htree : HasTree line record tree)
    (hrender : Document.render? settings.layout settings.font tree record.tokens = some text) :
    prepare settings path index opened = .ok (report settings ⟨record, tree⟩, text) :=
  prepare_eq_ok_iff.mpr ⟨⟨record, tree⟩, loadFrom_eq_ok_iff.mpr ⟨line, hline, htree⟩,
    document_eq_ok_iff.mpr hrender, rfl⟩

end Prepare

section Run

variable {σ : Type} (files : Files (StateM σ)) (settings : Settings) (path : String) (index : Nat)
  (state : σ)

/-- Why nothing is drawn, and the exit status. -/
inductive Fails : Nat → Prop
  | noDocument {status : Nat} (htrouble : Trouble index (files.openFile path state).1 status) :
      Fails status
  | unwritable {line text reason : String} {record : Record} {tree : Tree}
      (hline : HasLine index (files.openFile path state).1 line) (htree : HasTree line record tree)
      (hrender : Document.render? settings.layout settings.font tree record.tokens = some text)
      (hwrite : (files.write settings.output text (files.openFile path state).2).1 =
        .error reason) :
      Fails 73

/-- Drawing fails exactly if there is a reason, with the status of that reason. -/
theorem fails_iff {status : Nat} :
    Fails files settings path index state status ↔
      ∃ failure, (draw files settings path index state).1 = .error failure ∧
        failure.exitCode = status := by
  rw [draw_eq]
  constructor
  · intro h
    cases h with
    | noDocument htrouble =>
      obtain ⟨failure, hprepare, rfl⟩ := htrouble.prepare_eq_error settings path
      exact ⟨failure, by rw [hprepare], rfl⟩
    | unwritable hline htree hrender hwrite =>
      rw [prepare_eq_ok_of_hasTree hline htree hrender]
      dsimp only
      generalize files.write settings.output _ (files.openFile path state).2 = written at hwrite
      obtain ⟨result, after⟩ := written
      obtain rfl := hwrite
      exact ⟨_, rfl, rfl⟩
  · rintro ⟨failure, hfail, rfl⟩
    cases hprepare : prepare settings path index (files.openFile path state).1 with
    | error fault =>
      rw [hprepare] at hfail
      obtain rfl := Except.error.inj hfail
      exact .noDocument (trouble_of_prepare hprepare)
    | ok prepared =>
      obtain ⟨report, text⟩ := prepared
      obtain ⟨loaded, hload, hdocument, -⟩ := prepare_eq_ok_iff.mp hprepare
      obtain ⟨line, hline, htree⟩ := loadFrom_eq_ok_iff.mp hload
      rw [hprepare] at hfail
      dsimp only at hfail
      cases hwrite : files.write settings.output text (files.openFile path state).2 with
      | mk result after =>
        rw [hwrite] at hfail
        cases result with
        | ok => cases hfail
        | error reason =>
          obtain rfl := Except.error.inj hfail
          exact .unwritable hline htree (document_eq_ok_iff.mp hdocument) (congrArg Prod.fst hwrite)

end Run

end Drawing

end TreeFigure
