import TreeFigure.Proofs.Drawing.Effect
import TreeFigure.Proofs.Files.Puts

/-!
Runs one after another. As long as no run writes what a run reads, each one gives what it would
give alone, and in the end every output holds the document of the last run that wrote it.
-/

namespace TreeFigure.Drawing

/-- A run over files in memory: its settings, and the line it draws. -/
structure Call where
  settings : Settings
  path : String
  index : Nat

namespace Call

def run (call : Call) (store : Store) : Except Failure Report × Store :=
  draw Store.system call.settings call.path call.index store

/-- What the run gives if it is the only one. -/
def alone (store : Store) (call : Call) : Except Failure Report :=
  (call.run store).1

/-- The document of the line. -/
def document? (call : Call) (store : Store) : Option String :=
  match (load Store.system call.path call.index store).1 with
  | .error _ => none
  | .ok loaded =>
    Document.render? call.settings.layout call.settings.font loaded.tree loaded.record.tokens

/-- The output with the document, if the run succeeds alone. -/
def written? (store : Store) (call : Call) : Option (String × List UInt8) :=
  match call.alone store with
  | .error _ => none
  | .ok _ => (call.document? store).map fun text => (call.settings.output, Source.encode text)

end Call

/-- Runs calls one after another: the result of each, and the files in the end. -/
def runAll (store : Store) : List Call → List (Except Failure Report) × Store
  | [] => ([], store)
  | call :: rest =>
    let (result, next) := call.run store
    let (results, last) := runAll next rest
    (result :: results, last)

/-- No output is an input. -/
def Separate (calls : List Call) : Prop :=
  ∀ writer ∈ calls, ∀ reader ∈ calls, writer.settings.output ≠ reader.path

instance (calls : List Call) : Decidable (Separate calls) :=
  inferInstanceAs (Decidable (∀ writer ∈ calls, ∀ reader ∈ calls, _))

namespace Call

theorem run_eq (call : Call) (store : Store) :
    call.run store =
      match prepare call.settings call.path call.index (store.openFile call.path) with
      | .error failure => (.error failure, store)
      | .ok (report, text) =>
        if call.settings.output ∈ store.unwritable then
          (.error (.outputUnwritable call.settings.output "permission denied"), store)
        else (.ok report, store.put call.settings.output (Source.encode text)) := by
  unfold run
  rw [draw_eq]
  change (match prepare call.settings call.path call.index (store.openFile call.path) with
    | .error failure => _
    | .ok (report, text) => _) = _
  cases prepare call.settings call.path call.index (store.openFile call.path) with
  | error failure => rfl
  | ok prepared =>
    obtain ⟨report, text⟩ := prepared
    by_cases hwritable : call.settings.output ∈ store.unwritable
    · simp [Store.system, Store.write, hwritable]
    · simp [Store.system, Store.write, hwritable]

/-- What a run writes is prepared from its input, and its output has to be writable. -/
theorem written?_eq (call : Call) (store : Store) :
    call.written? store =
      match prepare call.settings call.path call.index (store.openFile call.path) with
      | .error _ => none
      | .ok (_, text) =>
        if call.settings.output ∈ store.unwritable then none
        else some (call.settings.output, Source.encode text) := by
  unfold written? alone
  rw [run_eq]
  cases hprepare : prepare call.settings call.path call.index (store.openFile call.path) with
  | error failure => rfl
  | ok prepared =>
    obtain ⟨report, text⟩ := prepared
    obtain ⟨loaded, hloaded, hdocument, -⟩ := prepare_eq_ok_iff.mp hprepare
    have hload : (load Store.system call.path call.index store).1 = .ok loaded := hloaded
    have htext : call.document? store = some text := by
      unfold document?
      rw [hload]
      exact document_eq_ok_iff.mp hdocument
    by_cases hwritable : call.settings.output ∈ store.unwritable
    · simp [hwritable]
    · simp [hwritable, htext]

theorem fst_of_written? {call : Call} {store : Store} {entry : String × List UInt8}
    (h : call.written? store = some entry) : entry.1 = call.settings.output := by
  unfold written? at h
  split at h
  case h_1 => cases h
  case h_2 =>
    obtain ⟨text, -, rfl⟩ := Option.map_eq_some_iff.mp h
    rfl

end Call

/-- The store gives the input of this path as another store does, and refuses the same. -/
structure SameInput (store held : Store) (path : String) : Prop where
  get? : held.get? path = store.get? path
  unwritable : held.unwritable = store.unwritable
  broken : held.broken = store.broken

theorem SameInput.refl (store : Store) (path : String) : SameInput store store path :=
  ⟨rfl, rfl, rfl⟩

/-- Putting something elsewhere leaves the input. -/
theorem SameInput.put {store held : Store} {path name : String} (h : SameInput store held path)
    (hname : name ≠ path) (content : List UInt8) :
    SameInput store (held.put name content) path := by
  refine ⟨?_, h.unwritable, h.broken⟩
  rw [Store.get?_put, if_neg hname.symm, h.get?]

theorem SameInput.openFile_eq {store held : Store} {path : String}
    (h : SameInput store held path) : held.openFile path = store.openFile path := by
  unfold Store.openFile
  rw [h.get?, h.broken]

/-- With the same input a run gives the same result and puts the same content. -/
theorem Call.run_of_sameInput {store held : Store} {call : Call}
    (h : SameInput store held call.path) :
    call.run held = (call.alone store, held.putAll (call.written? store).toList) := by
  rw [written?_eq, alone, run_eq, run_eq, h.openFile_eq, h.unwritable]
  cases prepare call.settings call.path call.index (store.openFile call.path) with
  | error failure => rfl
  | ok prepared =>
    obtain ⟨report, text⟩ := prepared
    dsimp only
    split
    case isTrue => rfl
    case isFalse => rfl

theorem Separate.of_cons {call : Call} {rest : List Call} (h : Separate (call :: rest)) :
    Separate rest :=
  fun writer hwriter reader hreader =>
    h writer (List.mem_cons_of_mem call hwriter) reader (List.mem_cons_of_mem call hreader)

/-- Runs that do not write what one of them reads give what they give alone. -/
theorem runAll_eq {store : Store} {calls : List Call} (hseparate : Separate calls) {held : Store}
    (h : ∀ call ∈ calls, SameInput store held call.path) :
    runAll held calls =
      (calls.map (Call.alone store), held.putAll (calls.filterMap (Call.written? store))) := by
  -- The files change from call to call, but no input that is still to be read.
  induction calls generalizing held with
  | nil => rfl
  | cons call rest ih =>
    have hstep := Call.run_of_sameInput (h call List.mem_cons_self)
    have hnext : ∀ other ∈ rest,
        SameInput store (held.putAll (call.written? store).toList) other.path := by
      intro other hother
      have hsame := h other (List.mem_cons_of_mem call hother)
      cases hwritten : call.written? store with
      | none => exact hsame
      | some entry =>
        apply hsame.put
        rw [Call.fst_of_written? hwritten]
        exact hseparate call List.mem_cons_self other (List.mem_cons_of_mem call hother)
    have hrest := ih hseparate.of_cons hnext
    rw [runAll, hstep]
    dsimp only
    rw [hrest, ← Store.putAll_append, List.map_cons, List.filterMap_cons]
    cases call.written? store with
    | none => rfl
    | some entry => rfl

theorem runAll_eq_alone {store : Store} {calls : List Call} (h : Separate calls) :
    runAll store calls =
      (calls.map (Call.alone store), store.putAll (calls.filterMap (Call.written? store))) :=
  runAll_eq h fun call _ => .refl store call.path

/-- A call may be made again as long as nothing else was written to its output. -/
theorem same_runAll_again {store : Store} {before between after : List Call} {call : Call}
    (h : Separate (before ++ call :: between ++ after))
    (hbetween : ∀ other ∈ between, ∀ entry, other.written? store = some entry →
      entry.1 ≠ call.settings.output) :
    (runAll store (before ++ call :: between ++ call :: after)).2.Same
      (runAll store (before ++ call :: between ++ after)).2 := by
  have hmem : ∀ other ∈ before ++ call :: between ++ call :: after,
      other ∈ before ++ call :: between ++ after := by
    simp only [List.mem_append, List.mem_cons]
    tauto
  have hagain : Separate (before ++ call :: between ++ call :: after) :=
    fun writer hwriter reader hreader => h writer (hmem writer hwriter) reader (hmem reader hreader)
  rw [runAll_eq_alone h, runAll_eq_alone hagain]
  simp only [List.filterMap_append, List.filterMap_cons]
  cases hwritten : call.written? store with
  | none => exact ⟨fun _ => rfl, rfl, rfl⟩
  | some entry =>
    apply Store.same_putAll_again
    intro hentry
    obtain ⟨held, hheld, heq⟩ := List.mem_map.mp hentry
    obtain ⟨other, hother, hfound⟩ := List.mem_filterMap.mp hheld
    apply hbetween other hother held hfound
    rw [heq, Call.fst_of_written? hwritten]

/-- Calls that write different outputs may be made in any order. -/
theorem runAll_perm {store : Store} {calls others : List Call} (h : Separate calls)
    (hperm : calls.Perm others)
    (hnodup : ((calls.filterMap (Call.written? store)).map Prod.fst).Nodup) :
    (calls.zip (runAll store calls).1).Perm (others.zip (runAll store others).1) ∧
      (runAll store calls).2.Same (runAll store others).2 := by
  have hothers : Separate others := fun writer hwriter reader hreader =>
    h writer (hperm.mem_iff.mpr hwriter) reader (hperm.mem_iff.mpr hreader)
  have hzip (list : List Call) : list.zip (list.map (Call.alone store)) =
      list.map fun call => (call, call.alone store) := by
    have hmap : (list.map id).zip (list.map (Call.alone store)) =
      list.map fun call => (call, call.alone store) := List.zip_map'
    rwa [List.map_id] at hmap
  rw [runAll_eq_alone h, runAll_eq_alone hothers]
  constructor
  · rw [hzip, hzip]
    exact hperm.map _
  · exact Store.same_putAll_of_perm store (hperm.filterMap (Call.written? store)) hnodup

/-- Runs are independent when no output is an input. Each gives what it gives alone, and in the end
every name holds the document of the last successful run that wrote it, or what it held before. So
a call may be repeated until something else is written to its output, and calls that write
different outputs may be made in any order. -/
theorem runAll_independent (store : Store) {calls : List Call} (h : Separate calls) :
    (runAll store calls).1 = calls.map (fun call => (call.run store).1) ∧
    (∀ name, (runAll store calls).2.get? name =
      ((calls.filterMap (Call.written? store)).reverse.lookup name).or (store.get? name)) ∧
    (runAll store calls).2.unwritable = store.unwritable ∧
    (runAll store calls).2.broken = store.broken ∧
    (∀ before call between after, calls = before ++ call :: between ++ after →
      (∀ other ∈ between, ∀ entry, other.written? store = some entry →
        entry.1 ≠ call.settings.output) →
      (runAll store (before ++ call :: between ++ call :: after)).2.Same
        (runAll store calls).2) ∧
    (∀ others, calls.Perm others →
      ((calls.filterMap (Call.written? store)).map Prod.fst).Nodup →
      (calls.zip (runAll store calls).1).Perm (others.zip (runAll store others).1) ∧
        (runAll store calls).2.Same (runAll store others).2) := by
  refine ⟨?_, ?_, ?_, ?_, ?_, ?_⟩
  · rw [runAll_eq_alone h]
    rfl
  · intro name
    rw [runAll_eq_alone h, Store.get?_putAll]
  · rw [runAll_eq_alone h, Store.unwritable_putAll]
  · rw [runAll_eq_alone h, Store.broken_putAll]
  · rintro before call between after rfl hbetween
    exact same_runAll_again h hbetween
  · intro others hperm hnodup
    exact runAll_perm h hperm hnodup

/-- Two documents over one name, a name that cannot be written, and a line that is missing. -/
theorem runAll_independent_mixed :
    let store : Store :=
      { files := [("bank", Source.encode "(S a) ||||| x\n(T b) ||||| y z\n")],
        unwritable := ["locked"] }
    let first : Call := ⟨{ output := "out" }, "bank", 0⟩
    let second : Call := ⟨{ output := "out" }, "bank", 1⟩
    let locked : Call := ⟨{ output := "locked" }, "bank", 0⟩
    let missing : Call := ⟨{ output := "other" }, "bank", 2⟩
    let calls := [first, locked, missing, second]
    (runAll store calls).1 =
        [.ok ⟨"out", .node "S" [.leaf "a"], 2, 1, 1⟩,
          .error (.outputUnwritable "locked" "permission denied"),
          .error (.lineNotFound "bank" 2 2),
          .ok ⟨"out", .node "T" [.leaf "b"], 2, 1, 2⟩] ∧
      (runAll store calls).2.get? "out" = (second.written? store).map Prod.snd ∧
      (runAll store calls).2.get? "bank" = store.get? "bank" ∧
      (runAll store (first :: calls)).2.Same (runAll store calls).2 ∧
      (runAll store [first, locked]).2.Same (runAll store [locked, first]).2 := by
  intro store first second locked missing calls
  have hseparate : Separate calls := by decide
  have hpair : Separate [first, locked] := by decide
  obtain ⟨hresults, hget, -, -, hagain, -⟩ := runAll_independent store hseparate
  obtain ⟨-, -, -, -, -, hreorder⟩ := runAll_independent store hpair
  have hsome : (second.written? store).isSome = true := by decide +kernel
  obtain ⟨⟨name, content⟩, hwritten⟩ := Option.isSome_iff_exists.mp hsome
  obtain rfl : name = "out" := Call.fst_of_written? hwritten
  have hlast : calls.filterMap (Call.written? store) =
      [first, locked, missing].filterMap (Call.written? store) ++ [("out", content)] := by
    have hsplit : calls = [first, locked, missing] ++ [second] := rfl
    have hsecond : [second].filterMap (Call.written? store) = [("out", content)] := by
      rw [List.filterMap_cons, hwritten, List.filterMap_nil]
    rw [hsplit, List.filterMap_append, hsecond]
  have hbank : (calls.filterMap (Call.written? store)).reverse.lookup "bank" = none := by
    decide +kernel
  have hnodup : (([first, locked].filterMap (Call.written? store)).map Prod.fst).Nodup := by
    decide +kernel
  refine ⟨?_, ?_, ?_, ?_, ?_⟩
  · rw [hresults]
    decide +kernel
  · rw [hget, hlast, List.reverse_append, List.reverse_singleton, List.singleton_append,
      List.lookup_cons_self, hwritten]
    rfl
  · rw [hget, hbank, Option.none_or]
  · exact hagain [] first [] [locked, missing, second] rfl (by simp)
  · exact (hreorder [locked, first] (.swap locked first []) hnodup).2

end TreeFigure.Drawing
