import TreeFigure.Proofs.Drawing.Selection
import TreeFigure.Proofs.Drawing.Sequence
import TreeFigure.Proofs.Figure.Bars
import TreeFigure.Proofs.Record.Fields
import TreeFigure.Proofs.Source.Encoded

/-!
Drawing over the tree-bank itself. What is left is a document, and a document has no line with the
mark of a record, so nothing is drawn from it any more and it stays as it is.
-/

namespace TreeFigure

open Source Drawing

/-- A text of whole lines that has fewer bars in a row than the mark of a record. -/
structure Barren (text : String) : Prop where
  ended : text.toList.getLast? = some '\n'
  bars : ¬ fourBars <:+: text.toList

theorem Document.barren_render? {layout : Layout} {font text : String} {tree : Tree}
    {tokens : List String} (hfont : '|' ∉ font.toList)
    (h : render? layout font tree tokens = some text) : Barren text := by
  refine ⟨?_, not_fourBars_isInfix_render? hfont h⟩
  obtain ⟨diagram, -, htext⟩ := toList_of_render? h
  have hclosing : closing.getLast? = some '\n' := by decide
  rw [htext, ← List.cons_append, ← List.append_assoc, ← List.append_assoc, List.getLast?_append,
    hclosing, Option.some_or]

/-- How drawing a line of a document fails: it is no record, or there is no such line. -/
def Drawing.refusal (path text : String) (index : Nat) : Failure :=
  if index < text.toList.count '\n' then .malformedRecord "missing '|||||' delimiter"
  else .lineNotFound path index (text.toList.count '\n')

section Lines

variable {path text line : String} {index : Nat}

/-- A line of the file stands in the text that was written. -/
theorem Barren.exists_selectLine (h : Barren text) (hindex : index < text.toList.count '\n')
    (path : String) :
    ∃ line : String, selectLine path index (.ok { bytes := encode text }) = .ok line ∧
      line.toList <:+: text.toList := by
  obtain ⟨found, htext, hlength, hlines⟩ := exists_lines_encode h.ended
  rw [← hlength] at hindex
  obtain ⟨line, hline, hstart⟩ := exists_encode_eq_dropReturn found[index]
  have hplace : (available { bytes := encode text })[index]? =
      some (encode (String.ofList found[index])) := by
    rw [available, hlines, List.getElem?_map, List.getElem?_eq_getElem hindex, Option.map_some]
  refine ⟨line, (selectLine_eq_ok_iff_encode hplace line).mpr hline, ?_⟩
  have hinside : found[index] ++ ['\n'] <:+: text.toList := by
    rw [htext, List.flatMap_def]
    exact List.infix_of_mem_flatten (List.mem_map.mpr ⟨_, List.getElem_mem hindex, rfl⟩)
  exact (hstart.trans (List.prefix_append _ _)).isInfix.trans hinside

theorem Barren.selectLine_eq_lineNotFound (h : Barren text)
    (hindex : text.toList.count '\n' ≤ index) (path : String) :
    selectLine path index (.ok { bytes := encode text }) =
      .error (.lineNotFound path index (text.toList.count '\n')) := by
  obtain ⟨found, -, hlength, hlines⟩ := exists_lines_encode h.ended
  have hcount : (lines (encode text)).length = text.toList.count '\n' := by
    rw [hlines, List.length_map, hlength]
  rw [← hcount] at hindex ⊢
  exact selectLine_of_length_le hindex

theorem Barren.parse_eq_noMark (h : Barren text) (hline : line.toList <:+: text.toList) :
    Record.parse line = .error .noMark := by
  have hmark : fourBars <:+: Record.mark.toList := ⟨[' '], ['|', ' '], by decide⟩
  rw [Record.parse_eq_noMark_iff]
  exact fun hin => h.bars ((hmark.trans hin).trans hline)

/-- None of its lines is a record. -/
theorem Barren.parse_of_selectLine (h : Barren text)
    (hline : selectLine path index (.ok { bytes := encode text }) = .ok line) :
    Record.parse line = .error .noMark := by
  by_cases hindex : index < text.toList.count '\n'
  · obtain ⟨found, hfound, hinside⟩ := h.exists_selectLine hindex path
    obtain rfl := Except.ok.inj (hline.symm.trans hfound)
    exact h.parse_eq_noMark hinside
  · rw [h.selectLine_eq_lineNotFound (Nat.le_of_not_lt hindex)] at hline
    cases hline

theorem Barren.loadFrom_eq (h : Barren text) (path : String) (index : Nat) :
    loadFrom path index (.ok { bytes := encode text }) = .error (refusal path text index) := by
  by_cases hindex : index < text.toList.count '\n'
  · obtain ⟨line, hline, hinside⟩ := h.exists_selectLine hindex path
    rw [loadFrom, refusal, if_pos hindex, hline]
    simp only [readRecord, h.parse_eq_noMark hinside, Record.Fault.message]
  · rw [loadFrom, refusal, if_neg hindex,
      h.selectLine_eq_lineNotFound (Nat.le_of_not_lt hindex)]

end Lines

namespace Drawing

section Runs

variable {path text : String}

/-- Whatever the settings, a run that reads such a text fails and writes nothing. -/
theorem draw_of_barren {σ : Type} {files : Files (StateM σ)} {state : σ} (h : Barren text)
    (hopen : (files.openFile path state).1 = .ok { bytes := encode text }) (settings : Settings)
    (index : Nat) :
    draw files settings path index state =
      (.error (refusal path text index), (files.openFile path state).2) := by
  have hload : loadFrom path index (files.openFile path state).1 =
      .error (refusal path text index) := by
    rw [hopen]
    exact h.loadFrom_eq path index
  rw [draw_eq, prepare_eq_error_iff.mpr (.inl hload)]

/-- A run that writes elsewhere leaves the input of this path. -/
theorem Call.sameInput_run {call : Call} (h : call.settings.output ≠ path) (store : Store) :
    SameInput store (call.run store).2 path := by
  rw [Call.run_of_sameInput (.refl store call.path)]
  cases hwritten : call.written? store with
  | none => exact .refl store path
  | some entry =>
    have hentry : entry.1 ≠ path := by
      rw [Call.fst_of_written? hwritten]
      exact h
    exact (SameInput.refl store path).put hentry entry.2

theorem Call.run_of_barren (h : Barren text) {store : Store} {call : Call}
    (hopen : store.openFile call.path = .ok { bytes := encode text }) :
    call.run store = (.error (refusal call.path text call.index), store) :=
  draw_of_barren h hopen call.settings call.index

/-- A run that reads such a text leaves it, and so does one that writes elsewhere. -/
theorem Call.openFile_run (h : Barren text) {store : Store} {call : Call}
    (hopen : store.openFile path = .ok { bytes := encode text })
    (hcall : call.settings.output = path → call.path = path) :
    (call.run store).2.openFile path = .ok { bytes := encode text } := by
  by_cases hpath : call.path = path
  · subst hpath
    rw [run_of_barren h hopen, hopen]
  · rw [(sameInput_run (mt hcall hpath) store).openFile_eq, hopen]

/-- However many runs come after one another, such a text stays and all runs that read it fail, as
long as no run puts something else in its place. -/
theorem runAll_of_barren (h : Barren text) {calls : List Call}
    (hcalls : ∀ call ∈ calls, call.settings.output = path → call.path = path) {store : Store}
    (hopen : store.openFile path = .ok { bytes := encode text }) :
    (runAll store calls).2.openFile path = .ok { bytes := encode text } ∧
      ∀ (number : Nat) (call : Call), calls[number]? = some call → call.path = path →
        (runAll store calls).1[number]? = some (.error (refusal path text call.index)) := by
  induction calls generalizing store with
  | nil => exact ⟨hopen, fun number call hcall => absurd hcall (by simp)⟩
  | cons call rest ih =>
    obtain ⟨hcall, hrest⟩ := List.forall_mem_cons.mp hcalls
    obtain ⟨hlast, hresults⟩ := ih hrest (call.openFile_run h hopen hcall)
    refine ⟨hlast, ?_⟩
    intro number other hother hpath
    cases number with
    | zero =>
      obtain rfl : call = other := Option.some.inj hother
      subst hpath
      rw [runAll, Call.run_of_barren h hopen]
      rfl
    | succ number => exact hresults number other hother hpath

/-- After a run over its own input, with a font without bars, the input is a document. As long as
it is that document and can be read whole, every run from it fails, for want of a mark or of the
line, and changes no file. No line of any document is a record, and among files in memory the
document stays, whatever runs follow that do not put something else in its place. -/
theorem draw_over_input_ends_drawing {σ φ : Type} {files : Files (StateM σ)}
    {content : σ → φ → Option (List UInt8)} {place : σ → String → φ}
    (h : files.Lawful content place) {settings : Settings} {path : String} {index : Nat}
    {before after : σ} {report : Report} (hfont : '|' ∉ settings.font.toList)
    (houtput : settings.output = path)
    (hdraw : draw files settings path index before = (.ok report, after)) :
    ∃ loaded text, loadFrom path index (files.openFile path before).1 = .ok loaded ∧
      Document.render? settings.layout settings.font loaded.tree loaded.record.tokens = some text ∧
      content after (place before path) = some (encode text) ∧
      (∀ later, (files.openFile path later).1 = .ok { bytes := encode text } →
        ∀ (next : Settings) (number : Nat), ∃ final,
          draw files next path number later = (.error (refusal path text number), final) ∧
            content final = content later) ∧
      (∀ layout font tree tokens other, '|' ∉ font.toList →
        Document.render? layout font tree tokens = some other →
          ∀ number line, selectLine path number (.ok { bytes := encode other }) = .ok line →
            Record.parse line = .error .noMark) ∧
      ∀ (store : Store) (calls : List Call), store.openFile path = .ok { bytes := encode text } →
        (∀ call ∈ calls, call.settings.output = path → call.path = path) →
          (runAll store calls).2.openFile path = .ok { bytes := encode text } ∧
            ∀ (number : Nat) (call : Call), calls[number]? = some call → call.path = path →
              (runAll store calls).1[number]? = some (.error (refusal path text call.index)) := by
  obtain ⟨loaded, text, hload, hdocument, -, hfile, -⟩ := effect_of_draw_ok h hdraw
  have hrender := document_eq_ok_iff.mp hdocument
  have hbarren := Document.barren_render? hfont hrender
  rw [houtput] at hfile
  refine ⟨loaded, text, hload, hrender, hfile, ?_, ?_, ?_⟩
  · intro later hopen next number
    exact ⟨_, draw_of_barren hbarren hopen next number, h.content_openFile path later⟩
  · intro layout font tree tokens other hplain hother number line hline
    exact (Document.barren_render? hplain hother).parse_of_selectLine hline
  · intro store calls hopen hcalls
    exact runAll_of_barren hbarren hcalls hopen

/-- A record whose leaf and token are bars, drawn over itself. Then the first line of the document,
the line behind its last one, and runs with a run from another file in between. -/
theorem draw_over_input_ends_drawing_bars :
    let store : Store :=
      { files := [("bank", encode "(S |||||| b) ||||| ||||| y\n"),
          ("other", encode "(T c) ||||| z\n")] }
    let after := (draw Store.system { output := "bank" } "bank" 0 store).2
    let again : Call := ⟨{ output := "bank" }, "bank", 0⟩
    let other : Call := ⟨{ output := "out" }, "other", 0⟩
    (∃ final, draw Store.system {} "bank" 0 after =
        (.error (.malformedRecord "missing '|||||' delimiter"), final) ∧
      final.get? = after.get?) ∧
      (∃ count final, draw Store.system {} "bank" count after =
        (.error (.lineNotFound "bank" count count), final) ∧ final.get? = after.get?) ∧
      (runAll after [again, other, again]).2.openFile "bank" = after.openFile "bank" ∧
      (runAll after [again, other, again]).1[2]? =
        some (.error (.malformedRecord "missing '|||||' delimiter")) := by
  intro store after again other
  have hdrawn : (draw Store.system { output := "bank" } "bank" 0 store).1 =
      .ok ⟨"bank", .node "S" [.leaf "||||||", .leaf "b"], 2, 2, 2⟩ := by
    decide +kernel
  obtain ⟨_, text, -, hrender, hfile, hlater, -, hruns⟩ :=
    draw_over_input_ends_drawing Store.system_lawful (by decide) rfl (Prod.ext hdrawn rfl)
  have hpos : 0 < text.toList.count '\n' :=
    List.count_pos_iff.mpr
      (List.mem_of_getLast? (Document.barren_render? (by decide) hrender).ended)
  have hfirst : refusal "bank" text 0 = .malformedRecord "missing '|||||' delimiter" :=
    if_pos hpos
  have hbehind : refusal "bank" text (text.toList.count '\n') =
      .lineNotFound "bank" (text.toList.count '\n') (text.toList.count '\n') :=
    if_neg (Nat.lt_irrefl _)
  have hopen : after.openFile "bank" = .ok { bytes := encode text } := by
    have hget : after.get? "bank" = some (encode text) := hfile
    have hwhole : after.broken.lookup "bank" = none := by decide +kernel
    simp only [Store.openFile, hget, hwhole]
  -- From here on it does not matter how the store came about, and nothing should evaluate it.
  clear_value after
  obtain ⟨hlast, hresults⟩ := hruns after [again, other, again] hopen (by decide)
  refine ⟨?_, ?_, hlast.trans hopen.symm, ?_⟩
  · rw [← hfirst]
    exact hlater after hopen {} 0
  · refine ⟨text.toList.count '\n', ?_⟩
    rw [← hbehind]
    exact hlater after hopen {} _
  · rw [hresults 2 again rfl rfl, ← hfirst]

end Runs

end Drawing

end TreeFigure
