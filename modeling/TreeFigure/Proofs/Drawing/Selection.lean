import TreeFigure.Drawing
import TreeFigure.Store
import TreeFigure.Proofs.Source.Reading

/-!
Selecting a line of a file. The line is found by its place among the lines of the file alone, and
nothing but its own bytes decides whether it is text. A file that fails while it is read gives the
same line, if it was complete by then, and otherwise neither a line nor a count of lines.
-/

namespace TreeFigure.Drawing

open Source

section Select

variable {path reason : String} {index : Nat} {source : Source}
  {line delivered content : List UInt8}

theorem selectLine_eq_ok_iff_encode (h : source.available[index]? = some line) (text : String) :
    selectLine path index (.ok source) = .ok text ↔ encode text = dropReturn line := by
  rw [← decode?_eq_some_iff, selectLine, h]
  cases hdecode : decode? (dropReturn line) <;> simp [hdecode]

theorem selectLine_eq_notText_iff (h : source.available[index]? = some line) :
    selectLine path index (.ok source) =
        .error (.malformedRecord "line is not valid UTF-8") ↔
      ∀ text, encode text ≠ dropReturn line := by
  have hnone : (∀ text, encode text ≠ dropReturn line) ↔ decode? (dropReturn line) = none := by
    rw [Option.eq_none_iff_forall_ne_some]
    simp only [Ne, decode?_eq_some_iff]
  rw [hnone, selectLine, h]
  cases hdecode : decode? (dropReturn line) <;> simp [hdecode, Record.Fault.message]

theorem selectLine_of_length_le (h : (lines content).length ≤ index) :
    selectLine path index (.ok { bytes := content }) =
      .error (.lineNotFound path index (lines content).length) := by
  have hnone : (available { bytes := content })[index]? = none := List.getElem?_eq_none h
  rw [selectLine, hnone]
  rfl

/-- A line that was complete before the failure is the line of the whole file. -/
theorem selectLine_of_delivered (hdelivered : delivered <+: content)
    (h : index < delivered.count lineFeed) :
    selectLine path index (.ok ⟨delivered, some reason⟩) =
      selectLine path index (.ok { bytes := content }) := by
  have hbound : index < (available ⟨delivered, some reason⟩).length := by
    rw [length_available]
    exact h
  have hline := List.getElem?_eq_getElem hbound
  have hsame : (available ⟨content, none⟩)[index]? =
      (available ⟨delivered, some reason⟩)[index]? := (available_getElem? hdelivered h).symm
  rw [selectLine, selectLine, hsame, hline]

theorem selectLine_of_failed (h : delivered.count lineFeed ≤ index) :
    selectLine path index (.ok ⟨delivered, some reason⟩) =
      .error (.operationFailed ("read line: " ++ path) reason) := by
  have hnone : (available ⟨delivered, some reason⟩)[index]? = none := by
    apply List.getElem?_eq_none
    rw [length_available]
    exact h
  rw [selectLine, hnone]

end Select

/-- A line of a file is its own bytes without one carriage return at their end, if they are a
text, whatever the other lines hold; a place behind the last line is reported with the number of
lines. If reading fails after some bytes, a line that they hold with its line feed is found as in
the whole file, and any other place is reported as failed. -/
theorem readLine_selects_lines {σ : Type} (files : Files (StateM σ)) (path : String)
    (index : Nat) (state : σ) :
    (∀ content found, (files.openFile path state).1 = .ok { bytes := content } →
      Lined content found →
        (∀ line, found[index]? = some line →
          (∀ text, (readLine files path index state).1 = .ok text ↔
            encode text = dropReturn line) ∧
          ((readLine files path index state).1 =
              .error (.malformedRecord "line is not valid UTF-8") ↔
            ∀ text, encode text ≠ dropReturn line)) ∧
        (found.length ≤ index →
          (readLine files path index state).1 =
            .error (.lineNotFound path index found.length))) ∧
    (∀ delivered reason, (files.openFile path state).1 = .ok ⟨delivered, some reason⟩ →
      (∀ content, delivered <+: content → index < delivered.count lineFeed →
        ∀ whole : Files (StateM σ), (whole.openFile path state).1 = .ok { bytes := content } →
          (readLine files path index state).1 = (readLine whole path index state).1) ∧
      (delivered.count lineFeed ≤ index →
        (readLine files path index state).1 =
          .error (.operationFailed ("read line: " ++ path) reason))) ∧
    ∀ reason, (files.openFile path state).1 = .error reason →
      (readLine files path index state).1 = .error (.inputUnreadable path reason) := by
  have hread (any : Files (StateM σ)) : (readLine any path index state).1 =
      selectLine path index (any.openFile path state).1 := rfl
  refine ⟨?_, ?_, ?_⟩
  · intro content found hopen hlined
    obtain rfl := hlined.lines_eq
    rw [hread, hopen]
    refine ⟨?_, selectLine_of_length_le⟩
    intro line hline
    exact ⟨selectLine_eq_ok_iff_encode hline, selectLine_eq_notText_iff hline⟩
  · intro delivered reason hopen
    rw [hread, hopen]
    refine ⟨?_, selectLine_of_failed⟩
    intro content hdelivered hindex whole hwhole
    rw [hread, hwhole]
    exact selectLine_of_delivered hdelivered hindex
  · intro reason hopen
    rw [hread, hopen]
    rfl

/-- A line with two carriage returns behind bytes that are no text, a place behind the last line,
and a file that fails in its second line. -/
theorem readLine_selects_lines_returns :
    let bytes : List UInt8 := [0xff, 10, 97, 13, 13, 10, 98]
    let store : Store :=
      { files := [("bank", bytes), ("torn", bytes), ("empty", [])], broken := [("torn", 4)] }
    (readLine Store.system "bank" 1 store).1 = .ok "a\r" ∧
    (readLine Store.system "bank" 0 store).1 =
      .error (.malformedRecord "line is not valid UTF-8") ∧
    (readLine Store.system "bank" 3 store).1 = .error (.lineNotFound "bank" 3 3) ∧
    (readLine Store.system "empty" 0 store).1 = .error (.lineNotFound "empty" 0 0) ∧
    (readLine Store.system "torn" 0 store).1 =
      .error (.malformedRecord "line is not valid UTF-8") ∧
    (readLine Store.system "torn" 1 store).1 =
      .error (.operationFailed "read line: torn" "disk failure") ∧
    (readLine Store.system "none" 0 store).1 = .error (.inputUnreadable "none" "no such file") := by
  intro bytes store
  have hlined : Lined bytes [[0xff], [97, 13, 13], [98]] := lined_iff.mpr (by decide)
  have hnotText : ∀ text, encode text ≠ dropReturn [0xff] := by
    intro text htext
    have hdecode := decode?_eq_some_iff.mpr htext
    have hnone : decode? (dropReturn [0xff]) = none := by decide +kernel
    rw [hnone] at hdecode
    cases hdecode
  have hbank (index : Nat) :=
    (readLine_selects_lines Store.system "bank" index store).1 bytes _ rfl hlined
  have htorn (index : Nat) :=
    (readLine_selects_lines Store.system "torn" index store).2.1 [0xff, 10, 97, 13] "disk failure"
      rfl
  let whole : Files (StateM Store) :=
    { Store.system with openFile := fun _ => Store.system.openFile "bank" }
  refine ⟨?_, ?_, ?_, ?_, ?_, ?_, ?_⟩
  · exact (((hbank 1).1 [97, 13, 13] rfl).1 "a\r").mpr (by decide +kernel)
  · exact ((hbank 0).1 [0xff] rfl).2.mpr hnotText
  · exact (hbank 3).2 (by decide)
  · exact ((readLine_selects_lines Store.system "empty" 0 store).1 [] [] rfl
      (lined_iff.mpr rfl)).2 (by decide)
  · calc (readLine Store.system "torn" 0 store).1
        = (readLine whole "torn" 0 store).1 :=
          (htorn 0).1 bytes ⟨[13, 10, 98], rfl⟩ (by decide) whole rfl
      _ = .error (.malformedRecord "line is not valid UTF-8") :=
          (((readLine_selects_lines whole "torn" 0 store).1 bytes _ rfl hlined).1 [0xff] rfl).2.mpr
            hnotText
  · exact (htorn 1).2 (by decide)
  · exact (readLine_selects_lines Store.system "none" 0 store).2.2 "no such file" rfl

end TreeFigure.Drawing
