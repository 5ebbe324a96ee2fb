import TreeFigure.Proofs.Source.Lines

/-!
The lines of a file by rule, and what is left of them when reading fails. A file is its lines, each
with a line feed, but the last one may lack it. Bytes that were delivered before a failure hold
every line whose line feed they hold, exactly as the whole file does, and no other line.
-/

namespace TreeFigure.Source

/-- The bytes are these lines. There is a line behind the last line feed only if it is not empty. -/
inductive Lined : List UInt8 → List (List UInt8) → Prop
  | ended {found : List (List UInt8)} (h : ∀ line ∈ found, lineFeed ∉ line) :
      Lined (terminated found) found
  | unended {found : List (List UInt8)} {last : List UInt8}
      (h : ∀ line ∈ found, lineFeed ∉ line) (hlast : lineFeed ∉ last) (hne : last ≠ []) :
      Lined (terminated found ++ last) (found ++ [last])

section Bytes

variable {bytes tail : List UInt8} {found : List (List UInt8)}

/-- Any bytes are lines with line feeds and a rest without one. -/
theorem exists_terminated (bytes : List UInt8) :
    ∃ found tail, bytes = terminated found ++ tail ∧ (∀ line ∈ found, lineFeed ∉ line) ∧
      lineFeed ∉ tail :=
  Text.exists_flatMap_concat lineFeed bytes

theorem pieces_terminated_append (hfound : ∀ line ∈ found, lineFeed ∉ line)
    (htail : lineFeed ∉ tail) : pieces (terminated found ++ tail) = found ++ [tail] := by
  rw [pieces_terminated hfound, pieces_of_notMem htail]

theorem count_terminated_append (hfound : ∀ line ∈ found, lineFeed ∉ line)
    (htail : lineFeed ∉ tail) : (terminated found ++ tail).count lineFeed = found.length :=
  Text.count_flatMap_concat hfound htail

theorem Lined.lines_eq (h : Lined bytes found) : lines bytes = found := by
  cases h with
  | ended hfound =>
    have hpieces : pieces (terminated found) = found ++ [[]] := by
      have hall := pieces_terminated hfound []
      rwa [List.append_nil] at hall
    rw [lines, hpieces, if_pos (by simp), List.dropLast_concat]
  | unended hfound hlast hne =>
    rw [lines, pieces_terminated_append hfound hlast, if_neg (by simpa using hne)]

theorem exists_lined (bytes : List UInt8) : ∃ found, Lined bytes found := by
  obtain ⟨found, tail, rfl, hfound, htail⟩ := exists_terminated bytes
  by_cases hne : tail = []
  · subst hne
    rw [List.append_nil]
    exact ⟨found, .ended hfound⟩
  · exact ⟨_, .unended hfound htail hne⟩

/-- The lines by rule are the lines that are found. -/
theorem lined_iff : Lined bytes found ↔ lines bytes = found := by
  refine ⟨Lined.lines_eq, ?_⟩
  intro h
  obtain ⟨other, hother⟩ := exists_lined bytes
  rwa [← h, hother.lines_eq]

end Bytes

section Failing

variable {delivered content : List UInt8} {reason : String} {index : Nat}

/-- A source that fails has as many lines as line feeds were delivered. -/
theorem length_available (delivered : List UInt8) (reason : String) :
    (available ⟨delivered, some reason⟩).length = delivered.count lineFeed := by
  obtain ⟨found, tail, rfl, hfound, htail⟩ := exists_terminated delivered
  rw [available, pieces_terminated_append hfound htail, List.dropLast_concat,
    count_terminated_append hfound htail]

/-- A line that was delivered with its line feed is a line of the whole file. -/
theorem available_getElem? (hdelivered : delivered <+: content)
    (h : index < delivered.count lineFeed) :
    (available ⟨delivered, some reason⟩)[index]? = (available ⟨content, none⟩)[index]? := by
  obtain ⟨found, tail, rfl, hfound, htail⟩ := exists_terminated delivered
  obtain ⟨more, rfl⟩ := hdelivered
  rw [count_terminated_append hfound htail] at h
  have hline : found = found.take index ++ found[index] :: found.drop (index + 1) := by
    rw [← List.drop_eq_getElem_cons h, List.take_append_drop]
  have hpieces : pieces (terminated found ++ tail ++ more) =
      found.take index ++ found[index] :: (found.drop (index + 1) ++ pieces (tail ++ more)) := by
    rw [List.append_assoc, pieces_terminated hfound]
    rw [← List.cons_append, ← List.append_assoc, ← hline]
  have hwhole := lines_getElem?_of_pieces hpieces fun hnil =>
    absurd (List.append_eq_nil_iff.mp hnil).2 (Text.pieces_ne_nil _ _)
  have hlength : (found.take index).length = index := by
    rw [List.length_take]
    omega
  rw [hlength] at hwhole
  rw [available, available, pieces_terminated_append hfound htail, List.dropLast_concat, hwhole,
    List.getElem?_eq_getElem h]

end Failing

/-- Bytes are decoded to the text that they encode. -/
theorem decode?_eq_some_iff {bytes : List UInt8} {text : String} :
    decode? bytes = some text ↔ encode text = bytes := by
  constructor
  · intro h
    unfold decode? String.fromUTF8? at h
    split at h
    case isTrue hvalid =>
      obtain rfl := Option.some.inj h
      rw [encode, toList_byteArray]
      rfl
    case isFalse => cases h
  · rintro rfl
    exact decode?_encode text

end TreeFigure.Source
