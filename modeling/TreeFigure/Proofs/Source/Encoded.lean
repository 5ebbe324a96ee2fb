import Mathlib.Data.List.Basic
import TreeFigure.Proofs.Source.Reading

/-!
The lines of an encoded text. They are the encoded lines of the text, so each of them is decoded,
and what is decoded stands in the text.
-/

namespace TreeFigure.Source

theorem encode_ofList (chars : List Char) :
    encode (String.ofList chars) = chars.flatMap String.utf8EncodeChar := by
  rw [encode_eq_flatMap, String.toList_ofList]

theorem lineFeed_notMem_encode {chars : List Char} (h : '\n' ∉ chars) :
    lineFeed ∉ encode (String.ofList chars) := by
  intro hmem
  have hin : '\n' ∈ (String.ofList chars).toList :=
    mem_toList_of_mem_encode (by decide) (by decide) hmem
  rw [String.toList_ofList] at hin
  exact h hin

/-- A text that ends with a line end has as many lines as line ends. -/
theorem exists_lines_encode {text : String} (h : text.toList.getLast? = some '\n') :
    ∃ found : List (List Char), text.toList = found.flatMap (· ++ ['\n']) ∧
      found.length = text.toList.count '\n' ∧
      lines (encode text) = found.map fun line => encode (String.ofList line) := by
  obtain ⟨found, tail, htext, hfound, htail⟩ := Text.exists_flatMap_concat '\n' text.toList
  have hcount := Text.count_flatMap_concat hfound htail
  obtain rfl : tail = [] := by
    refine Decidable.byContradiction fun hne => ?_
    rw [htext, List.getLast?_append, List.getLast?_eq_some_getLast hne, Option.some_or,
      Option.some.injEq] at h
    exact htail (h ▸ List.getLast_mem hne)
  have hbytes : encode text = terminated (found.map fun line => encode (String.ofList line)) := by
    have hfeed : ['\n'].flatMap String.utf8EncodeChar = [lineFeed] := by decide
    rw [encode_eq_flatMap, htext, List.append_nil, List.flatMap_assoc, terminated,
      List.flatMap_map]
    refine List.flatMap_congr fun line _ => ?_
    rw [List.flatMap_append, hfeed, encode_ofList]
  have hlined : Lined (encode text) (found.map fun line => encode (String.ofList line)) := by
    rw [hbytes]
    refine .ended fun line hmem => ?_
    obtain ⟨chars, hchars, rfl⟩ := List.mem_map.mp hmem
    exact lineFeed_notMem_encode (hfound chars hchars)
  rw [List.append_nil] at htext
  refine ⟨found, htext, ?_, hlined.lines_eq⟩
  rw [← hcount, htext, List.append_nil]

/-- Without a carriage return at its end an encoded text is still an encoded text. -/
theorem exists_encode_eq_dropReturn (chars : List Char) :
    ∃ text : String, encode text = dropReturn (encode (String.ofList chars)) ∧
      text.toList <+: chars := by
  by_cases hlast : (encode (String.ofList chars)).getLast? = some carriageReturn
  · rw [encode_ofList] at hlast
    rcases List.eq_nil_or_concat' chars with rfl | ⟨before, c, rfl⟩
    · cases hlast
    · have hne : String.utf8EncodeChar c ≠ [] := String.utf8EncodeChar_ne_nil
      rw [List.flatMap_append, List.flatMap_singleton, List.getLast?_append,
        List.getLast?_eq_some_getLast hne, Option.some_or, Option.some.injEq] at hlast
      have hc : c.toNat = carriageReturn.toNat :=
        toNat_eq_of_mem_utf8EncodeChar (by decide) (hlast ▸ List.getLast_mem hne)
      obtain rfl : c = '\r' := Char.toNat_inj.mp hc
      have hreturn : String.utf8EncodeChar '\r' = [carriageReturn] := by decide
      refine ⟨String.ofList before, ?_, ?_⟩
      · rw [encode_ofList, encode_ofList, List.flatMap_append, List.flatMap_singleton, hreturn,
          dropReturn_append]
      · rw [String.toList_ofList]
        exact List.prefix_append before ['\r']
  · refine ⟨String.ofList chars, ?_, ?_⟩
    · rw [dropReturn, if_neg hlast]
    · exact ⟨[], by rw [String.toList_ofList, List.append_nil]⟩

end TreeFigure.Source
