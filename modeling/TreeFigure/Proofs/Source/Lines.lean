import TreeFigure.Source
import TreeFigure.Proofs.Text.Joining

/-!
Finding a line that was written into a file. The bytes of a text hold a line feed only where the
text does, so the text of a line is one piece of the file, and whatever bytes the other lines hold
it is decoded to the same text.
-/

namespace TreeFigure.Source

/-! The bytes of a text. -/

theorem loop_eq_drop (bytes : ByteArray) (start : Nat) (found : List UInt8) :
    ByteArray.toList.loop bytes start found = found.reverse ++ bytes.data.toList.drop start := by
  fun_induction ByteArray.toList.loop bytes start found with
  | case1 start found hlt ih =>
    have hstart : start < bytes.data.toList.length := hlt
    have hbyte : bytes.get! start = bytes.data.toList[start] := by
      rw [ByteArray.get!, getElem!_pos bytes.data start hlt, Array.getElem_toList]
    rw [ih, List.drop_eq_getElem_cons hstart, List.reverse_cons, List.append_assoc, hbyte,
      List.singleton_append]
  | case2 start found hge =>
    have hend : bytes.data.toList.length ≤ start := Nat.le_of_not_lt hge
    rw [List.drop_eq_nil_of_le hend, List.append_nil]

theorem toList_byteArray (bytes : ByteArray) : bytes.toList = bytes.data.toList := by
  rw [ByteArray.toList, loop_eq_drop]
  rfl

theorem encode_eq_flatMap (text : String) :
    encode text = text.toList.flatMap String.utf8EncodeChar := by
  have hbytes : text.toUTF8 = text.toList.utf8Encode := by
    rw [String.toUTF8_eq_toByteArray, String.utf8Encode_toList]
  rw [encode, hbytes, toList_byteArray, List.utf8Encode, List.toList_data_toByteArray]

theorem encode_ne_nil {text : String} (h : text ≠ "") : encode text ≠ [] := by
  intro hnil
  rw [encode_eq_flatMap, List.flatMap_eq_nil_iff] at hnil
  apply h
  rw [← String.toList_eq_nil_iff, List.eq_nil_iff_forall_not_mem]
  exact fun c hmem => String.utf8EncodeChar_ne_nil (hnil c hmem)

theorem decode?_encode (text : String) : decode? (encode text) = some text := by
  have hbytes : (⟨(encode text).toArray⟩ : ByteArray) = text.toByteArray := by
    rw [encode, toList_byteArray, String.toUTF8_eq_toByteArray]
  rw [decode?, hbytes, String.fromUTF8?, dif_pos text.isValidUTF8]
  rfl

@[simp]
theorem text_encode (text : String) : ({ bytes := encode text } : Source).text = .ok text := by
  unfold Source.text
  simp only [decode?_encode]

/-- Only a character below 128 has a byte below 128, and that byte is the character. -/
theorem toNat_eq_of_mem_utf8EncodeChar {c : Char} {byte : UInt8} (hlt : byte.toNat < 128)
    (h : byte ∈ String.utf8EncodeChar c) : c.toNat = byte.toNat := by
  unfold String.utf8EncodeChar at h
  have hval : c.val.toNat = c.toNat := rfl
  simp only [hval] at h
  split at h
  case isTrue hsmall =>
    rw [List.mem_singleton.mp h, UInt8.toNat_ofNat']
    omega
  case isFalse =>
    exfalso
    have hbig : ∀ n, 128 ≤ n → n < 256 → ¬ byte = UInt8.ofNat n := by
      rintro n hge hbound rfl
      rw [UInt8.toNat_ofNat'] at hlt
      omega
    split at h
    case isTrue =>
      simp only [List.mem_cons, List.not_mem_nil, or_false] at h
      rcases h with h | h <;> exact hbig _ (by omega) (by omega) h
    case isFalse =>
      split at h
      case isTrue =>
        simp only [List.mem_cons, List.not_mem_nil, or_false] at h
        rcases h with h | h | h <;> exact hbig _ (by omega) (by omega) h
      case isFalse =>
        simp only [List.mem_cons, List.not_mem_nil, or_false] at h
        rcases h with h | h | h | h <;> exact hbig _ (by omega) (by omega) h

theorem mem_toList_of_mem_encode {text : String} {c : Char} {byte : UInt8}
    (hlt : byte.toNat < 128) (hc : c.toNat = byte.toNat) (h : byte ∈ encode text) :
    c ∈ text.toList := by
  rw [encode_eq_flatMap] at h
  obtain ⟨d, hmem, hbyte⟩ := List.mem_flatMap.mp h
  have hd : d.toNat = byte.toNat := toNat_eq_of_mem_utf8EncodeChar hlt hbyte
  have hsame : d = c := Char.toNat_inj.mp (hd.trans hc.symm)
  rwa [← hsame]

/-! The lines of a file. -/

/-- Lines one after another, each with a line feed. -/
def terminated (lines : List (List UInt8)) : List UInt8 :=
  lines.flatMap (· ++ [lineFeed])

/-- What may follow the text of a line: the end of the file, or an ending and any bytes. -/
inductive Ending : List UInt8 → Prop
  | endOfFile : Ending []
  | lineFeed (after : List UInt8) : Ending (Source.lineFeed :: after)
  | returnFeed (after : List UInt8) : Ending (carriageReturn :: Source.lineFeed :: after)

theorem pieces_of_notMem {piece : List UInt8} (h : lineFeed ∉ piece) :
    pieces piece = [piece] :=
  Text.pieces_of_notMem h

theorem pieces_append_lineFeed (left right : List UInt8) :
    pieces (left ++ lineFeed :: right) = pieces left ++ pieces right :=
  Text.pieces_append_mark lineFeed left right

theorem pieces_terminated {lines : List (List UInt8)} (h : ∀ line ∈ lines, lineFeed ∉ line)
    (rest : List UInt8) : pieces (terminated lines ++ rest) = lines ++ pieces rest :=
  Text.pieces_flatMap_concat h rest

/-- A piece is a line unless it is the empty piece at the end. -/
theorem lines_getElem?_of_pieces {bytes line : List UInt8} {before after : List (List UInt8)}
    (h : pieces bytes = before ++ line :: after) (hline : after = [] → line ≠ []) :
    (lines bytes)[before.length]? = some line := by
  have hplace : (pieces bytes)[before.length]? = some line := by
    rw [h, List.getElem?_append_right (Nat.le_refl _)]
    simp
  unfold lines
  split
  case isFalse => exact hplace
  case isTrue hlast =>
    have hafter : after ≠ [] := by
      rintro rfl
      rw [h, List.getLast?_append, List.getLast?_singleton, Option.some_or,
        Option.some.injEq] at hlast
      exact hline rfl hlast
    have hbound : before.length < (pieces bytes).dropLast.length := by
      have hpos : 0 < after.length := List.length_pos_iff.mpr hafter
      rw [h, List.length_dropLast, List.length_append, List.length_cons]
      omega
    rw [List.getElem?_eq_getElem hbound, List.getElem_dropLast, ← hplace,
      List.getElem?_eq_getElem]

theorem dropReturn_append (content : List UInt8) :
    dropReturn (content ++ [carriageReturn]) = content := by
  simp [dropReturn]

theorem dropReturn_of_notMem {content : List UInt8} (h : carriageReturn ∉ content) :
    dropReturn content = content := by
  rw [dropReturn, if_neg]
  exact fun hlast => h (List.mem_of_getLast? hlast)

/-- The line at a place is what was written there, whichever ending it has and whatever the other
lines hold. -/
theorem exists_line {before : List (List UInt8)} {content ending : List UInt8}
    (hbefore : ∀ line ∈ before, lineFeed ∉ line) (hne : content ≠ [])
    (hfeed : lineFeed ∉ content) (hreturn : carriageReturn ∉ content) (hending : Ending ending) :
    ∃ line, (lines (terminated before ++ (content ++ ending)))[before.length]? = some line ∧
      dropReturn line = content := by
  have hpieces := pieces_terminated hbefore (content ++ ending)
  cases hending with
  | endOfFile =>
    have hline : pieces (terminated before ++ (content ++ [])) = before ++ [content] := by
      rw [hpieces, List.append_nil, pieces_of_notMem hfeed]
    exact ⟨content, lines_getElem?_of_pieces hline fun _ => hne, dropReturn_of_notMem hreturn⟩
  | lineFeed after =>
    have hline : pieces (terminated before ++ (content ++ Source.lineFeed :: after)) =
        before ++ content :: pieces after := by
      rw [hpieces, pieces_append_lineFeed, pieces_of_notMem hfeed, List.singleton_append]
    exact ⟨content, lines_getElem?_of_pieces hline fun _ => hne, dropReturn_of_notMem hreturn⟩
  | returnFeed after =>
    have hwhole : Source.lineFeed ∉ content ++ [carriageReturn] := by
      rw [List.mem_append, List.mem_singleton, not_or]
      exact ⟨hfeed, by decide⟩
    have hsplit : content ++ carriageReturn :: Source.lineFeed :: after =
        (content ++ [carriageReturn]) ++ Source.lineFeed :: after := by simp
    have hline : pieces (terminated before ++ (content ++
        carriageReturn :: Source.lineFeed :: after)) =
        before ++ (content ++ [carriageReturn]) :: pieces after := by
      rw [hpieces, hsplit, pieces_append_lineFeed, pieces_of_notMem hwhole,
        List.singleton_append]
    exact ⟨content ++ [carriageReturn], lines_getElem?_of_pieces hline fun _ => by simp,
      dropReturn_append content⟩

end TreeFigure.Source
