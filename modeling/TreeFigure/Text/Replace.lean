/-!
Searching and replacing a fixed pattern. Occurrences are found from left to right and never
overlap. The empty pattern occurs before every character and at the end.
-/

namespace TreeFigure.Text

/-- Replaces every occurrence of `old` by `new` in what follows the first `skip` characters,
which belong to an occurrence already replaced and are dropped. -/
def replaceAfter (old new : List Char) : (skip : Nat) → List Char → List Char
  | _, [] => if old.isEmpty then new else []
  | skip + 1, _ :: rest => replaceAfter old new skip rest
  | 0, c :: rest =>
    if old.isEmpty then new ++ c :: replaceAfter old new 0 rest
    else if old.isPrefixOf (c :: rest) then new ++ replaceAfter old new (old.length - 1) rest
    else c :: replaceAfter old new 0 rest

def replace (old new text : List Char) : List Char :=
  replaceAfter old new 0 text

theorem replaceAfter_drop (old new : List Char) (skip : Nat) (text : List Char)
    (h : old ≠ []) : replaceAfter old new skip text = replace old new (text.drop skip) := by
  have hempty : old.isEmpty = false := by cases old <;> simp_all
  induction skip generalizing text with
  | zero => rfl
  | succ skip ih =>
    cases text with
    | nil => simp [replace, replaceAfter, hempty]
    | cons c rest => simpa [replaceAfter] using ih rest

/-- Number of bytes of a text in UTF-8. -/
def byteSize : List Char → Nat
  | [] => 0
  | c :: rest => c.utf8Size + byteSize rest

@[simp]
theorem byteSize_append (left right : List Char) :
    byteSize (left ++ right) = byteSize left + byteSize right := by
  induction left with
  | nil => simp [byteSize]
  | cons c rest ih =>
    simp only [List.cons_append, byteSize, ih]
    omega

/-- Byte offset of the first occurrence of `pattern`. -/
def firstOffset? (pattern : List Char) : List Char → Option Nat
  | [] => if pattern.isEmpty then some 0 else none
  | c :: rest =>
    if pattern.isPrefixOf (c :: rest) then some 0
    else (firstOffset? pattern rest).map (· + c.utf8Size)

theorem isPrefixOf_eq_false {pattern text : List Char} (h : ¬ pattern <+: text) :
    pattern.isPrefixOf text = false := by
  rw [Bool.eq_false_iff]
  exact fun hstart => h (List.isPrefixOf_iff_prefix.mp hstart)

/-- What stands before and after the first occurrence of `mark`, which is not empty. -/
def cut? (mark : List Char) : List Char → Option (List Char × List Char)
  | [] => none
  | c :: rest =>
    if mark.isPrefixOf (c :: rest) then some ([], (c :: rest).drop mark.length)
    else (cut? mark rest).map fun (before, after) => (c :: before, after)

/-- The parts around the first occurrence of a mark give the text back. -/
theorem eq_append_of_cut? {mark text before after : List Char}
    (h : cut? mark text = some (before, after)) : text = before ++ mark ++ after := by
  induction text generalizing before after with
  | nil => simp [cut?] at h
  | cons c rest ih =>
    rw [cut?] at h
    split at h
    case isTrue hlead =>
      obtain ⟨tail, htail⟩ := List.isPrefixOf_iff_prefix.mp hlead
      simp only [Option.some.injEq, Prod.mk.injEq] at h
      obtain ⟨rfl, rfl⟩ := h
      rw [← htail]
      simp
    case isFalse =>
      obtain ⟨⟨b, a⟩, hcut, heq⟩ := Option.map_eq_some_iff.mp h
      simp only [Prod.mk.injEq] at heq
      obtain ⟨rfl, rfl⟩ := heq
      simp [ih hcut]

end TreeFigure.Text
