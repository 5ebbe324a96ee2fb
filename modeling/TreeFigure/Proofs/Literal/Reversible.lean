import TreeFigure.Literal
import TreeFigure.Proofs.Text.Substitution

/-!
Tables that can be undone. If the placeholders of a table are single characters and pairwise
different, showing undoes hiding in every text without them, whatever the literals are: they may be
empty, overlap, begin one another, or hold placeholders of other entries. The entries hide in order
and show in the opposite order, so each entry finds the text that it left.
-/

namespace TreeFigure.LiteralTable

open Text

/-- Every placeholder is one character, and no two entries share it. -/
structure Reversible (table : LiteralTable) : Prop where
  single : ∀ entry ∈ table, entry.placeholder.length = 1
  distinct : (table.map Literal.placeholder).Nodup

instance (table : LiteralTable) : Decidable table.Reversible :=
  @decidable_of_iff _ ((∀ entry ∈ table, entry.placeholder.length = 1) ∧
      (table.map Literal.placeholder).Nodup)
    ⟨fun ⟨hsingle, hdistinct⟩ => ⟨hsingle, hdistinct⟩,
      fun ⟨hsingle, hdistinct⟩ => ⟨hsingle, hdistinct⟩⟩ inferInstance

theorem hideChars_cons (entry : Literal) (table : LiteralTable) (text : List Char) :
    hideChars (entry :: table) text =
      table.hideChars (replace entry.text.toList entry.placeholder.toList text) := rfl

/-- The first entry is the last one to be shown again. -/
theorem showChars_cons (entry : Literal) (table : LiteralTable) (text : List Char) :
    showChars (entry :: table) text =
      replace entry.placeholder.toList entry.text.toList (table.showChars text) := by
  simp [showChars]

theorem firstPlaceholder?_eq_none_iff {table : LiteralTable} {text : String} :
    table.firstPlaceholder? text = none ↔
      ∀ entry ∈ table, firstOffset? entry.placeholder.toList text.toList = none := by
  rw [firstPlaceholder?, List.min?_eq_none_iff, List.filterMap_eq_nil_iff]

namespace Reversible

variable {entry : Literal} {table : LiteralTable}

theorem tail (h : Reversible (entry :: table)) : table.Reversible :=
  ⟨fun other hmem => h.single other (List.mem_cons_of_mem entry hmem), h.distinct.of_cons⟩

theorem exists_mark (h : table.Reversible) (hmem : entry ∈ table) :
    ∃ mark, entry.placeholder.toList = [mark] := by
  rw [← List.length_eq_one_iff, String.length_toList]
  exact h.single entry hmem

/-- Hiding by one entry brings in no placeholder of the others. -/
theorem notMem_replace (h : Reversible (entry :: table)) {other : Literal} (hmem : other ∈ table)
    {mark : Char} (hmark : other.placeholder.toList = [mark]) {text : List Char}
    (hfree : mark ∉ text) :
    mark ∉ replace entry.text.toList entry.placeholder.toList text := by
  intro hin
  rcases mem_of_mem_replace hin with hnew | htext
  · obtain ⟨first, hfirst⟩ := h.exists_mark List.mem_cons_self
    rw [hfirst, List.mem_singleton] at hnew
    have hsame : other.placeholder = entry.placeholder := by
      rw [← String.toList_inj, hmark, hfirst, hnew]
    have hapart : entry.placeholder ∉ table.map Literal.placeholder :=
      (List.nodup_cons.mp h.distinct).1
    exact hapart (hsame ▸ List.mem_map_of_mem hmem)
  · exact hfree htext

/-- Each entry is undone where the entries after it have been undone. -/
theorem showChars_hideChars (h : table.Reversible) {text : List Char}
    (hfree : ∀ entry ∈ table, ∀ mark, entry.placeholder.toList = [mark] → mark ∉ text) :
    table.showChars (table.hideChars text) = text := by
  induction table generalizing text with
  | nil => rfl
  | cons entry table ih =>
    obtain ⟨mark, hmark⟩ := h.exists_mark List.mem_cons_self
    let hidden := replace entry.text.toList entry.placeholder.toList text
    have hrest : showChars table (hideChars table hidden) = hidden := by
      apply ih h.tail
      intro other hmem first hfirst
      have hkept := hfree other (List.mem_cons_of_mem entry hmem) first hfirst
      exact h.notMem_replace hmem hfirst hkept
    have hentry : replace entry.placeholder.toList entry.text.toList hidden = text := by
      simp only [hidden, hmark]
      exact replace_replace (hfree entry List.mem_cons_self mark hmark)
    rw [hideChars_cons, showChars_cons, hrest, hentry]

theorem notMem_of_firstPlaceholder?_eq_none {text : String}
    (hnone : table.firstPlaceholder? text = none) (hmem : entry ∈ table) {mark : Char}
    (hmark : entry.placeholder.toList = [mark]) : mark ∉ text.toList := by
  rw [← firstOffset?_singleton_eq_none_iff, ← hmark]
  exact firstPlaceholder?_eq_none_iff.mp hnone entry hmem

theorem showChars_hideChars_of_eq_none (h : table.Reversible) {text : String}
    (hnone : table.firstPlaceholder? text = none) :
    table.showChars (table.hideChars text.toList) = text.toList :=
  h.showChars_hideChars fun _ hmem _ hmark =>
    notMem_of_firstPlaceholder?_eq_none hnone hmem hmark

end Reversible

/-- Showing undoes hiding in every text without placeholders. An entry with an empty literal puts
its placeholder before every character and at the end, and the other entries go on from there. -/
theorem reveal_hide {table : LiteralTable} (h : table.Reversible) :
    (∀ text, table.firstPlaceholder? text = none → table.reveal (table.hide text) = text) ∧
      ∀ (placeholder : String) (rest : LiteralTable) (text : String),
        LiteralTable.hide (⟨"", placeholder⟩ :: rest) text =
          rest.hide (String.ofList (text.toList.flatMap (fun c => placeholder.toList ++ [c]) ++
            placeholder.toList)) := by
  refine ⟨?_, ?_⟩
  · intro text hnone
    rw [reveal, hide, String.toList_ofList, h.showChars_hideChars_of_eq_none hnone,
      String.ofList_toList]
  · intro placeholder rest text
    rw [hide, hide, hideChars_cons, String.toList_empty, replace_empty, String.toList_ofList]

/-- The literals overlap, begin one another, are empty or hold a placeholder. -/
theorem reveal_hide_overlapping :
    let table : LiteralTable := [⟨"aa", "1"⟩, ⟨"aab", "2"⟩, ⟨"1b", "3"⟩, ⟨"", "4"⟩, ⟨"34", "5"⟩]
    table.Reversible ∧ table.firstPlaceholder? "aaaab" = none ∧
      table.hide "aaaab" = "4145" ∧ table.reveal (table.hide "aaaab") = "aaaab" := by
  intro table
  have htable : table.Reversible := by decide
  have hnone : table.firstPlaceholder? "aaaab" = none := by decide
  exact ⟨htable, hnone, by decide, (reveal_hide htable).1 "aaaab" hnone⟩

end TreeFigure.LiteralTable
