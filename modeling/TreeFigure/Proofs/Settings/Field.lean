import TreeFigure.Settings.File
import TreeFigure.Settings.Environment
import TreeFigure.Proofs.Text.Substitution

/-!
The settings one by one. Each has its place in a settings file and its names in the environment, and
an overlay gives it a value or says nothing about it, whatever it says about the others.
-/

namespace TreeFigure

namespace Settings

inductive Field where
  | output
  | font
  | levelHeight
  | tokenGap
  | indexGap
  | margin
  | indent
  deriving DecidableEq, Repr

namespace Field

def all : List Field :=
  [output, font, levelHeight, tokenGap, indexGap, margin, indent]

theorem mem_all (field : Field) : field ∈ all := by
  cases field <;> decide

instance {holds : Field → Prop} [DecidablePred holds] : Decidable (∀ field, holds field) :=
  decidable_of_iff (∀ field ∈ all, holds field)
    ⟨fun h field => h field (mem_all field), fun h field _ => h field⟩

/-- The type of what a field holds. -/
def Content : Field → Type
  | output | font => String
  | levelHeight | tokenGap | indexGap => Int
  | margin | indent => Nat

def of : (field : Field) → Settings → field.Content
  | output, settings => settings.output
  | font, settings => settings.font
  | levelHeight, settings => settings.layout.levelHeight
  | tokenGap, settings => settings.layout.tokenGap
  | indexGap, settings => settings.layout.indexGap
  | margin, settings => settings.layout.margin
  | indent, settings => settings.layout.indent

/-- What an overlay says about a field. -/
def given? : (field : Field) → Overlay → Option field.Content
  | output, overlay => overlay.output
  | font, overlay => overlay.font
  | levelHeight, overlay => overlay.layout.levelHeight
  | tokenGap, overlay => overlay.layout.tokenGap
  | indexGap, overlay => overlay.layout.indexGap
  | margin, overlay => overlay.layout.margin
  | indent, overlay => overlay.layout.indent

theorem of_overlaid (field : Field) (settings : Settings) (overlay : Overlay) :
    field.of (settings.overlaid overlay) = (field.given? overlay).getD (field.of settings) := by
  cases field <;> rfl

end Field

/-! The fields in a settings file. -/

namespace Field

/-- What a layout holds under a key, or at this place if it is an array. -/
def inLayout? (place : Nat) (key : String) : Toml.Value → Option Toml.Value
  | .table _ entries => entries.lookup key
  | .array items => items[place]?
  | _ => none

/-- The value that a table has for a field. -/
def entry? (field : Field) (table : Toml.Table) : Option Toml.Value :=
  match field with
  | output => table.lookup "output"
  | font => table.lookup "cjk_font"
  | levelHeight => (table.lookup "layout").bind (inLayout? 0 "level_height")
  | tokenGap => (table.lookup "layout").bind (inLayout? 1 "token_gap")
  | indexGap => (table.lookup "layout").bind (inLayout? 2 "index_gap")
  | margin => (table.lookup "layout").bind (inLayout? 3 "margin")
  | indent => (table.lookup "layout").bind (inLayout? 4 "indent")

/-- The content that a value has for a field, if its type is right. -/
def ofEntry? : (field : Field) → Toml.Value → Option field.Content
  | output | font => textOf?
  | levelHeight | tokenGap | indexGap => integerOf?
  | margin | indent => naturalOf?

end Field

/-- A value that may stand for the layout: a table, an array or a date. -/
inductive IsLayout : Toml.Value → Prop
  | table {origin : Toml.Origin} {entries : Toml.Table} : IsLayout (.table origin entries)
  | array {items : List Toml.Value} : IsLayout (.array items)
  | date : IsLayout .date

/-- The overlay says what a table says: every value in it has the type of its field, and there is
nothing about the fields that have no value. -/
structure Overlay.Reads (overlay : Overlay) (table : Toml.Table) : Prop where
  layout : ∀ value, table.lookup "layout" = some value → IsLayout value
  entry : ∀ (field : Field) value, field.entry? table = some value →
    ∃ content, field.ofEntry? value = some content ∧ field.given? overlay = some content
  missing : ∀ field : Field, field.entry? table = none → field.given? overlay = none

section Reads

variable {α : Type} {read? : Toml.Value → Option α} {value? : Option Toml.Value}
  {found : Option α} {table : Toml.Table} {value : Toml.Value}

theorem optionally_eq_some_iff :
    optionally read? value? = some found ↔
      (∀ value, value? = some value → ∃ content, read? value = some content ∧
        found = some content) ∧ (value? = none → found = none) := by
  cases value? with
  | none => simp [optionally, eq_comm]
  | some value => simp [optionally, eq_comm]

theorem layoutFrom?_eq_some_iff {levelHeight tokenGap indexGap margin indent : Option Toml.Value}
    {overlay : Layout.Overlay} :
    layoutFrom? levelHeight tokenGap indexGap margin indent = some overlay ↔
      optionally integerOf? levelHeight = some overlay.levelHeight ∧
      optionally integerOf? tokenGap = some overlay.tokenGap ∧
      optionally integerOf? indexGap = some overlay.indexGap ∧
      optionally naturalOf? margin = some overlay.margin ∧
      optionally naturalOf? indent = some overlay.indent := by
  obtain ⟨first, second, third, fourth, fifth⟩ := overlay
  simp only [layoutFrom?, Option.bind_eq_bind, Option.bind_eq_some_iff, Option.some.injEq,
    Layout.Overlay.mk.injEq]
  constructor
  · rintro ⟨_, ha, _, hb, _, hc, _, hd, _, he, rfl, rfl, rfl, rfl, rfl⟩
    exact ⟨ha, hb, hc, hd, he⟩
  · rintro ⟨ha, hb, hc, hd, he⟩
    exact ⟨_, ha, _, hb, _, hc, _, hd, _, he, rfl, rfl, rfl, rfl, rfl⟩

/-- Wherever a layout has its numbers, they are read in one way. -/
theorem layoutOf?_eq_some_iff {overlay : Layout.Overlay} :
    layoutOf? value = some overlay ↔ IsLayout value ∧
      layoutFrom? (Field.inLayout? 0 "level_height" value) (Field.inLayout? 1 "token_gap" value)
        (Field.inLayout? 2 "index_gap" value) (Field.inLayout? 3 "margin" value)
        (Field.inLayout? 4 "indent" value) = some overlay := by
  cases value with
  | table origin entries => exact (and_iff_right .table).symm
  | array items => exact (and_iff_right .array).symm
  | date => exact (and_iff_right .date).symm
  | text | integer | float | boolean | tables =>
    constructor
    · intro h
      cases h
    · rintro ⟨h, -⟩
      cases h

theorem ofTable?_eq_some_iff {overlay : Overlay} :
    Overlay.ofTable? table = some overlay ↔
      optionally textOf? (table.lookup "output") = some overlay.output ∧
      optionally textOf? (table.lookup "cjk_font") = some overlay.font ∧
      ∃ found, optionally layoutOf? (table.lookup "layout") = some found ∧
        found.getD {} = overlay.layout := by
  obtain ⟨output, font, layout⟩ := overlay
  simp only [Overlay.ofTable?, Option.bind_eq_bind, Option.bind_eq_some_iff, Option.some.injEq,
    Overlay.mk.injEq]
  constructor
  · rintro ⟨_, houtput, _, hfont, found, hlayout, rfl, rfl, rfl⟩
    exact ⟨houtput, hfont, found, hlayout, rfl⟩
  · rintro ⟨houtput, hfont, found, hlayout, rfl⟩
    exact ⟨_, houtput, _, hfont, found, hlayout, rfl, rfl, rfl⟩

/-- Every field is read on its own. -/
theorem Overlay.reads_iff {overlay : Overlay} :
    overlay.Reads table ↔ (∀ value, table.lookup "layout" = some value → IsLayout value) ∧
      ∀ field : Field,
        optionally field.ofEntry? (field.entry? table) = some (field.given? overlay) := by
  constructor
  · rintro ⟨hlayout, hentry, hmissing⟩
    exact ⟨hlayout, fun field => optionally_eq_some_iff.mpr ⟨hentry field, hmissing field⟩⟩
  · rintro ⟨hlayout, hfield⟩
    exact ⟨hlayout, fun field => (optionally_eq_some_iff.mp (hfield field)).1,
      fun field => (optionally_eq_some_iff.mp (hfield field)).2⟩

/-- The layout of a table that has none gives no number, and any other gives what is found in it. -/
theorem exists_layout_iff {layout? : Option Toml.Value} {overlay : Layout.Overlay} :
    (∃ found, optionally layoutOf? layout? = some found ∧ found.getD {} = overlay) ↔
      (∀ value, layout? = some value → IsLayout value) ∧
        layoutFrom? (layout?.bind (Field.inLayout? 0 "level_height"))
          (layout?.bind (Field.inLayout? 1 "token_gap"))
          (layout?.bind (Field.inLayout? 2 "index_gap")) (layout?.bind (Field.inLayout? 3 "margin"))
          (layout?.bind (Field.inLayout? 4 "indent")) = some overlay := by
  cases layout? with
  | none =>
    have hempty : layoutFrom? none none none none none = some {} := rfl
    simp [optionally, hempty]
  | some value =>
    simp only [Option.bind_some, Option.some.injEq, forall_eq', ← layoutOf?_eq_some_iff]
    constructor
    · rintro ⟨found, hfound, rfl⟩
      obtain ⟨layout, hlayout, rfl⟩ := Option.map_eq_some_iff.mp hfound
      exact hlayout
    · intro h
      exact ⟨some overlay, Option.map_eq_some_iff.mpr ⟨overlay, h, rfl⟩, rfl⟩

/-- What a table says is read field by field, and nothing else in it matters. -/
theorem Overlay.ofTable?_eq_some_iff_reads {overlay : Overlay} :
    Overlay.ofTable? table = some overlay ↔ overlay.Reads table := by
  rw [ofTable?_eq_some_iff, exists_layout_iff, layoutFrom?_eq_some_iff, reads_iff]
  constructor
  · rintro ⟨houtput, hfont, hlayout, hfirst, hsecond, hthird, hfourth, hfifth⟩
    refine ⟨hlayout, fun field => ?_⟩
    cases field with
    | output => exact houtput
    | font => exact hfont
    | levelHeight => exact hfirst
    | tokenGap => exact hsecond
    | indexGap => exact hthird
    | margin => exact hfourth
    | indent => exact hfifth
  · rintro ⟨hlayout, hfield⟩
    exact ⟨hfield .output, hfield .font, hlayout, hfield .levelHeight, hfield .tokenGap,
      hfield .indexGap, hfield .margin, hfield .indent⟩

end Reads

end Settings

end TreeFigure
