import TreeFigure.Proofs.Settings.Field

/-!
The settings in the environment. A variable names a field by a mark and the key of the field in
letters of any case, and in every other spelling it names none. If no two variables name one field,
the environment says about a field what its variable says.
-/

namespace TreeFigure

namespace Settings

namespace Field

def key : Field → String
  | output => "output"
  | font => "cjk_font"
  | levelHeight => "layout.level_height"
  | tokenGap => "layout.token_gap"
  | indexGap => "layout.index_gap"
  | margin => "layout.margin"
  | indent => "layout.indent"

/-- The names in small letters of the variables for a field. -/
def spellings : Field → List String
  | output => ["treedraw_output"]
  | font => ["treedraw_cjk_font"]
  | levelHeight => ["treedraw_layout.level_height", "treedraw_layout__level_height"]
  | tokenGap => ["treedraw_layout.token_gap", "treedraw_layout__token_gap"]
  | indexGap => ["treedraw_layout.index_gap", "treedraw_layout__index_gap"]
  | margin => ["treedraw_layout.margin", "treedraw_layout__margin"]
  | indent => ["treedraw_layout.indent", "treedraw_layout__indent"]

/-- A variable with this name gives a value to the field. -/
def NamedBy (field : Field) (name : String) : Prop :=
  ∃ spelling ∈ field.spellings, name.toList.map lower = spelling.toList

instance (field : Field) (name : String) : Decidable (field.NamedBy name) :=
  inferInstanceAs (Decidable (∃ spelling ∈ field.spellings, _))

/-- The content that the text of a variable has for a field, if it can be converted. -/
def ofVariable? : (field : Field) → String → Option field.Content
  | output | font => some
  | levelHeight | tokenGap | indexGap => integerVariable?
  | margin | indent => naturalVariable?

theorem map_origins_key (field : Field) :
    (Text.origins "__".toList '.' field.key.toList).map (variableMark ++ ·) =
      field.spellings.map String.toList := by
  cases field <;> decide +kernel

theorem replace_of_mem_origins_key (field : Field) :
    ∀ rest ∈ Text.origins "__".toList '.' field.key.toList,
      Text.replace "__".toList ".".toList rest = field.key.toList := by
  cases field <;> decide +kernel

end Field

theorem keyOf?_eq_some_iff {name : String} {key : List Char} :
    keyOf? name = some key ↔ ∃ rest, name.toList.map lower = variableMark ++ rest ∧
      Text.replace "__".toList ".".toList rest = key := by
  unfold keyOf?
  dsimp only
  constructor
  · intro h
    split at h
    case isTrue hmark =>
      obtain ⟨rest, hrest⟩ := List.isPrefixOf_iff_prefix.mp hmark
      rw [← hrest, List.drop_left] at h
      exact ⟨rest, hrest.symm, Option.some.inj h⟩
    case isFalse => cases h
  · rintro ⟨rest, hrest, rfl⟩
    have hmark : variableMark.isPrefixOf (variableMark ++ rest) = true :=
      List.isPrefixOf_iff_prefix.mpr (List.prefix_append variableMark rest)
    rw [hrest, if_pos hmark, List.drop_left]

/-- The variables for a field are those whose key is that of the field. -/
theorem keyOf?_eq_key_iff {name : String} {field : Field} :
    keyOf? name = some field.key.toList ↔ field.NamedBy name := by
  rw [keyOf?_eq_some_iff]
  constructor
  · rintro ⟨rest, hname, hrest⟩
    have horigin : rest ∈ Text.origins "__".toList '.' field.key.toList :=
      Text.mem_origins_of_replace (by decide) hrest
    have hspelling : variableMark ++ rest ∈
        (Text.origins "__".toList '.' field.key.toList).map (variableMark ++ ·) :=
      List.mem_map_of_mem horigin
    rw [field.map_origins_key] at hspelling
    obtain ⟨spelling, hmem, heq⟩ := List.mem_map.mp hspelling
    exact ⟨spelling, hmem, hname.trans heq.symm⟩
  · rintro ⟨spelling, hmem, hname⟩
    have hspelling : spelling.toList ∈ field.spellings.map String.toList :=
      List.mem_map_of_mem hmem
    rw [← field.map_origins_key] at hspelling
    obtain ⟨rest, horigin, heq⟩ := List.mem_map.mp hspelling
    exact ⟨rest, hname.trans heq.symm, field.replace_of_mem_origins_key rest horigin⟩

theorem Field.given?_ofEnvironment (field : Field) (environment : Environment) :
    field.given? (Overlay.ofEnvironment environment) =
      (setting? environment field.key).bind field.ofVariable? := by
  cases field with
  | output | font => exact (Option.bind_fun_some _).symm
  | levelHeight | tokenGap | indexGap | margin | indent => rfl

end Settings

/-- No two variables name one field. -/
def Environment.NamesOnce (environment : Environment) : Prop :=
  environment.bindings.Pairwise fun one other =>
    ∀ field : Settings.Field, field.NamedBy one.1 → ¬ field.NamedBy other.1

instance (environment : Environment) : Decidable environment.NamesOnce :=
  inferInstanceAs (Decidable (environment.bindings.Pairwise _))

/-- No variable has the mark of the settings, in letters of any case. -/
def Environment.Silent (environment : Environment) : Prop :=
  ∀ binding ∈ environment.bindings,
    ¬ Settings.variableMark <+: binding.1.toList.map Settings.lower

instance (environment : Environment) : Decidable environment.Silent :=
  inferInstanceAs (Decidable (∀ binding ∈ environment.bindings, _))

namespace Settings

section Once

variable {environment : Environment} {field : Field}

theorem exists_of_setting? {text : String} (h : setting? environment field.key = some text) :
    ∃ name, (name, text) ∈ environment.bindings ∧ field.NamedBy name := by
  obtain ⟨⟨name, found⟩, hmem, hfound⟩ := List.exists_of_findSome?_eq_some h
  dsimp only at hfound
  split at hfound
  case isTrue hkey =>
    obtain rfl := Option.some.inj hfound
    exact ⟨name, List.mem_reverse.mp hmem, keyOf?_eq_key_iff.mp hkey⟩
  case isFalse => cases hfound

/-- The only variable for a field gives its text. -/
theorem setting?_of_mem (h : environment.NamesOnce) {name text : String}
    (hmem : (name, text) ∈ environment.bindings) (hname : field.NamedBy name) :
    setting? environment field.key = some text := by
  obtain ⟨before, after, hsplit⟩ := List.append_of_mem hmem
  unfold Environment.NamesOnce at h
  rw [hsplit] at h
  obtain ⟨-, hafter, -⟩ := List.pairwise_append.mp h
  rw [setting?, List.findSome?_eq_some_iff]
  refine ⟨after.reverse, (name, text), before.reverse, ?_, ?_, ?_⟩
  · rw [hsplit, List.reverse_append, List.reverse_cons, List.append_assoc, List.singleton_append]
  · exact if_pos (keyOf?_eq_key_iff.mpr hname)
  · intro other hother
    have hunnamed := (List.pairwise_cons.mp hafter).1 other (List.mem_reverse.mp hother) field hname
    exact if_neg (mt keyOf?_eq_key_iff.mp hunnamed)

/-- The environment says about a field what the variable for it says, if that can be converted. -/
theorem Field.given?_ofEnvironment_eq_some_iff (h : environment.NamesOnce)
    {content : field.Content} :
    field.given? (Overlay.ofEnvironment environment) = some content ↔
      ∃ name text, (name, text) ∈ environment.bindings ∧ field.NamedBy name ∧
        field.ofVariable? text = some content := by
  rw [given?_ofEnvironment, Option.bind_eq_some_iff]
  constructor
  · rintro ⟨text, hset, hcontent⟩
    obtain ⟨name, hmem, hname⟩ := exists_of_setting? hset
    exact ⟨name, text, hmem, hname, hcontent⟩
  · rintro ⟨name, text, hmem, hname, hcontent⟩
    exact ⟨text, setting?_of_mem h hmem hname, hcontent⟩

/-- An environment without settings says nothing. -/
theorem Overlay.ofEnvironment_eq_empty (h : environment.Silent) :
    ofEnvironment environment = {} := by
  have hunset (key : String) : setting? environment key = none := by
    rw [setting?, List.findSome?_eq_none_iff]
    rintro ⟨name, text⟩ hmem
    apply if_neg
    intro hkey
    obtain ⟨rest, hname, -⟩ := keyOf?_eq_some_iff.mp hkey
    exact h (name, text) (List.mem_reverse.mp hmem) ⟨rest, hname.symm⟩
  simp only [ofEnvironment, hunset, Option.bind_none]

end Once

end Settings

end TreeFigure
