import TreeFigure.Settings.Expansion
import TreeFigure.Proofs.Text.Splitting

/-!
Expanding a path, by rule. `Expansion.Parted` says where the references of a path stand without
saying how they are found, and every path has parts by this rule, one way only. A path is expanded
as a whole or not at all: one reference that stands for nothing leaves every character as it is.
Otherwise what the references stand for is put in their places and not looked at again.
-/

namespace TreeFigure

namespace Expansion

open Text

/-- What stands in a pair of braces refers to a variable of this name with this default. The mark of
a default counts where it stands first, unless there is no name before it. -/
inductive Refers (inside : List Char) : List Char → Option (List Char) → Prop
  | plain (hmark : ¬ ":-".toList <:+: inside) : Refers inside inside none
  | fallback {name fallback : List Char} (hname : name ≠ [])
      (hfirst : StandsFirst ":-".toList inside name fallback) : Refers inside name (some fallback)
  | nameless (hfirst : ":-".toList <+: inside) : Refers inside inside none

/-- The text has these parts in order. -/
inductive Parted : List Char → List Part → Prop
  | done : Parted [] []
  | char {c : Char} {rest : List Char} {found : List Part} (hc : c ≠ '$')
      (tail : Parted rest found) : Parted (c :: rest) (.plain [c] :: found)
  | dollars {rest : List Char} {found : List Part} (tail : Parted rest found) :
      Parted ('$' :: '$' :: rest) (.plain ['$'] :: found)
  | braces {inside rest name : List Char} {fallback : Option (List Char)} {found : List Part}
      (hinside : '\x7d' ∉ inside) (hrefers : Refers inside name fallback)
      (tail : Parted rest found) :
      Parted ('$' :: '\x7b' :: (inside ++ '\x7d' :: rest)) (.reference name fallback :: found)
  | unclosed {rest : List Char} {found : List Part} (hrest : '\x7d' ∉ rest)
      (tail : Parted rest found) : Parted ('$' :: '\x7b' :: rest) (.plain ['$', '\x7b'] :: found)
  | name {name rest : List Char} {found : List Part} (hne : name ≠ [])
      (hname : ∀ c ∈ name, isNameChar c = true) (hend : ¬ Begins isNameChar rest)
      (tail : Parted rest found) : Parted ('$' :: (name ++ rest)) (.reference name none :: found)
  | lone {rest : List Char} {found : List Part} (hdollar : rest.head? ≠ some '$')
      (hbrace : rest.head? ≠ some '\x7b') (hname : ¬ Begins isNameChar rest)
      (tail : Parted rest found) : Parted ('$' :: rest) (.plain ['$'] :: found)

section Parts

variable {inside rest name text : List Char} {fallback : Option (List Char)} {found : List Part}

theorem braced_eq_iff : braced inside = .reference name fallback ↔ Refers inside name fallback := by
  have hmark : ":-".toList ≠ [] := by simp
  constructor
  · intro h
    unfold braced at h
    split at h
    case h_1 before after hcut =>
      have hfirst := (cut?_eq_some_iff hmark).mp hcut
      split at h
      case isTrue hname =>
        obtain rfl := List.isEmpty_iff.mp hname
        obtain ⟨rfl, rfl⟩ := Part.reference.inj h
        exact .nameless ⟨after, hfirst.eq_append.symm⟩
      case isFalse hname =>
        obtain ⟨rfl, rfl⟩ := Part.reference.inj h
        exact .fallback (by simpa using hname) hfirst
    case h_2 hcut =>
      obtain ⟨rfl, rfl⟩ := Part.reference.inj h
      exact .plain ((cut?_eq_none_iff hmark).mp hcut)
  · intro h
    cases h with
    | plain hnone => rw [braced, (cut?_eq_none_iff hmark).mpr hnone]
    | fallback hname hfirst =>
      rw [braced, (cut?_eq_some_iff hmark).mpr hfirst]
      exact if_neg (by simpa using hname)
    | nameless hstart =>
      obtain ⟨after, rfl⟩ := hstart
      have hfirst : StandsFirst ":-".toList (":-".toList ++ after) [] after :=
        ⟨rfl, fun _ _ _ => Nat.zero_le _⟩
      rw [braced, (cut?_eq_some_iff hmark).mpr hfirst]
      rfl

theorem parts_char {c : Char} (hc : c ≠ '$') (rest : List Char) :
    parts (c :: rest) = .plain [c] :: parts rest := by
  rw [parts, if_neg hc]
  · rintro tail rfl
    exact absurd rfl hc
  · rintro tail rfl
    exact absurd rfl hc

theorem parts_dollars (rest : List Char) :
    parts ('$' :: '$' :: rest) = .plain ['$'] :: parts rest := by
  rw [parts]

theorem parts_braces (hinside : '\x7d' ∉ inside) (rest : List Char) :
    parts ('$' :: '\x7b' :: (inside ++ '\x7d' :: rest)) = braced inside :: parts rest := by
  rw [parts, if_pos (by simp), takeWhile_run (run_of_notMem hinside) (not_begins_ne '\x7d' rest),
    dropWhile_run (run_of_notMem hinside) (not_begins_ne '\x7d' rest)]
  rfl

theorem parts_unclosed (hrest : '\x7d' ∉ rest) :
    parts ('$' :: '\x7b' :: rest) = .plain ['$', '\x7b'] :: parts rest := by
  rw [parts, if_neg (by simpa using hrest)]

theorem parts_name (hne : name ≠ []) (hname : ∀ c ∈ name, isNameChar c = true)
    (hend : ¬ Begins isNameChar rest) :
    parts ('$' :: (name ++ rest)) = .reference name none :: parts rest := by
  obtain ⟨c, tail, rfl⟩ := List.exists_cons_of_ne_nil hne
  have hc : isNameChar c = true := hname c (by simp)
  rw [parts, if_pos rfl, takeWhile_run hname hend, dropWhile_run hname hend]
  · rfl
  · rintro rest - heq
    obtain rfl : c = '$' := (List.cons_eq_cons.mp heq).1
    exact absurd hc (by decide)
  · rintro rest - heq
    obtain rfl : c = '\x7b' := (List.cons_eq_cons.mp heq).1
    exact absurd hc (by decide)

theorem parts_lone (hdollar : rest.head? ≠ some '$') (hbrace : rest.head? ≠ some '\x7b')
    (hname : ¬ Begins isNameChar rest) : parts ('$' :: rest) = .plain ['$'] :: parts rest := by
  rw [parts, if_pos rfl, takeWhile_of_not_begins hname]
  · rfl
  · rintro tail - rfl
    exact absurd rfl hdollar
  · rintro tail - rfl
    exact absurd rfl hbrace

theorem Parted.parts_eq (h : Parted text found) : parts text = found := by
  induction h with
  | done => rw [parts]
  | char hc _ ih => rw [parts_char hc, ih]
  | dollars _ ih => rw [parts_dollars, ih]
  | braces hinside hrefers _ ih => rw [parts_braces hinside, braced_eq_iff.mpr hrefers, ih]
  | unclosed hrest _ ih => rw [parts_unclosed hrest, ih]
  | name hne hname hend _ ih => rw [parts_name hne hname hend, ih]
  | lone hdollar hbrace hname _ ih => rw [parts_lone hdollar hbrace hname, ih]

theorem exists_braced_eq (inside : List Char) :
    ∃ name fallback, braced inside = .reference name fallback := by
  unfold braced
  split
  case h_1 name fallback _ =>
    split
    case isTrue => exact ⟨inside, none, rfl⟩
    case isFalse => exact ⟨name, some fallback, rfl⟩
  case h_2 => exact ⟨inside, none, rfl⟩

theorem parted_parts (text : List Char) : Parted text (parts text) := by
  fun_induction parts text with
  | case1 => exact .done
  | case2 rest ih => exact .dollars ih
  | case3 rest hclosed ih =>
    obtain ⟨inside, after, rfl, hinside⟩ :=
      List.eq_append_cons_of_mem (List.contains_iff_mem.mp hclosed)
    obtain ⟨name, fallback, hbraced⟩ := exists_braced_eq inside
    rw [dropWhile_run (run_of_notMem hinside) (not_begins_ne '\x7d' after)] at ih ⊢
    rw [takeWhile_run (run_of_notMem hinside) (not_begins_ne '\x7d' after), hbraced]
    exact .braces hinside (braced_eq_iff.mp hbraced) ih
  | case4 rest hopen ih => exact .unclosed (by simpa using hopen) ih
  | case5 rest hname hdollar hbrace ih =>
    refine .lone ?_ ?_ ?_ ih
    · intro hhead
      obtain ⟨tail, htail⟩ := List.head?_eq_some_iff.mp hhead
      exact hdollar tail rfl htail
    · intro hhead
      obtain ⟨tail, htail⟩ := List.head?_eq_some_iff.mp hhead
      exact hbrace tail rfl htail
    · intro hbegins
      obtain ⟨c, tail, rfl, hc⟩ := hbegins.exists_cons
      rw [List.takeWhile_cons_of_pos hc] at hname
      cases hname
  | case6 rest hname _ _ ih =>
    have hparted := Parted.name (by simpa using hname) (forall_mem_takeWhile rest)
      (not_begins_dropWhile rest) ih
    rwa [List.takeWhile_append_dropWhile] at hparted
  | case7 c rest _ _ hc ih => exact .char hc ih

/-- A text has the parts that are found and no others. -/
theorem parted_iff : Parted text found ↔ found = parts text := by
  constructor
  · exact fun h => h.parts_eq.symm
  · rintro rfl
    exact parted_parts text

end Parts

/-- The part refers to a variable that is not set, and gives no default. -/
def Part.Unresolved (environment : Environment) (part : Part) : Prop :=
  ∃ name, part = .reference name none ∧ environment.get? (String.ofList name) = none

/-- What stands in the place of a part: the value of the variable if it is set, and otherwise the
default. -/
def Part.replacement (environment : Environment) : Part → List Char
  | .plain text => text
  | .reference name fallback =>
    ((environment.get? (String.ofList name)).map String.toList).getD (fallback.getD [])

section Substitute

variable {environment : Environment} {part : Part} {text : List Char}

theorem Part.value?_eq_none_iff : part.value? environment = none ↔ part.Unresolved environment := by
  cases part with
  | plain text => simp [value?, Unresolved]
  | reference name fallback =>
    rw [value?]
    cases hvalue : environment.get? (String.ofList name) with
    | some value => simp [Unresolved, hvalue]
    | none => cases fallback <;> simp [Unresolved, hvalue]

instance (environment : Environment) (part : Part) : Decidable (part.Unresolved environment) :=
  decidable_of_iff _ Part.value?_eq_none_iff

theorem Part.value?_eq_some (h : ¬ part.Unresolved environment) :
    part.value? environment = some (part.replacement environment) := by
  cases part with
  | plain text => rfl
  | reference name fallback =>
    rw [value?, replacement]
    cases hvalue : environment.get? (String.ofList name) with
    | some value => rfl
    | none =>
      cases fallback with
      | some fallback => rfl
      | none => exact absurd ⟨name, rfl, hvalue⟩ h

theorem mapM_eq_none_iff {α β : Type} {f : α → Option β} {xs : List α} :
    xs.mapM f = none ↔ ∃ x ∈ xs, f x = none := by
  induction xs with
  | nil => simp
  | cons x xs ih =>
    rw [List.mapM_cons]
    cases hx : f x with
    | none => simp [hx]
    | some y =>
      cases hxs : xs.mapM f with
      | none =>
        obtain ⟨z, hmem, hz⟩ := ih.mp hxs
        simp only [Option.bind_eq_bind, Option.bind_some, Option.bind_none, true_iff]
        exact ⟨z, List.mem_cons_of_mem x hmem, hz⟩
      | some ys =>
        rw [hxs] at ih
        simpa [hx] using ih

theorem mapM_eq_some_map {α β : Type} {f : α → Option β} {g : α → β} {xs : List α}
    (h : ∀ x ∈ xs, f x = some (g x)) : xs.mapM f = some (xs.map g) := by
  induction xs with
  | nil => rfl
  | cons x xs ih =>
    rw [List.forall_mem_cons] at h
    rw [List.mapM_cons, h.1, ih h.2]
    rfl

theorem substitute?_eq_none (h : ∃ part ∈ parts text, part.Unresolved environment) :
    substitute? environment text = none := by
  obtain ⟨part, hmem, hpart⟩ := h
  rw [substitute?, Option.map_eq_none_iff, mapM_eq_none_iff]
  exact ⟨part, hmem, Part.value?_eq_none_iff.mpr hpart⟩

theorem substitute?_eq_some (h : ∀ part ∈ parts text, ¬ part.Unresolved environment) :
    substitute? environment text = some ((parts text).flatMap (Part.replacement environment)) := by
  rw [substitute?, mapM_eq_some_map fun part hmem => Part.value?_eq_some (h part hmem),
    Option.map_some, List.flatMap_def]

/-- The home directory takes the place of a tilde that stands alone or before a slash. -/
theorem expandHome_of_home {behind : List Char} {home : String}
    (hhome : environment.home? = some home) (hbehind : behind = [] ∨ behind.head? = some '/') :
    expandHome environment ('~' :: behind) = home.toList ++ behind := by
  rw [expandHome, if_pos (by simpa using hbehind), hhome]

theorem expandHome_of_kept {behind : List Char}
    (h : environment.home? = none ∨ behind ≠ [] ∧ behind.head? ≠ some '/') :
    expandHome environment ('~' :: behind) = '~' :: behind := by
  rw [expandHome]
  split
  case isTrue hbehind =>
    rcases h with hnone | ⟨hne, hslash⟩
    · rw [hnone]
    · rcases hbehind with hempty | hhead
      · exact absurd (List.isEmpty_iff.mp hempty) hne
      · exact absurd hhead hslash
  case isFalse => rfl

theorem parts_of_notMem (h : '$' ∉ text) : parts text = text.map fun c => .plain [c] := by
  induction text with
  | nil => rw [parts, List.map_nil]
  | cons c text ih =>
    rw [List.mem_cons, not_or] at h
    rw [parts_char (Ne.symm h.1), ih h.2, List.map_cons]

theorem substitute?_of_notMem (environment : Environment) (h : '$' ∉ text) :
    substitute? environment text = some text := by
  have hplain : ∀ part ∈ parts text, ¬ part.Unresolved environment := by
    rw [parts_of_notMem h]
    rintro part hmem ⟨name, rfl, -⟩
    obtain ⟨c, -, ⟨⟩⟩ := List.mem_map.mp hmem
  rw [substitute?_eq_some hplain, parts_of_notMem h, List.flatMap_map]
  exact congrArg some (List.flatMap_singleton' text)

end Substitute

end Expansion

namespace Environment

open Expansion

variable {environment : Environment} {path : String} {text : List Char}

theorem expand_of_substitute?_eq_none (h : substitute? environment path.toList = none) :
    environment.expand path = path := by
  rw [expand, h]

/-- Without a tilde in front a path becomes what its parts stand for. -/
theorem expand_of_head?_ne (h : substitute? environment path.toList = some text)
    (hhome : path.toList.head? ≠ some '~') : environment.expand path = String.ofList text := by
  rw [expand, h]
  exact if_neg hhome

theorem expand_of_head?_eq (h : substitute? environment path.toList = some text)
    (hhome : path.toList.head? = some '~') :
    environment.expand path = String.ofList (expandHome environment text) := by
  rw [expand, h]
  exact if_pos hhome

/-- A path that mentions no variable and no home directory stays as it is. -/
theorem expand_of_notMem (environment : Environment) {path : String} (h : '$' ∉ path.toList)
    (hhome : path.toList.head? ≠ some '~') : environment.expand path = path := by
  rw [expand_of_head?_ne (substitute?_of_notMem environment h) hhome, String.ofList_toList]

/-- A path is expanded as a whole or not at all. Its parts are determined by the rule alone. If one
of them refers to a variable that is not set and gives no default, the path stays as it is.
Otherwise every reference is replaced by the value of its variable or by its default, and nothing
in there is replaced again. A tilde is expanded only if the path itself begins with it, and if it
then stands alone or before a slash. -/
theorem expand_all_or_nothing (environment : Environment) (path : String) :
    ∃ found, (∀ other, Parted path.toList other ↔ other = found) ∧
      ((∃ part ∈ found, part.Unresolved environment) → environment.expand path = path) ∧
      ((∀ part ∈ found, ¬ part.Unresolved environment) →
        (path.toList.head? ≠ some '~' → environment.expand path =
          String.ofList (found.flatMap (Part.replacement environment))) ∧
        (path.toList.head? = some '~' → ∃ more, found = .plain ['~'] :: more ∧
          let behind := more.flatMap (Part.replacement environment)
          (∀ home, environment.home? = some home → (behind = [] ∨ behind.head? = some '/') →
            environment.expand path = home ++ String.ofList behind) ∧
          (environment.home? = none ∨ behind ≠ [] ∧ behind.head? ≠ some '/' →
            environment.expand path = "~" ++ String.ofList behind))) ∧
      ('$' ∉ path.toList → path.toList.head? ≠ some '~' → environment.expand path = path) := by
  refine ⟨parts path.toList, fun other => parted_iff, ?_, ?_, environment.expand_of_notMem⟩
  · intro hsome
    exact expand_of_substitute?_eq_none (substitute?_eq_none hsome)
  · intro hall
    have htext := substitute?_eq_some hall
    refine ⟨expand_of_head?_ne htext, ?_⟩
    intro hhome
    obtain ⟨rest, hrest⟩ := List.head?_eq_some_iff.mp hhome
    have hparts : parts path.toList = .plain ['~'] :: parts rest := by
      rw [hrest, parts_char (by decide)]
    let behind := (parts rest).flatMap (Part.replacement environment)
    have hvalue : (parts path.toList).flatMap (Part.replacement environment) = '~' :: behind := by
      rw [hparts]
      rfl
    rw [expand_of_head?_eq htext hhome, hvalue]
    refine ⟨parts rest, hparts, ?_, ?_⟩
    · intro home hset hbehind
      rw [expandHome_of_home hset hbehind, String.ofList_append, String.ofList_toList]
    · intro hkept
      rw [expandHome_of_kept hkept, String.ofList_cons]
      rfl

/-- A value that looks like a reference behind a tilde stays as it is, a default is used only for a
variable that is not set, and a missing variable at the end keeps the tilde in front. -/
theorem expand_all_or_nothing_half :
    let environment : Environment := { bindings := [("HOME", "/h"), ("A", "~$A"), ("C", "c")] }
    environment.expand "~/$A/$\x7bB:-b\x7d/$\x7bC:-x\x7d" = "/h/~$A/b/c" ∧
      environment.expand "$A/t" = "~$A/t" ∧
      environment.expand "~/$A/$\x7bB\x7d" = "~/$A/$\x7bB\x7d" ∧
      environment.expand "a~b" = "a~b" := by
  intro environment
  have hfound {path : String} {found : List Part}
      (h : ∀ other, Parted path.toList other ↔ other = found) : found = parts path.toList :=
    ((h _).mp (parted_parts _)).symm
  refine ⟨?_, ?_, ?_, ?_⟩
  · obtain ⟨found, hparts, -, hall, -⟩ :=
      expand_all_or_nothing environment "~/$A/$\x7bB:-b\x7d/$\x7bC:-x\x7d"
    rw [hfound hparts] at hall
    obtain ⟨more, hmore, hhome, -⟩ := (hall (by decide +kernel)).2 rfl
    have hrest : more = (parts "~/$A/$\x7bB:-b\x7d/$\x7bC:-x\x7d".toList).tail := by
      rw [hmore]
      rfl
    have hbehind : more.flatMap (Part.replacement environment) = "/~$A/b/c".toList := by
      rw [hrest]
      decide +kernel
    rw [hhome "/h" (by decide +kernel) (.inr (by rw [hbehind]; rfl)), hbehind]
    decide +kernel
  · obtain ⟨found, hparts, -, hall, -⟩ := expand_all_or_nothing environment "$A/t"
    rw [hfound hparts] at hall
    rw [(hall (by decide +kernel)).1 (by decide)]
    decide +kernel
  · obtain ⟨found, hparts, hnone, -, -⟩ := expand_all_or_nothing environment "~/$A/$\x7bB\x7d"
    rw [hfound hparts] at hnone
    exact hnone (by decide +kernel)
  · obtain ⟨-, -, -, -, hplain⟩ := expand_all_or_nothing environment "a~b"
    exact hplain (by decide) (by decide)

end Environment

end TreeFigure
