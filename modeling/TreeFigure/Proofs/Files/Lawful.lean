import TreeFigure.Store

/-!
Laws of a file system. Opening a file changes no file, a write that fails changes none either, and
a write that succeeds changes one. Files in memory obey them.
-/

namespace TreeFigure

variable {σ φ : Type}

/-- What a run relies on. A state holds a content for each file, and a path denotes a file. -/
structure Files.Lawful (files : Files (StateM σ)) (content : σ → φ → Option (List UInt8))
    (place : σ → String → φ) : Prop where
  content_openFile : ∀ path state, content (files.openFile path state).2 = content state
  place_openFile : ∀ path state, place (files.openFile path state).2 = place state
  content_of_error : ∀ {path text state reason after},
    files.write path text state = (.error reason, after) → content after = content state
  content_of_ok : ∀ {path text state after}, files.write path text state = (.ok (), after) →
    content after (place state path) = some (Source.encode text) ∧
      ∀ other, other ≠ place state path → content after other = content state other

/-- Looking for a file changes no file either. -/
structure Files.Searchable (files : Files (StateM σ)) (content : σ → φ → Option (List UInt8))
    (place : σ → String → φ) : Prop extends files.Lawful content place where
  content_isPresent : ∀ path state, content (files.isPresent path state).2 = content state
  place_isPresent : ∀ path state, place (files.isPresent path state).2 = place state

/-- Looking for a file and opening one leave the state as it is. -/
structure Files.Steady (files : Files (StateM σ)) : Prop where
  openFile : ∀ path state, (files.openFile path state).2 = state
  isPresent : ∀ path state, (files.isPresent path state).2 = state

section Lookup

variable {α : Type} {name : String} {value : α}

theorem lookup_cons_eq_ite (entries : List (String × α)) (other : String) :
    ((name, value) :: entries).lookup other =
      if other = name then some value else entries.lookup other := by
  rw [List.lookup_cons]
  split
  case h_1 heq => rw [if_pos (eq_of_beq heq)]
  case h_2 heq => rw [if_neg (ne_of_beq_false heq)]

/-- Putting a value in the place of the first entry with its name, or at the end, changes the
value of that name only. -/
theorem lookup_put (put : List (String × α) → List (String × α)) (hnil : put [] = [(name, value)])
    (hcons : ∀ entry rest, put (entry :: rest) =
      if entry.1 = name then (name, value) :: rest else entry :: put rest)
    (entries : List (String × α)) (other : String) :
    (put entries).lookup other = if other = name then some value else entries.lookup other := by
  induction entries with
  | nil =>
    rw [hnil]
    exact lookup_cons_eq_ite [] other
  | cons entry rest ih =>
    obtain ⟨held, old⟩ := entry
    rw [hcons]
    split
    case isTrue hheld =>
      obtain rfl : held = name := hheld
      rw [lookup_cons_eq_ite, lookup_cons_eq_ite]
      split
      case isTrue => rfl
      case isFalse => rfl
    case isFalse hheld =>
      have hne : held ≠ name := hheld
      rw [lookup_cons_eq_ite, lookup_cons_eq_ite, ih]
      by_cases h : other = held
      · rw [if_pos h, if_pos h, if_neg (h ▸ hne)]
      · rw [if_neg h, if_neg h]

end Lookup

namespace Store

theorem get?_put (store : Store) (name : String) (content : List UInt8) (other : String) :
    (store.put name content).get? other =
      if other = name then some content else store.get? other :=
  lookup_put (putIn name content) rfl (fun _ _ => rfl) store.files other

/-- Files in memory are lawful: every name denotes a file of its own. -/
theorem system_lawful : system.Lawful get? fun _ name => name where
  content_openFile _ _ := rfl
  place_openFile _ _ := rfl
  content_of_error := by
    intro path text store reason after h
    unfold system at h
    dsimp only at h
    split at h
    case h_1 => exact congrArg get? (congrArg Prod.snd h).symm
    case h_2 => cases h
  content_of_ok := by
    intro path text store after h
    unfold system write at h
    dsimp only at h
    split at h
    case h_1 => cases h
    case h_2 next hwrite =>
      split at hwrite
      case isTrue => cases hwrite
      case isFalse =>
        obtain rfl := Except.ok.inj hwrite
        obtain rfl : store.put path (Source.encode text) = after := congrArg Prod.snd h
        refine ⟨?_, ?_⟩
        · rw [get?_put, if_pos rfl]
        · intro other hother
          rw [get?_put, if_neg hother]

theorem system_steady : system.Steady where
  openFile _ _ := rfl
  isPresent _ _ := rfl

end Store

end TreeFigure
