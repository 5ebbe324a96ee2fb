import TreeFigure.Directory
import TreeFigure.Proofs.Files.Lawful

/-!
Directories in memory are a lawful file system. Many paths denote one file: a file is what the
names from the root lead to, and a write changes nothing elsewhere in the tree.
-/

namespace TreeFigure.Directory

namespace Entry

theorem lookup_setChild (name : String) (child : Entry) (entries : List (String × Entry))
    (other : String) :
    (setChild name child entries).lookup other =
      if other = name then some child else entries.lookup other :=
  lookup_put (setChild name child) rfl (fun _ _ => rfl) entries other

/-- What a file holds. -/
def content? : Entry → Option (List UInt8)
  | .file content => some content
  | .directory _ => none

theorem at?_cons (entry : Entry) (name : String) (rest : List String) :
    entry.at? (name :: rest) = (entry.child? name).bind (·.at? rest) := by
  rw [at?]
  cases entry.child? name with
  | none => rfl
  | some inner => rfl

theorem child?_putAt (new : Entry) (name : String) (rest : List String) (entry : Entry)
    (other : String) :
    (putAt new (name :: rest) entry).child? other =
      if other = name then some (putAt new rest ((entry.child? name).getD (.directory [])))
      else entry.child? other := by
  cases entry with
  | file content => exact lookup_setChild name _ [] other
  | directory entries => exact lookup_setChild name _ entries other

theorem at?_putAt (new : Entry) (names : List String) (entry : Entry) :
    (putAt new names entry).at? names = some new := by
  induction names generalizing entry with
  | nil => rfl
  | cons name rest ih =>
    rw [at?_cons, child?_putAt, if_pos rfl]
    exact ih _

/-- A file that is put into a directory, where no directory is in its way, changes no other
file. -/
theorem content?_at?_putAt {place : List String} {name : String} {entry : Entry}
    {entries : List (String × Entry)} (hplace : entry.at? place = some (.directory entries))
    (hname : ∀ inner, entries.lookup name ≠ some (.directory inner)) (content : List UInt8)
    {other : List String} (hother : other ≠ place ++ [name]) :
    ((putAt (.file content) (place ++ [name]) entry).at? other).bind content? =
      (entry.at? other).bind content? := by
  induction place generalizing entry other with
  | nil =>
    obtain rfl := Option.some.inj hplace
    cases other with
    | nil => rfl
    | cons first rest =>
      rw [List.nil_append, at?_cons, at?_cons, child?_putAt]
      by_cases hfirst : first = name
      · subst hfirst
        have hrest : rest ≠ [] := by
          rintro rfl
          exact hother rfl
        obtain ⟨next, more, rfl⟩ := List.exists_cons_of_ne_nil hrest
        rw [if_pos rfl]
        -- Below a file there is nothing, neither the new one nor the one it replaces.
        cases hchild : (Entry.directory entries).child? first with
        | none => rfl
        | some inner =>
          cases inner with
          | file old => rfl
          | directory below => exact absurd hchild (hname below)
      · rw [if_neg hfirst]
  | cons step place ih =>
    rw [at?_cons] at hplace
    obtain ⟨inner, hchild, hinner⟩ := Option.bind_eq_some_iff.mp hplace
    cases other with
    | nil =>
      cases entry with
      | file old => cases hchild
      | directory held => rfl
    | cons first rest =>
      rw [List.cons_append, at?_cons, at?_cons, child?_putAt]
      by_cases hfirst : first = step
      · subst hfirst
        have hrest : rest ≠ place ++ [name] := by
          rintro rfl
          exact hother rfl
        rw [if_pos rfl, hchild]
        exact ih hinner hrest
      · rw [if_neg hfirst]

end Entry

/-- What the file holds that a list of names leads to. -/
def content? (directory : Directory) (names : List String) : Option (List UInt8) :=
  (directory.root.at? names).bind Entry.content?

/-- The names of the steps to the directory of a file, and the name in it. -/
def target (directory : Directory) (path : String) : List String :=
  let named := (steps path).reverse.dropWhile (· = "")
  ((directory.walk (directory.start path) (named.drop 1).reverse).toOption.getD []) ++
    [named.headD ""]

theorem write_eq_ok {directory next : Directory} {path content : String}
    (h : directory.write path content = .ok next) :
    ∃ place name entries, directory.target path = place ++ [name] ∧
      directory.root.at? place = some (.directory entries) ∧
      (∀ inner, entries.lookup name ≠ some (.directory inner)) ∧
      next = { directory with
        root := Entry.putAt (.file (Source.encode content)) (place ++ [name]) directory.root } := by
  unfold write at h
  dsimp only [bind, Except.bind] at h
  split at h
  case h_1 => cases h
  case h_2 =>
    split at h
    case h_1 => cases h
    case h_2 place hplace =>
      have htarget : directory.target path =
          place ++ [((steps path).reverse.dropWhile (· = "")).headD ""] := by
        unfold target
        dsimp only
        rw [hplace]
        rfl
      rw [htarget]
      generalize ((steps path).reverse.dropWhile (· = "")).headD "" = name at h ⊢
      split at h
      case h_2 => cases h
      case h_1 entries hentries =>
        split at h
        case isTrue => cases h
        case isFalse =>
          split at h
          case isTrue => cases h
          case isFalse =>
            split at h
            case h_1 => cases h
            case h_2 hname =>
              obtain rfl := Except.ok.inj h
              exact ⟨place, name, entries, rfl, hentries, hname, rfl⟩

/-- Directories in memory are lawful, although paths with other steps may denote one file. -/
theorem system_lawful : system.Lawful content? target where
  content_openFile _ _ := rfl
  place_openFile _ _ := rfl
  content_of_error := by
    intro path text directory reason after h
    unfold system at h
    dsimp only at h
    split at h
    case h_1 => exact congrArg content? (congrArg Prod.snd h).symm
    case h_2 => cases h
  content_of_ok := by
    intro path text directory after h
    unfold system at h
    dsimp only at h
    split at h
    case h_1 => cases h
    case h_2 next hwrite =>
      obtain rfl : next = after := congrArg Prod.snd h
      obtain ⟨place, name, entries, htarget, hplace, hname, rfl⟩ := write_eq_ok hwrite
      rw [htarget]
      unfold content?
      refine ⟨?_, ?_⟩
      · rw [Entry.at?_putAt]
        rfl
      · intro other hother
        exact Entry.content?_at?_putAt hplace hname (Source.encode text) hother

theorem system_searchable : system.Searchable content? target where
  toLawful := system_lawful
  content_isPresent _ _ := rfl
  place_isPresent _ _ := rfl

end TreeFigure.Directory
