import TreeFigure.Source

/-!
What a run needs of a file system. Names are paths as the user wrote them; reasons are the texts
that a failure reports.
-/

namespace TreeFigure

/-- Operations on files with effects in `m`. -/
structure Files (m : Type → Type) where
  /-- Opens a file for reading. -/
  openFile : (path : String) → m (Except String Source)
  /-- Whether there is anything at a path. -/
  isPresent : (path : String) → m Bool
  /-- Replaces the content of a file, or makes it. -/
  write : (path content : String) → m (Except String Unit)

end TreeFigure
