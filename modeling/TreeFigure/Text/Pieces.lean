import TreeFigure.Text.Blank

/-!
Cutting a list at separators. The pieces of a list are what stands before, between and after its
separators, so there is always one more piece than there are separators and some pieces may be
empty. Words are the pieces between blank characters that are not empty.
-/

namespace TreeFigure.Text

/-- Puts one more item in front of the first piece. -/
def extendFirst {α : Type} (x : α) : List (List α) → List (List α)
  | [] => [[x]]
  | piece :: pieces => (x :: piece) :: pieces

def pieces {α : Type} (separates : α → Bool) (xs : List α) : List (List α) :=
  xs.foldr (fun x found => if separates x then [] :: found else extendFirst x found) [[]]

@[simp]
theorem pieces_nil {α : Type} (separates : α → Bool) : pieces separates [] = [[]] := rfl

theorem pieces_cons {α : Type} (separates : α → Bool) (x : α) (xs : List α) :
    pieces separates (x :: xs) =
      if separates x then [] :: pieces separates xs
      else extendFirst x (pieces separates xs) := rfl

theorem extendFirst_ne_nil {α : Type} (x : α) (found : List (List α)) :
    extendFirst x found ≠ [] := by
  cases found <;> simp [extendFirst]

theorem pieces_ne_nil {α : Type} (separates : α → Bool) (xs : List α) :
    pieces separates xs ≠ [] := by
  cases xs with
  | nil => simp
  | cons x xs =>
    rw [pieces_cons]
    split
    · simp
    · exact extendFirst_ne_nil x _

/-- The words of a text in order: its longest stretches without a blank character. -/
def words (text : List Char) : List (List Char) :=
  (pieces isBlank text).filter (fun piece => !piece.isEmpty)

end TreeFigure.Text
