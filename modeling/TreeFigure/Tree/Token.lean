import TreeFigure.Tree.Sign

/-!
The tokens of bracketed notation. A word is a longest run of pieces. An opening bracket takes
the blanks after it and, if a word follows them, that word as its label. Blanks elsewhere
separate tokens and belong to none.
-/

namespace TreeFigure

inductive Token where
  | opening (gap label : List Char)
  | closing
  | word (text : List Char)
  deriving DecidableEq, Repr

namespace Token

/-- The characters that a token covers. -/
def text : Token → List Char
  | .opening gap label => '(' :: gap ++ label
  | .closing => [')']
  | .word text => text

/-- A token and the byte offset at which it starts. -/
structure Placed where
  offset : Nat
  token : Token
  deriving DecidableEq, Repr

private theorem length_dropWhile_le {α : Type} (p : α → Bool) (xs : List α) :
    (xs.dropWhile p).length ≤ xs.length :=
  (List.dropWhile_suffix p).length_le

/-- The tokens of a run of signs that starts at `offset`, in order. -/
def ofSigns (offset : Nat) : List Sign → List Placed
  | [] => []
  | .blank c :: rest => ofSigns (offset + Sign.size (.blank c)) rest
  | .closing :: rest => ⟨offset, .closing⟩ :: ofSigns (offset + 1) rest
  | .piece text :: rest =>
    let tail := rest.takeWhile Sign.isPiece
    let word := text ++ Sign.texts tail
    ⟨offset, .word word⟩ ::
      ofSigns (offset + Text.byteSize word) (rest.dropWhile Sign.isPiece)
  | .opening :: rest =>
    let gap := rest.takeWhile Sign.isBlank
    let inner := rest.dropWhile Sign.isBlank
    let label := inner.takeWhile Sign.isPiece
    ⟨offset, .opening (Sign.texts gap) (Sign.texts label)⟩ ::
      ofSigns (offset + 1 + Sign.sizes gap + Sign.sizes label) (inner.dropWhile Sign.isPiece)
termination_by signs => signs.length
decreasing_by
  · simp
  · simp
  · have := length_dropWhile_le Sign.isPiece rest
    simp only [List.length_cons]
    omega
  · have := length_dropWhile_le Sign.isPiece (rest.dropWhile Sign.isBlank)
    have := length_dropWhile_le Sign.isBlank rest
    simp only [List.length_cons]
    omega

/-- The tokens of a text in which no literal is protected. -/
def ofText (text : List Char) : List Placed :=
  ofSigns 0 (Sign.scan text)

end Token

end TreeFigure
