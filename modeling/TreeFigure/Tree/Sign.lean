import TreeFigure.Text.Blank
import TreeFigure.Text.Replace

/-!
The signs of bracketed notation. Each character of a text is a bracket, a blank, or a piece of a
word. A piece may also hold several characters, so that a text can be scanned with some bracket
literals taken as pieces of words.
-/

namespace TreeFigure

inductive Sign where
  | opening
  | closing
  | blank (c : Char)
  | piece (text : List Char)
  deriving DecidableEq, Repr

namespace Sign

def ofChar (c : Char) : Sign :=
  if c = '(' then .opening
  else if c = ')' then .closing
  else if Text.isBlank c then .blank c
  else .piece [c]

/-- The signs of a text without literals: one for each character. -/
def scan (text : List Char) : List Sign :=
  text.map ofChar

/-- The characters a sign stands for. -/
def text : Sign → List Char
  | .opening => ['(']
  | .closing => [')']
  | .blank c => [c]
  | .piece text => text

def isBlank : Sign → Bool
  | .blank _ => true
  | _ => false

def isPiece : Sign → Bool
  | .piece _ => true
  | _ => false

/-- Number of bytes of a sign in UTF-8. -/
def size (sign : Sign) : Nat :=
  Text.byteSize sign.text

/-- The characters of a run of signs. -/
def texts (signs : List Sign) : List Char :=
  signs.flatMap Sign.text

/-- Number of bytes of a run of signs. -/
def sizes : List Sign → Nat
  | [] => 0
  | sign :: rest => sign.size + sizes rest

@[simp]
theorem text_ofChar (c : Char) : (ofChar c).text = [c] := by
  unfold ofChar
  split
  case isTrue h => rw [h]; rfl
  case isFalse =>
    split
    case isTrue h => rw [h]; rfl
    case isFalse => split <;> rfl

@[simp]
theorem texts_cons (sign : Sign) (rest : List Sign) :
    texts (sign :: rest) = sign.text ++ texts rest := rfl

@[simp]
theorem texts_append (left right : List Sign) :
    texts (left ++ right) = texts left ++ texts right := by
  simp [texts]

theorem sizes_eq_byteSize (signs : List Sign) : sizes signs = Text.byteSize (texts signs) := by
  induction signs with
  | nil => rfl
  | cons sign rest ih => rw [sizes, ih, texts_cons, Text.byteSize_append, size]

@[simp]
theorem sizes_append (left right : List Sign) :
    sizes (left ++ right) = sizes left + sizes right := by
  simp [sizes_eq_byteSize]

/-- Scanning keeps every character. -/
theorem texts_scan (text : List Char) : texts (scan text) = text := by
  induction text with
  | nil => rfl
  | cons c rest ih => simpa [texts, scan] using ih

end Sign

end TreeFigure
