/-!
Decimal numerals as a person types them: digits with an optional sign in front. Leading zeros
are allowed, blanks and digit separators are not, and a number outside the wanted range is refused.
-/

namespace TreeFigure.Text

/-- The first number that does not fit into 64 bits. -/
def wordBound : Nat := Nat.pow 2 64

/-- The first positive number that does not fit into 64 bits with a sign. -/
def signedBound : Nat := Nat.pow 2 63

/-- Value of an ASCII digit. -/
def digit? (c : Char) : Option Nat :=
  if c.isDigit then some (c.toNat - 48) else none

def digitsFrom (value : Nat) : List Char → Option Nat
  | [] => some value
  | c :: rest => do
    let d ← digit? c
    digitsFrom (value * 10 + d) rest

/-- One or more ASCII digits. -/
def digits? (text : List Char) : Option Nat :=
  if text.isEmpty then none else digitsFrom 0 text

/-- A natural number of 64 bits; a plus sign may stand in front. -/
def natural? (text : List Char) : Option Nat := do
  let value ← match text with
    | '+' :: rest => digits? rest
    | _ => digits? text
  if value < wordBound then some value else none

/-- An integer of 64 bits with a sign. -/
def integer? (text : List Char) : Option Int :=
  match text with
  | '-' :: rest => do
    let value ← digits? rest
    if value ≤ signedBound then some (-(value : Int)) else none
  | _ => do
    let value ← natural? text
    if value < signedBound then some (value : Int) else none

end TreeFigure.Text
