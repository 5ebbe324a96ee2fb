/-!
Binary numbers of 53 digits below one. The number nearest to a proper fraction is found by exact
division; a quotient half-way between two numbers goes to the one with an even significand.
-/

namespace TreeFigure

/-- The value `significand / 2 ^ scale`. -/
structure Binary where
  significand : Nat
  scale : Nat
  deriving DecidableEq, Repr

/-- The quotient rounded to the nearest natural number, of two equally near ones the even one. -/
def Binary.roundDiv (num den : Nat) : Nat :=
  let quotient := num / den
  let rest := num % den
  if 2 * rest < den then quotient
  else if den < 2 * rest then quotient + 1
  else quotient + quotient % 2

/-- The scale that gives `num / den` a significand of 53 digits, where `0 < num < den`. -/
def Binary.scaleOf (num den : Nat) : Nat :=
  let scale := 53 + den.log2 - num.log2
  if den * Nat.pow 2 53 ≤ num * Nat.pow 2 scale then scale - 1 else scale

/-- The number nearest to `num / den`, where `0 < num < den`. -/
def Binary.ofQuotient (num den : Nat) : Binary :=
  let scale := scaleOf num den
  let significand := roundDiv (num * Nat.pow 2 scale) den
  if significand = Nat.pow 2 53 then ⟨Nat.pow 2 52, scale - 1⟩ else ⟨significand, scale⟩

end TreeFigure
