import TreeFigure.Decimal.Binary

/-!
The shortest decimal of a binary number. Among the decimals that are nearer to the number than to
any other it is one with the fewest places, and of those the nearest to the number; half-way
between two it is the greater one. It is written without an exponent.
-/

namespace TreeFigure

/-- The value `digits / 10 ^ places`. -/
structure Decimal where
  digits : Nat
  places : Nat
  deriving DecidableEq, Repr

/-- The decimal lies where numbers round to `b`. The ends belong to that stretch if the
significand of `b` is even; below a power of two the stretch is half as long. -/
def Binary.absorbs (b : Binary) (d : Decimal) : Bool :=
  let unit := Nat.pow 10 d.places
  let point := 4 * d.digits * Nat.pow 2 b.scale
  let lower := (4 * b.significand - (if b.significand = Nat.pow 2 52 then 1 else 2)) * unit
  let upper := (4 * b.significand + 2) * unit
  if b.significand % 2 = 0 then lower ≤ point ∧ point ≤ upper
  else lower < point ∧ point < upper

/-- The decimals of a number of places on both sides of `b`, the nearer one first. -/
def Binary.neighbours (b : Binary) (places : Nat) : List Decimal :=
  let unit := Nat.pow 2 b.scale
  let scaled := b.significand * Nat.pow 10 places
  let below := scaled / unit
  if 2 * (scaled % unit) < unit then [⟨below, places⟩, ⟨below + 1, places⟩]
  else [⟨below + 1, places⟩, ⟨below, places⟩]

/-- With as many places as its scale a binary number is a decimal, so the search ends there. -/
def Binary.shortest (b : Binary) : Decimal :=
  let exact : Decimal := ⟨b.significand * Nat.pow 5 b.scale, b.scale⟩
  ((List.range b.scale).findSome? fun places =>
    (b.neighbours places).find? b.absorbs).getD exact

/-- The digits with a point before the last `places` of them. -/
def Decimal.chars (d : Decimal) : List Char :=
  if d.places = 0 then Nat.toDigits 10 d.digits
  else
    let unit := Nat.pow 10 d.places
    let fraction := Nat.toDigits 10 (d.digits % unit)
    Nat.toDigits 10 (d.digits / unit) ++ '.' ::
      List.replicate (d.places - fraction.length) '0' ++ fraction

end TreeFigure
