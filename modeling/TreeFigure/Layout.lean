import TreeFigure.Text.Numeral

/-!
The geometry of a figure. Vertical distances are points and may be negative; widths are counted in
characters. The numbers of a layout have 64 bits, distances with a sign and widths without one. So
has every number that is computed from them: what does not fit into a word of 64 bits wraps around.
-/

namespace TreeFigure

structure Layout where
  /-- Vertical distance of two levels of the tree. -/
  levelHeight : Int := 28
  /-- Distance of the token row from the lowest level. -/
  tokenGap : Int := 10
  /-- Distance of the index row from the lowest level. -/
  indexGap : Int := 30
  /-- A subtree stays on one line while the line is shorter than this. -/
  margin : Nat := 70
  /-- Column at which the tree starts. -/
  indent : Nat := 6
  deriving DecidableEq, Repr

/-- The sum of two widths. -/
def Width.add (a b : Nat) : Nat :=
  (UInt64.ofNat a + UInt64.ofNat b).toNat

theorem Width.add_eq_mod (a b : Nat) : add a b = (a + b) % Text.wordBound := by
  rw [add, ← UInt64.ofNat_add, UInt64.toNat_ofNat']
  rfl

theorem Width.add_eq {a b : Nat} (h : a + b < Text.wordBound) : add a b = a + b := by
  rw [add_eq_mod, Nat.mod_eq_of_lt h]

example : Width.add 66 18446744073709551615 = 65 := by decide

namespace Layout

/-- Vertical place of a row at a distance from the lowest level of a tree of the given height. -/
def rowAt (layout : Layout) (height gap : Int) : Int :=
  (-Int64.ofInt height * Int64.ofInt layout.levelHeight - Int64.ofInt gap).toInt

/-- Vertical place of the tokens below a tree of the given height. -/
def tokenRow (layout : Layout) (height : Int) : Int :=
  layout.rowAt height layout.tokenGap

/-- Vertical place of the token indices below a tree of the given height. -/
def indexRow (layout : Layout) (height : Int) : Int :=
  layout.rowAt height layout.indexGap

/-- Only the place itself wraps around, whether or not the steps on the way to it fit. -/
theorem rowAt_eq_toInt (layout : Layout) (height gap : Int) :
    layout.rowAt height gap = (Int64.ofInt (-(height * layout.levelHeight) - gap)).toInt := by
  rw [rowAt, Int64.ofInt_sub, Int64.ofInt_neg, Int64.ofInt_mul, Int64.neg_mul]

theorem rowAt_eq_bmod (layout : Layout) (height gap : Int) :
    layout.rowAt height gap = (-(height * layout.levelHeight) - gap).bmod Text.wordBound := by
  rw [rowAt_eq_toInt, Int64.toInt_ofInt]
  rfl

example : tokenRow { levelHeight := 9223372036854775807 } 2 = -8 := by decide

theorem rowAt_eq (layout : Layout) (height gap : Int)
    (hlow : -(Text.signedBound : Int) ≤ -(height * layout.levelHeight) - gap)
    (hhigh : -(height * layout.levelHeight) - gap < Text.signedBound) :
    layout.rowAt height gap = -(height * layout.levelHeight) - gap := by
  rw [rowAt_eq_toInt, Int64.toInt_ofInt_of_le hlow hhigh]

end Layout

end TreeFigure
