import Mathlib.Tactic.Linarith
import Mathlib.Tactic.Ring
import TreeFigure.Decimal.Shortest
import TreeFigure.Proofs.Tex.Glyphs

/-!
Which decimal is written for a proper fraction. The binary number of a fraction has 53 digits and
differs from it by at most half a unit of the last one, and the decimal of a binary number lies
where numbers round to it. The text of a decimal is its digits, with a point before its places.
-/

namespace TreeFigure

namespace Binary

variable {num den : Nat}

/-- The number has 53 digits, and the fraction is at most half a unit of the last one away. -/
structure Nearest (num den : Nat) (b : Binary) : Prop where
  le_significand : Nat.pow 2 52 ≤ b.significand
  significand_lt : b.significand < Nat.pow 2 53
  le_above : 2 * (num * Nat.pow 2 b.scale) ≤ (2 * b.significand + 1) * den
  below_le : 2 * b.significand * den ≤ 2 * (num * Nat.pow 2 b.scale) + den

/-- A quotient is rounded down only in the lower half, and up only in the upper one. -/
theorem roundDiv_cases (num den : Nat) :
    (roundDiv num den = num / den ∧ 2 * (num % den) ≤ den) ∨
      (roundDiv num den = num / den + 1 ∧ den ≤ 2 * (num % den)) := by
  unfold roundDiv
  dsimp only
  split
  case isTrue hless => exact .inl ⟨rfl, Nat.le_of_lt hless⟩
  case isFalse hless =>
    split
    case isTrue hmore => exact .inr ⟨rfl, Nat.le_of_lt hmore⟩
    case isFalse hmore =>
      rcases Nat.mod_two_eq_zero_or_one (num / den) with heven | hodd
      · exact .inl ⟨by rw [heven, Nat.add_zero], by omega⟩
      · exact .inr ⟨by rw [hodd], by omega⟩

theorem roundDiv_near (num : Nat) (hden : 0 < den) :
    2 * num ≤ (2 * roundDiv num den + 1) * den ∧ 2 * roundDiv num den * den ≤ 2 * num + den := by
  have hrest := Nat.mod_lt num hden
  have hnum := Nat.div_add_mod' num den
  rcases roundDiv_cases num den with ⟨hround, hhalf⟩ | ⟨hround, hhalf⟩
  · have habove : (2 * (num / den) + 1) * den = 2 * (num / den * den) + den := by ring
    have hbelow : 2 * (num / den) * den = 2 * (num / den * den) := by ring
    rw [hround, habove, hbelow]
    omega
  · have habove : (2 * (num / den + 1) + 1) * den = 2 * (num / den * den) + 3 * den := by ring
    have hbelow : 2 * (num / den + 1) * den = 2 * (num / den * den) + 2 * den := by ring
    rw [hround, habove, hbelow]
    omega

theorem pow_succ_log2 {n : Nat} (h : 0 < n) :
    Nat.pow 2 n.log2 ≤ n ∧ n < Nat.pow 2 (n.log2 + 1) :=
  ⟨Nat.log2_self_le (Nat.pos_iff_ne_zero.mp h), Nat.lt_log2_self⟩

theorem pow_add (m n : Nat) : Nat.pow 2 (m + n) = Nat.pow 2 m * Nat.pow 2 n :=
  Nat.pow_add 2 m n

theorem pow_succ_eq (n : Nat) : Nat.pow 2 (n + 1) = 2 * Nat.pow 2 n := by
  rw [Nat.add_comm, pow_add]

/-- At its scale a proper fraction has 53 digits before the point. -/
theorem scaleOf_bounds (hnum : 0 < num) (hlt : num < den) :
    den * Nat.pow 2 52 ≤ num * Nat.pow 2 (scaleOf num den) ∧
      num * Nat.pow 2 (scaleOf num den) < den * Nat.pow 2 53 := by
  have hden : 0 < den := Nat.lt_trans hnum hlt
  obtain ⟨hnumLow, hnumHigh⟩ := pow_succ_log2 hnum
  obtain ⟨hdenLow, hdenHigh⟩ := pow_succ_log2 hden
  have hlog : num.log2 ≤ den.log2 := by
    by_contra hmore
    have hpow : Nat.pow 2 (den.log2 + 1) ≤ Nat.pow 2 num.log2 :=
      Nat.pow_le_pow_right Nat.two_pos (Nat.not_le.mp hmore)
    omega
  -- Before it is adjusted the scale gives 53 or 54 digits.
  obtain ⟨scale, hscale⟩ : ∃ scale, 53 + den.log2 - num.log2 = scale + 1 :=
    ⟨52 + den.log2 - num.log2, by omega⟩
  have hlow : den * Nat.pow 2 52 < num * Nat.pow 2 (scale + 1) := by
    calc den * Nat.pow 2 52 < Nat.pow 2 (den.log2 + 1) * Nat.pow 2 52 :=
        Nat.mul_lt_mul_of_pos_right hdenHigh (Nat.pow_pos Nat.two_pos)
      _ = Nat.pow 2 num.log2 * Nat.pow 2 (scale + 1) := by
        rw [← pow_add, ← pow_add]
        congr 1
        omega
      _ ≤ num * Nat.pow 2 (scale + 1) := Nat.mul_le_mul_right _ hnumLow
  have hhigh : num * Nat.pow 2 (scale + 1) < den * Nat.pow 2 54 := by
    calc num * Nat.pow 2 (scale + 1) < Nat.pow 2 (num.log2 + 1) * Nat.pow 2 (scale + 1) :=
        Nat.mul_lt_mul_of_pos_right hnumHigh (Nat.pow_pos Nat.two_pos)
      _ = Nat.pow 2 den.log2 * Nat.pow 2 54 := by
        rw [← pow_add, ← pow_add]
        congr 1
        omega
      _ ≤ den * Nat.pow 2 54 := Nat.mul_le_mul_right _ hdenLow
  unfold scaleOf
  dsimp only
  rw [hscale, Nat.add_sub_cancel]
  split
  case isTrue hlong =>
    have hfirst : den * Nat.pow 2 53 = 2 * (den * Nat.pow 2 52) := by
      rw [pow_succ_eq, Nat.mul_left_comm]
    have hsecond : den * Nat.pow 2 54 = 2 * (den * Nat.pow 2 53) := by
      rw [pow_succ_eq, Nat.mul_left_comm]
    have hdouble : num * Nat.pow 2 (scale + 1) = 2 * (num * Nat.pow 2 scale) := by
      rw [pow_succ_eq, Nat.mul_left_comm]
    omega
  case isFalse hlong => exact ⟨Nat.le_of_lt hlow, Nat.not_le.mp hlong⟩

/-- The binary number of a proper fraction is the nearest one. -/
theorem nearest_ofQuotient (hnum : 0 < num) (hlt : num < den) :
    (ofQuotient num den).Nearest num den := by
  have hden : 0 < den := Nat.lt_trans hnum hlt
  obtain ⟨hlow, hhigh⟩ := scaleOf_bounds hnum hlt
  obtain ⟨habove, hbelow⟩ := roundDiv_near (num * Nat.pow 2 (scaleOf num den)) hden
  unfold ofQuotient
  dsimp only
  generalize roundDiv (num * Nat.pow 2 (scaleOf num den)) den = significand at habove hbelow
  generalize hscale : scaleOf num den = scale at hlow hhigh habove hbelow
  have hdigit : Nat.pow 2 53 = 2 * Nat.pow 2 52 := pow_succ_eq 52
  have hle : significand ≤ Nat.pow 2 53 := by
    by_contra hmore
    have hmul : (Nat.pow 2 53 + 1) * den ≤ significand * den :=
      Nat.mul_le_mul_right den (Nat.not_le.mp hmore)
    nlinarith
  have hge : Nat.pow 2 52 ≤ significand := by
    by_contra hless
    have hmul : (significand + 1) * den ≤ Nat.pow 2 52 * den :=
      Nat.mul_le_mul_right den (Nat.not_le.mp hless)
    nlinarith
  split
  case isTrue hcarry =>
    -- Rounding up gave a digit more, which the next smaller scale takes away.
    obtain ⟨before, rfl⟩ : ∃ before, scale = before + 1 := by
      apply Nat.exists_eq_succ_of_ne_zero
      rintro rfl
      have hwhole : den * 1 ≤ den * Nat.pow 2 52 :=
        Nat.mul_le_mul_left den (Nat.pow_pos Nat.two_pos)
      have hone : num * Nat.pow 2 0 = num := Nat.mul_one num
      omega
    rw [pow_succ_eq] at habove hbelow
    subst hcarry
    refine ⟨Nat.le_refl _, ?_, ?_, ?_⟩
    · exact Nat.pow_lt_pow_right Nat.one_lt_two (Nat.lt_succ_self 52)
    · dsimp only
      rw [Nat.add_sub_cancel]
      nlinarith
    · dsimp only
      rw [Nat.add_sub_cancel]
      nlinarith
  case isFalse hcarry => exact ⟨hge, Nat.lt_of_le_of_ne hle hcarry, habove, hbelow⟩

/-- With as many places as its scale a binary number is a decimal, which lies where numbers round
to it. -/
theorem absorbs_exact {b : Binary} (h : 0 < b.significand) :
    b.absorbs ⟨b.significand * Nat.pow 5 b.scale, b.scale⟩ = true := by
  have hpoint : 4 * (b.significand * Nat.pow 5 b.scale) * Nat.pow 2 b.scale =
      4 * b.significand * Nat.pow 10 b.scale := by
    have hten : Nat.pow 10 b.scale = Nat.pow 5 b.scale * Nat.pow 2 b.scale :=
      Nat.mul_pow 5 2 b.scale
    rw [hten]
    ring
  have hunit : 0 < Nat.pow 10 b.scale := Nat.pow_pos (Nat.succ_pos 9)
  have hlower : (4 * b.significand - (if b.significand = Nat.pow 2 52 then 1 else 2)) *
      Nat.pow 10 b.scale < 4 * b.significand * Nat.pow 10 b.scale := by
    apply Nat.mul_lt_mul_of_pos_right _ hunit
    split <;> omega
  have hupper : 4 * b.significand * Nat.pow 10 b.scale <
      (4 * b.significand + 2) * Nat.pow 10 b.scale :=
    Nat.mul_lt_mul_of_pos_right (by omega) hunit
  unfold absorbs
  dsimp only
  rw [hpoint]
  split
  case isTrue => exact decide_eq_true ⟨Nat.le_of_lt hlower, Nat.le_of_lt hupper⟩
  case isFalse => exact decide_eq_true ⟨hlower, hupper⟩

/-- The decimal of a binary number lies where numbers round to it. -/
theorem absorbs_shortest {b : Binary} (h : 0 < b.significand) : b.absorbs b.shortest = true := by
  unfold shortest
  dsimp only
  cases hfound : (List.range b.scale).findSome? fun places =>
    (b.neighbours places).find? b.absorbs with
  | none => exact absorbs_exact h
  | some d =>
    obtain ⟨places, -, hplaces⟩ := List.exists_of_findSome?_eq_some hfound
    exact List.find?_some hplaces

/-- Where numbers round to a binary number lies within half a unit of its last digit. -/
theorem bounds_of_absorbs {b : Binary} {d : Decimal} (h : b.absorbs d = true) :
    (4 * b.significand - 2) * Nat.pow 10 d.places ≤ 4 * d.digits * Nat.pow 2 b.scale ∧
      4 * d.digits * Nat.pow 2 b.scale ≤ (4 * b.significand + 2) * Nat.pow 10 d.places := by
  have hlower : (4 * b.significand - 2) * Nat.pow 10 d.places ≤
      (4 * b.significand - (if b.significand = Nat.pow 2 52 then 1 else 2)) *
        Nat.pow 10 d.places := by
    apply Nat.mul_le_mul_right
    split <;> omega
  unfold absorbs at h
  dsimp only at h
  split at h
  case isTrue =>
    obtain ⟨hlow, hhigh⟩ := of_decide_eq_true h
    exact ⟨Nat.le_trans hlower hlow, hhigh⟩
  case isFalse =>
    obtain ⟨hlow, hhigh⟩ := of_decide_eq_true h
    exact ⟨Nat.le_trans hlower (Nat.le_of_lt hlow), Nat.le_of_lt hhigh⟩

/-- A decimal that rounds to the binary number of a fraction is a fraction that it is nearest to. -/
theorem nearest_of_absorbs {b : Binary} {d : Decimal} (hnearest : b.Nearest num den)
    (h : b.absorbs d = true) : b.Nearest d.digits (Nat.pow 10 d.places) := by
  obtain ⟨hlow, hhigh⟩ := bounds_of_absorbs h
  rw [Nat.sub_mul] at hlow
  have hbelow : 4 * b.significand * Nat.pow 10 d.places ≤
      4 * d.digits * Nat.pow 2 b.scale + 2 * Nat.pow 10 d.places := by
    omega
  refine ⟨hnearest.le_significand, hnearest.significand_lt, ?_, ?_⟩
  · linarith
  · linarith

end Binary

namespace Decimal

open Tex

/-- The digits of a decimal before its point and behind it. -/
structure Digits (d : Decimal) (whole places : List Char) : Prop where
  whole_ne_nil : whole ≠ []
  isDigit : ∀ c ∈ whole ++ places, c.isDigit = true
  length_places : places.length = d.places
  value : Nat.ofDigitChars 10 (whole ++ places) 0 = d.digits

/-- Zeros in front fill a number up to as many digits as it has room for. -/
theorem length_padded {n count : Nat} (hcount : count ≠ 0) (h : n < 10 ^ count) :
    (List.replicate (count - (Nat.toDigits 10 n).length) '0' ++ Nat.toDigits 10 n).length =
      count := by
  have hlength : (Nat.toDigits 10 n).length ≤ count :=
    (Nat.length_toDigits_le_iff (by decide) (Nat.pos_of_ne_zero hcount)).mpr h
  rw [List.length_append, List.length_replicate, Nat.sub_add_cancel hlength]

theorem value_padded (n count : Nat) :
    Nat.ofDigitChars 10 (List.replicate count '0' ++ Nat.toDigits 10 n) 0 = n := by
  rw [Nat.ofDigitChars_append, Nat.ofDigitChars_replicate_zero, Nat.mul_zero,
    Nat.ofDigitChars_ten_toDigits]

theorem exists_digits (d : Decimal) :
    ∃ whole places, d.Digits whole places ∧
      d.chars = whole ++ if places = [] then [] else '.' :: places := by
  unfold chars
  dsimp only
  split
  case isTrue hplaces =>
    obtain ⟨hne, hdigits⟩ := isDigits_toDigits d.digits
    refine ⟨Nat.toDigits 10 d.digits, [], ⟨hne, ?_, hplaces.symm, ?_⟩, ?_⟩
    · rwa [List.append_nil]
    · rw [List.append_nil, Nat.ofDigitChars_ten_toDigits]
    · exact (List.append_nil _).symm
  case isFalse hplaces =>
    obtain ⟨hne, hdigits⟩ := isDigits_toDigits (d.digits / Nat.pow 10 d.places)
    have hrest := isDigits_toDigits (d.digits % Nat.pow 10 d.places)
    obtain ⟨hpadded, hmore⟩ := hrest.replicate_append
      (d.places - (Nat.toDigits 10 (d.digits % Nat.pow 10 d.places)).length)
    have hlt : d.digits % Nat.pow 10 d.places < 10 ^ d.places :=
      Nat.mod_lt _ (Nat.pow_pos (Nat.succ_pos 9))
    have hlength := length_padded hplaces hlt
    refine ⟨_, _, ⟨hne, List.forall_mem_append.mpr ⟨hdigits, hmore⟩, hlength, ?_⟩, ?_⟩
    · rw [Nat.ofDigitChars_append, Nat.ofDigitChars_eq_ofDigitChars_zero, value_padded, hlength,
        Nat.ofDigitChars_ten_toDigits]
      exact Nat.div_add_mod d.digits (10 ^ d.places)
    · rw [if_neg hpadded, List.append_assoc, List.cons_append]

end Decimal

end TreeFigure
