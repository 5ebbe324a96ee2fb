import Mathlib.Data.List.Basic
import TreeFigure.Toml.Number

/-!
Integers are read back as they were written. The digits of a number up to the end of a line are
neither a date nor a time, have no fraction and no exponent, and give the number again if it has at
most 64 bits with its sign.
-/

namespace TreeFigure.Toml

open Scan

/-- The integers of 64 bits with a sign. -/
def IsInteger (n : Int) : Prop :=
  -(Text.signedBound : Int) ≤ n ∧ n < Text.signedBound

instance (n : Int) : Decidable (IsInteger n) :=
  inferInstanceAs (Decidable (_ ∧ _))

/-- Decimal digits without a leading zero. -/
inductive Numeral : List Char → Prop
  | zero : Numeral ['0']
  | positive {c : Char} {digits : List Char} (hfirst : c ≠ '0') (hdigit : c.isDigit = true)
      (hdigits : ∀ d ∈ digits, d.isDigit = true) : Numeral (c :: digits)

theorem exists_cons_toDigits {n : Nat} (h : 0 < n) :
    ∃ c digits, Nat.toDigits 10 n = c :: digits ∧ c ≠ '0' := by
  induction n using Nat.base_induction 10 (by decide) with
  | single n hn =>
    refine ⟨n.digitChar, [], Nat.toDigits_of_lt_base hn, ?_⟩
    rw [Ne, Nat.digitChar_eq_zero]
    omega
  | digit n last hlast hn ih =>
    obtain ⟨c, digits, heq, hc⟩ := ih hn
    refine ⟨c, digits ++ Nat.toDigits 10 last, ?_, hc⟩
    rw [← Nat.toDigits_append_toDigits (by decide) hn hlast, heq, List.cons_append]

theorem numeral_toDigits (n : Nat) : Numeral (Nat.toDigits 10 n) := by
  rcases Nat.eq_zero_or_pos n with rfl | hpos
  · exact .zero
  · have hdigits (d : Char) (hmem : d ∈ Nat.toDigits 10 n) : d.isDigit = true :=
      Nat.isDigit_of_mem_toDigits (by decide) (by decide) hmem
    obtain ⟨c, digits, heq, hc⟩ := exists_cons_toDigits hpos
    rw [heq] at hdigits ⊢
    obtain ⟨hfirst, hrest⟩ := List.forall_mem_cons.mp hdigits
    exact .positive hc hfirst hrest

theorem Numeral.isDigit {digits : List Char} (h : Numeral digits) :
    ∀ d ∈ digits, d.isDigit = true := by
  cases h with
  | zero => exact List.forall_mem_singleton.mpr rfl
  | positive _ hdigit hdigits => exact List.forall_mem_cons.mpr ⟨hdigit, hdigits⟩

/-- The digits after a sign. -/
def signed (negative : Bool) (digits : List Char) : List Char :=
  if negative then '-' :: digits else digits

section Read

variable {digits : List Char} (rest : List Char)

theorem moreDigits_append (h : ∀ d ∈ digits, d.isDigit = true) :
    moreDigits Char.isDigit (digits ++ '\n' :: rest) = (digits, '\n' :: rest) := by
  induction digits with
  | nil => rfl
  | cons c digits ih =>
    obtain ⟨hc, hdigits⟩ := List.forall_mem_cons.mp h
    have hmark : c ≠ '_' := by
      rintro rfl
      cases hc
    simp [moreDigits, hmark, hc, ih hdigits]

theorem decimalRun_append (h : Numeral digits) :
    decimalRun (digits ++ '\n' :: rest) = some (digits, '\n' :: rest) := by
  cases h with
  | zero => rfl
  | positive hfirst hdigit hdigits =>
    simp [decimalRun, hfirst, digitRun, hdigit, moreDigits_append rest hdigits]

theorem sign_append (h : ∀ d ∈ digits, d.isDigit = true) (negative : Bool) :
    sign (signed negative digits ++ '\n' :: rest) = (negative, digits ++ '\n' :: rest) := by
  cases negative with
  | true => rfl
  | false =>
    cases digits with
    | nil => rfl
    | cons c digits =>
      have hc := h c List.mem_cons_self
      have hne : c ≠ '-' ∧ c ≠ '+' := by
        constructor <;> rintro rfl <;> cases hc
      simp [signed, sign, hne.1, hne.2]

/-- After digits comes a digit or the end of the line. -/
theorem mark_of_field {count low high value : Nat} {left : List Char}
    (h : ∀ d ∈ digits, d.isDigit = true)
    (hfield : field count low high (digits ++ '\n' :: rest) = some (value, left)) {c : Char}
    (hdigit : c.isDigit = false) (hfeed : c ≠ '\n') : mark c left = none := by
  have hne (d : Char) (hd : d.isDigit = true) : d ≠ c := by
    rintro rfl
    rw [hdigit] at hd
    cases hd
  unfold field at hfield
  dsimp only at hfield
  split at hfield
  case isFalse => cases hfield
  case isTrue hread =>
    obtain ⟨-, hall, -, -⟩ := hread
    obtain ⟨-, rfl⟩ := Prod.mk.inj (Option.some.inj hfield)
    -- the line feed is no digit, so that the field ends before it
    have hcount : count ≤ digits.length := by
      by_contra hlong
      have hmem : '\n' ∈ (digits ++ '\n' :: rest).take count := by
        rw [List.take_append, List.mem_append]
        right
        obtain ⟨k, hk⟩ := Nat.exists_eq_add_of_lt (Nat.not_le.mp hlong)
        rw [hk, Nat.add_assoc, Nat.add_sub_cancel_left]
        exact List.mem_cons_self
      have hfalse := List.all_eq_true.mp hall '\n' hmem
      cases hfalse
    rw [List.drop_append_of_le_length hcount]
    cases hdrop : digits.drop count with
    | nil => exact if_neg hfeed.symm
    | cons d more =>
      have hd : d ∈ digits := List.mem_of_mem_drop (hdrop ▸ List.mem_cons_self)
      exact if_neg (hne d (h d hd))

theorem field_minus (count low high : Nat) (text : List Char) :
    field (count + 1) low high ('-' :: text) = none := by
  apply if_neg
  rintro ⟨-, hall, -, -⟩
  have hfalse := List.all_eq_true.mp hall '-' List.mem_cons_self
  cases hfalse

theorem day_append (h : ∀ d ∈ digits, d.isDigit = true) (negative : Bool) :
    day (signed negative digits ++ '\n' :: rest) = none := by
  unfold day
  cases negative with
  | true =>
    have hfield := field_minus 3 0 9999 (digits ++ '\n' :: rest)
    simp [signed, hfield]
  | false =>
    cases hfield : field 4 0 9999 (digits ++ '\n' :: rest) with
    | none => simp [signed, hfield]
    | some found =>
      have hmark := mark_of_field rest h hfield (c := '-') rfl (by decide)
      simp [signed, hfield, hmark]

theorem timeOfDay_append (h : ∀ d ∈ digits, d.isDigit = true) (negative : Bool) :
    timeOfDay (signed negative digits ++ '\n' :: rest) = none := by
  unfold timeOfDay
  cases negative with
  | true =>
    have hfield := field_minus 1 0 23 (digits ++ '\n' :: rest)
    simp [signed, hfield]
  | false =>
    cases hfield : field 2 0 23 (digits ++ '\n' :: rest) with
    | none => simp [signed, hfield]
    | some found =>
      have hmark := mark_of_field rest h hfield (c := ':') rfl (by decide)
      simp [signed, hfield, hmark]

theorem date_append (h : ∀ d ∈ digits, d.isDigit = true) (negative : Bool) :
    date (signed negative digits ++ '\n' :: rest) = none := by
  unfold date dayAndTime
  rw [day_append rest h]
  exact timeOfDay_append rest h negative

theorem float_append (h : Numeral digits) (negative : Bool) :
    float (signed negative digits ++ '\n' :: rest) = none := by
  unfold float
  rw [sign_append rest h.isDigit]
  have hrun := decimalRun_append rest h
  cases h with
  | zero => rfl
  | @positive c digits _ hdigit _ =>
    have hne : c ≠ 'i' ∧ c ≠ 'n' := by
      constructor <;> rintro rfl <;> cases hdigit
    rw [List.cons_append] at hrun ⊢
    simp [hne.1, hne.2, hrun, fractionPart, exponentPart]

/-- No mark of another base follows a zero. -/
theorem signed_append_ne (h : Numeral digits) (negative : Bool) {base : Char} (hbase : base ≠ '\n')
    (more : List Char) : signed negative digits ++ '\n' :: rest ≠ '0' :: base :: more := by
  intro heq
  cases negative with
  | true => cases heq
  | false =>
    cases h with
    | zero => exact hbase (List.cons.inj (List.cons.inj heq).2).1.symm
    | positive hfirst => exact hfirst (List.cons.inj heq).1

theorem integer_append (h : Numeral digits) (negative : Bool) :
    integer (signed negative digits ++ '\n' :: rest) =
      (checkedInteger negative (valueOf 10 digits)).map fun value => (value, '\n' :: rest) := by
  have hsign := sign_append rest h.isDigit negative
  have hrun := decimalRun_append rest h
  unfold integer
  split
  case h_1 heq => exact absurd heq (signed_append_ne rest h negative (by decide) _)
  case h_2 heq => exact absurd heq (signed_append_ne rest h negative (by decide) _)
  case h_3 heq => exact absurd heq (signed_append_ne rest h negative (by decide) _)
  case h_4 =>
    simp only [hsign, hrun, Option.bind_eq_bind, Option.bind_some]
    cases checkedInteger negative (valueOf 10 digits) <;> rfl

end Read

theorem hexDigit?_of_isDigit {c : Char} (h : c.isDigit = true) :
    hexDigit? c = some (c.toNat - 48) := by
  have hrange : ('0' ≤ c && c ≤ '9') = true := h
  unfold hexDigit?
  rw [if_pos hrange]

theorem valueOf_eq_ofDigitChars {digits : List Char} (h : ∀ d ∈ digits, d.isDigit = true) :
    valueOf 10 digits = Nat.ofDigitChars 10 digits 0 := by
  unfold valueOf Nat.ofDigitChars
  apply List.foldl_ext
  intro value d hmem
  rw [hexDigit?_of_isDigit (h d hmem), Nat.mul_comm]
  rfl

theorem valueOf_toDigits (n : Nat) : valueOf 10 (Nat.toDigits 10 n) = n := by
  rw [valueOf_eq_ofDigitChars (numeral_toDigits n).isDigit, Nat.ofDigitChars_ten_toDigits]

theorem toList_toString (n : Int) :
    (toString n).toList = signed (decide (n < 0)) (Nat.toDigits 10 n.natAbs) := by
  cases n with
  | ofNat n => exact Nat.toList_repr
  | negSucc n =>
    have hnegative : decide (Int.negSucc n < 0) = true := decide_eq_true (Int.negSucc_lt_zero n)
    rw [hnegative, Int.toString_eq_repr, Int.repr, String.toList_append, Nat.toList_repr]
    rfl

theorem checkedInteger_natAbs {n : Int} (h : IsInteger n) :
    checkedInteger (decide (n < 0)) n.natAbs = some n := by
  obtain ⟨hlow, hhigh⟩ := h
  unfold checkedInteger
  by_cases hnegative : n < 0
  · rw [decide_eq_true hnegative, if_pos rfl, if_pos (by omega)]
    congr 1
    omega
  · rw [decide_eq_false hnegative, if_neg Bool.false_ne_true, if_pos (by omega)]
    congr 1
    omega

/-- An integer of 64 bits is read back at the end of a line. -/
theorem number_toString {n : Int} (h : IsInteger n) (rest : List Char) :
    number ((toString n).toList ++ '\n' :: rest) = some (.integer n, '\n' :: rest) := by
  have hnumeral := numeral_toDigits n.natAbs
  rw [toList_toString]
  unfold number
  rw [date_append rest hnumeral.isDigit, float_append rest hnumeral, integer_append rest hnumeral,
    valueOf_toDigits, checkedInteger_natAbs h]
  rfl

end TreeFigure.Toml
