import TreeFigure.Toml.Parse
import TreeFigure.Proofs.Toml.Numbers
import TreeFigure.Proofs.Toml.Quoting

/-!
The lines of a written TOML text are read back as statements: a key with a text or an integer, and
the header of a table. Each line is read up to its end, whatever the lines after it are.
-/

namespace TreeFigure.Toml

open Scan

/-- A key that needs no quotes. -/
def IsBare (key : String) : Prop :=
  key.toList ≠ [] ∧ key.toList.all isBareKey = true

instance (key : String) : Decidable (IsBare key) :=
  inferInstanceAs (Decidable (_ ∧ _))

/-- A written value that is read up to the end of its line. -/
structure Writes (value : List Char) (item : Expr) : Prop where
  visible : ∀ rest, skipGap (value ++ rest) = value ++ rest
  read : ∀ fuel depth rest,
    expr (fuel + 1) depth (value ++ '\n' :: rest) = some (item, '\n' :: rest)

section Values

theorem skipGap_of_visible {c : Char} (h : isGap c = false) (rest : List Char) :
    skipGap (c :: rest) = c :: rest := by
  simp [skipGap, h]

/-- A string begins with a quote. -/
theorem exists_cons_write (text : List Char) :
    ∃ quote rest, Quoted.write text = quote :: rest ∧ (quote = '\x22' ∨ quote = '\x27') := by
  unfold Quoted.write
  cases Quoted.style text with
  | basic | longBasic => exact ⟨'\x22', _, rfl, .inl rfl⟩
  | literal | longLiteral => exact ⟨'\x27', _, rfl, .inr rfl⟩

theorem writes_text (text : String) : Writes (Quoted.write text.toList) (.text text) := by
  obtain ⟨quote, more, heq, hquote⟩ := exists_cons_write text.toList
  constructor
  · intro rest
    rw [heq]
    apply skipGap_of_visible
    rcases hquote with rfl | rfl <;> rfl
  · intro fuel depth rest
    have hread : quoted (Quoted.write text.toList ++ '\n' :: rest) =
        some (text.toList, '\n' :: rest) :=
      quoted_write text.toList (by simp) (by simp)
    rw [heq] at hread ⊢
    rw [List.cons_append] at hread ⊢
    unfold expr
    dsimp only
    rw [if_pos hquote, hread, Option.map_some, String.ofList_toList]

/-- The first character of an integer. -/
theorem exists_cons_toString (n : Int) :
    ∃ first rest, (toString n).toList = first :: rest ∧ (first = '-' ∨ first.isDigit = true) := by
  have hnumeral := numeral_toDigits n.natAbs
  rw [toList_toString, signed]
  split
  case isTrue => exact ⟨'-', _, rfl, .inl rfl⟩
  case isFalse =>
    cases hdigits : Nat.toDigits 10 n.natAbs with
    | nil => exact absurd hdigits Nat.toDigits_ne_nil
    | cons d digits =>
      rw [hdigits] at hnumeral
      exact ⟨d, digits, rfl, .inr (hnumeral.isDigit d List.mem_cons_self)⟩

theorem writes_integer {n : Int} (h : IsInteger n) : Writes (toString n).toList (.integer n) := by
  obtain ⟨first, more, heq, hfirst⟩ := exists_cons_toString n
  have hne (c : Char) (hminus : c ≠ '-') (hdigit : c.isDigit = false) : first ≠ c := by
    rintro rfl
    rcases hfirst with rfl | htrue
    · exact hminus rfl
    · rw [hdigit] at htrue
      cases htrue
  constructor
  · intro rest
    rw [heq]
    apply skipGap_of_visible
    simp [isGap, hne ' ' (by decide) rfl, hne '\t' (by decide) rfl]
  · intro fuel depth rest
    have hread := number_toString h rest
    rw [heq, List.cons_append] at hread ⊢
    unfold expr
    simp [hread, hne '\x22' (by decide) rfl, hne '\x27' (by decide) rfl,
      hne '[' (by decide) rfl, hne '\x7b' (by decide) rfl, hne 't' (by decide) rfl,
      hne 'f' (by decide) rfl]

theorem writes_natural {n : Nat} (h : n < Text.signedBound) :
    Writes (toString n).toList (.integer n) := by
  have hinteger : IsInteger n := by
    unfold IsInteger
    omega
  have hsame : toString n = toString (n : Int) := rfl
  rw [hsame]
  exact writes_integer hinteger

end Values

section Lines

variable {key : String}

theorem IsBare.bare (hkey : IsBare key) : ∀ c ∈ key.toList, isBareKey c = true :=
  List.all_eq_true.mp hkey.2

theorem IsBare.exists_cons (hkey : IsBare key) :
    ∃ first rest, key.toList = first :: rest ∧ isBareKey first = true := by
  obtain ⟨first, rest, heq⟩ := List.exists_cons_of_ne_nil hkey.1
  exact ⟨first, rest, heq, hkey.bare first (heq ▸ List.mem_cons_self)⟩

theorem ne_of_isBareKey {c other : Char} (hc : isBareKey c = true)
    (hother : isBareKey other = false) : c ≠ other := by
  rintro rfl
  rw [hother] at hc
  cases hc

theorem isGap_of_isBareKey {c : Char} (h : isBareKey c = true) : isGap c = false := by
  have hblank : c ≠ ' ' := ne_of_isBareKey h rfl
  have htab : c ≠ '\t' := ne_of_isBareKey h rfl
  simp [isGap, hblank, htab]

theorem skipGap_key (hkey : IsBare key) (rest : List Char) :
    skipGap (key.toList ++ rest) = key.toList ++ rest := by
  obtain ⟨first, more, heq, hfirst⟩ := hkey.exists_cons
  rw [heq]
  exact skipGap_of_visible (isGap_of_isBareKey hfirst) _

/-- A bare key ends at a character that cannot stand in one. -/
theorem simpleKey_append (hkey : IsBare key) {c : Char} (hend : isBareKey c = false)
    (rest : List Char) : simpleKey (key.toList ++ c :: rest) = some (key, c :: rest) := by
  obtain ⟨first, more, heq, hfirst⟩ := hkey.exists_cons
  have htake : (key.toList ++ c :: rest).takeWhile isBareKey = key.toList := by
    rw [List.takeWhile_append_of_pos hkey.bare, List.takeWhile_cons_of_neg (by simp [hend]),
      List.append_nil]
  have hdrop : (key.toList ++ c :: rest).dropWhile isBareKey = c :: rest := by
    rw [List.dropWhile_append_of_pos hkey.bare, List.dropWhile_cons_of_neg (by simp [hend])]
  have hempty : key.toList.isEmpty = false := by
    rw [heq]
    rfl
  unfold simpleKey
  split
  case h_1 hquote =>
    rw [heq] at hquote
    exact absurd (List.cons.inj hquote).1 (ne_of_isBareKey hfirst rfl)
  case h_2 hquote =>
    rw [heq] at hquote
    exact absurd (List.cons.inj hquote).1 (ne_of_isBareKey hfirst rfl)
  case h_3 =>
    simp only [htake, hdrop, hempty, String.ofList_toList]
    rfl

theorem keyPath_append (hkey : IsBare key) {c : Char} {rest left : List Char}
    (hend : isBareKey c = false) (hleft : skipGap (c :: rest) = left)
    (hpoint : left.head? ≠ some '.') :
    keyPath (key.toList ++ c :: rest) = some (⟨[], key⟩, left) := by
  have hkeys : dottedKeys (78 + 1) (key.toList ++ c :: rest) = some ((key, []), left) := by
    rw [dottedKeys, skipGap_key hkey, simpleKey_append hkey hend]
    simp only [Option.bind_eq_bind, Option.bind_some, hleft]
    split
    case h_1 => exact absurd rfl hpoint
    case h_2 => rfl
  exact congrArg (Option.map _) hkeys

theorem key_append_ne (hkey : IsBare key) {c : Char} (hc : isBareKey c = false)
    (rest more : List Char) : key.toList ++ rest ≠ c :: more := by
  obtain ⟨first, others, heq, hfirst⟩ := hkey.exists_cons
  rw [heq]
  intro hcons
  exact ne_of_isBareKey hfirst hc (List.cons.inj hcons).1

theorem statement_assign (hkey : IsBare key) {value : List Char} {item : Expr}
    (hvalue : Writes value item) (rest : List Char) :
    statement (key.toList ++ ' ' :: '=' :: ' ' :: (value ++ '\n' :: rest)) =
      some (.assign ⟨[], key⟩ item, rest) := by
  have hpath : keyPath (key.toList ++ ' ' :: '=' :: ' ' :: (value ++ '\n' :: rest)) =
      some (⟨[], key⟩, '=' :: ' ' :: (value ++ '\n' :: rest)) :=
    keyPath_append hkey rfl rfl (by simp)
  have hgap : skipGap (' ' :: (value ++ '\n' :: rest)) = value ++ '\n' :: rest :=
    hvalue.visible ('\n' :: rest)
  unfold statement
  split
  case h_1 heq => exact absurd heq (key_append_ne hkey rfl _ _)
  case h_2 heq => exact absurd heq (key_append_ne hkey rfl _ _)
  case h_3 =>
    simp only [hpath, mark, if_pos, hgap, hvalue.read, Option.bind_eq_bind, Option.bind_some]
    rfl

theorem statement_header (hkey : IsBare key) (rest : List Char) :
    statement ('[' :: (key.toList ++ ']' :: '\n' :: rest)) = some (.header ⟨[], key⟩, rest) := by
  have hpath : keyPath (key.toList ++ ']' :: '\n' :: rest) =
      some (⟨[], key⟩, ']' :: '\n' :: rest) :=
    keyPath_append hkey rfl rfl (by simp)
  unfold statement
  split
  case h_1 heq => exact absurd (List.cons.inj heq).2 (key_append_ne hkey rfl _ _)
  case h_2 heq =>
    rw [← (List.cons.inj heq).2]
    simp only [hpath, mark, if_pos, Option.bind_eq_bind, Option.bind_some]
    rfl
  case h_3 hother => exact absurd rfl (hother _)

/-! The lines one after the other. -/

theorem statements_of_statement {c : Char} {line left : List Char} {first : Statement}
    (hgap : isGap c = false) (hcomment : c ≠ '#') (hfeed : c ≠ '\n') (hreturn : c ≠ '\r')
    (hread : statement (c :: line) = some (first, left)) (fuel : Nat) :
    statements (fuel + 1) (c :: line) = (statements fuel left).map (first :: ·) := by
  simp only [statements, skipGap_of_visible hgap, hcomment, hfeed, hreturn, or_self, if_false,
    hread, Option.bind_eq_bind, Option.bind_some]
  cases statements fuel left <;> rfl

theorem statements_assign (hkey : IsBare key) {value : List Char} {item : Expr}
    (hvalue : Writes value item) (fuel : Nat) (rest : List Char) :
    statements (fuel + 1) (key.toList ++ ' ' :: '=' :: ' ' :: (value ++ '\n' :: rest)) =
      (statements fuel rest).map (.assign ⟨[], key⟩ item :: ·) := by
  have hread := statement_assign hkey hvalue rest
  obtain ⟨first, more, heq, hfirst⟩ := hkey.exists_cons
  rw [heq, List.cons_append] at hread ⊢
  exact statements_of_statement (isGap_of_isBareKey hfirst) (ne_of_isBareKey hfirst rfl)
    (ne_of_isBareKey hfirst rfl) (ne_of_isBareKey hfirst rfl) hread fuel

theorem statements_header (hkey : IsBare key) (fuel : Nat) (rest : List Char) :
    statements (fuel + 1) ('[' :: (key.toList ++ ']' :: '\n' :: rest)) =
      (statements fuel rest).map (.header ⟨[], key⟩ :: ·) :=
  statements_of_statement rfl (by decide) (by decide) (by decide) (statement_header hkey rest) fuel

theorem statements_blank (fuel : Nat) (rest : List Char) :
    statements (fuel + 1) ('\n' :: rest) = statements fuel rest := by
  rfl

end Lines

end TreeFigure.Toml
