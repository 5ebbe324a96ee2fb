import TreeFigure.Toml.Quoted
import TreeFigure.Toml.Scan

/-!
Texts in double quotes are read back as they were written. Every character has a form inside the
quotes that is read as this character alone, and no quote of the text is taken for a closing one.
-/

namespace TreeFigure.Toml

open Quoted Scan

/-- How a character may stand inside double quotes: as it is, as a backslash and a letter, or with
the digits of its code. -/
inductive Escaped (c : Char) : List Char → Prop
  | kept (hplain : isPlain c = true) (hslash : c ≠ '\\') (hquote : c ≠ '\x22') : Escaped c [c]
  | letter {l : Char} (hletter : shortEscape? l = some c) : Escaped c ['\\', l]
  | code {a b : Char} (hcode : scalar? ['0', '0', a, b] = some c) :
      Escaped c ['\\', 'u', '0', '0', a, b]

theorem scalar?_byteDigits :
    ∀ code < 128, scalar? ('0' :: '0' :: byteDigits code) = some (Char.ofNat code) := by
  decide +kernel

theorem Escaped.ofControl {c : Char} (h : c.toNat < 128) :
    Escaped c ("\\u00".toList ++ byteDigits c.toNat) := by
  have hscalar := scalar?_byteDigits c.toNat h
  rw [Char.ofNat_toNat] at hscalar
  exact .code hscalar

theorem escaped_escapeChar {keepLineFeed : Bool} {c : Char} (hquote : c ≠ '\x22')
    (hkeep : keepLineFeed = false ∨ c ≠ '\n') : Escaped c (escapeChar keepLineFeed c) := by
  unfold escapeChar
  split
  case h_1 => exact .letter rfl
  case h_2 => exact .letter rfl
  case h_3 =>
    rcases hkeep with rfl | hne
    · exact .letter rfl
    · exact absurd rfl hne
  case h_4 => exact .letter rfl
  case h_5 => exact .letter rfl
  case h_6 => exact .letter rfl
  case h_7 hslash =>
    split
    case isTrue hcontrol =>
      apply Escaped.ofControl
      simp only [Bool.or_eq_true, decide_eq_true_eq, beq_iff_eq] at hcontrol
      rcases hcontrol with hlow | rfl
      · exact Nat.lt_trans (UInt32.lt_iff_toNat_lt.mp hlow) (by decide)
      · decide
    case isFalse hvisible =>
      simp only [Bool.or_eq_true, decide_eq_true_eq, beq_iff_eq, not_or, Char.not_lt] at hvisible
      refine .kept ?_ hslash hquote
      simp [isPlain, hvisible.1, hvisible.2]

/-- What stands for a character begins neither a line end nor a closing quote. -/
theorem Escaped.exists_cons {c : Char} {written : List Char} (h : Escaped c written) :
    ∃ first rest, written = first :: rest ∧ isPlain first = true ∧ first ≠ '\x22' := by
  cases h with
  | kept hplain _ hquote => exact ⟨c, [], rfl, hplain, hquote⟩
  | letter => exact ⟨'\\', _, rfl, rfl, by decide⟩
  | code => exact ⟨'\\', _, rfl, rfl, by decide⟩

theorem escapeFrom_head?_ne {keepLineFeed : Bool} {limit run : Nat} {c : Char}
    (h : c = '\x22' → limit ≤ run) (text rest : List Char) :
    (escapeFrom keepLineFeed limit run (c :: text) ++ rest).head? ≠ some '\x22' := by
  unfold escapeFrom
  split
  case isTrue hquote =>
    rw [if_neg (Nat.not_lt.mpr (h hquote))]
    simp
  case isFalse hquote =>
    by_cases hfeed : c = '\n'
    · subst hfeed
      cases keepLineFeed <;> simp [escapeChar]
    · have hescaped : Escaped c (escapeChar keepLineFeed c) :=
        escaped_escapeChar hquote (.inr hfeed)
      obtain ⟨first, more, heq, -, hfirst⟩ := hescaped.exists_cons
      rw [heq]
      intro hhead
      exact hfirst (Option.some.inj hhead)

theorem ne_of_shortEscape? {l c : Char} (h : shortEscape? l = some c) : l ≠ 'u' ∧ l ≠ 'U' := by
  constructor <;> rintro rfl <;> cases h

/-! One line in double quotes. -/

theorem Escaped.basicBody {c : Char} {written : List Char} (h : Escaped c written)
    (rest : List Char) : basicBody (written ++ rest) = before c (basicBody rest) := by
  cases h with
  | kept hplain hslash => simp [Scan.basicBody, hplain, hslash]
  | @letter l hletter =>
    obtain ⟨hshort, hlong⟩ := ne_of_shortEscape? hletter
    simp [Scan.basicBody, hletter, hshort, hlong]
  | code hcode => simp [Scan.basicBody, hcode]

theorem basicBody_escapeFrom (text rest : List Char) :
    basicBody (escapeFrom false 0 0 text ++ '\x22' :: rest) = some (text, rest) := by
  induction text with
  | nil => rfl
  | cons c text ih =>
    by_cases hquote : c = '\x22'
    · subst hquote
      have hescaped : Escaped '\x22' ['\\', '\x22'] := .letter rfl
      have hstep := hescaped.basicBody (escapeFrom false 0 0 text ++ '\x22' :: rest)
      rw [ih] at hstep
      exact hstep
    · have hescaped := escaped_escapeChar hquote (.inl rfl)
      rw [escapeFrom, if_neg hquote, List.append_assoc, hescaped.basicBody, ih]
      rfl

/-! Several lines in double quotes. -/

theorem longBasicBody_quote {rest : List Char} (h : ∀ more, rest ≠ '\x22' :: '\x22' :: more) :
    longBasicBody false ('\x22' :: rest) = before '\x22' (longBasicBody false rest) := by
  simp [longBasicBody, isPlain, h]

theorem longBasicBody_lineFeed (rest : List Char) :
    longBasicBody false ('\n' :: rest) = before '\n' (longBasicBody false rest) := by
  simp [longBasicBody]

/-- A letter after a backslash is not the end of a line. -/
theorem endsLine_of_shortEscape? {l c : Char} (h : shortEscape? l = some c) (rest : List Char) :
    endsLine (l :: rest) = false := by
  have hgap : isGap l = false := by
    cases hgap : isGap l with
    | false => rfl
    | true =>
      simp only [isGap, Bool.or_eq_true, beq_iff_eq] at hgap
      rcases hgap with rfl | rfl <;> cases h
  have hfeed : l ≠ '\n' ∧ l ≠ '\r' := by
    constructor <;> rintro rfl <;> cases h
  simp [endsLine, skipGap, hgap, lineEnd?, hfeed.1, hfeed.2]

theorem Escaped.longBasicBody {c : Char} {written : List Char} (h : Escaped c written)
    (rest : List Char) :
    longBasicBody false (written ++ rest) = before c (longBasicBody false rest) := by
  cases h with
  | kept hplain hslash hquote =>
    have hreturn : c ≠ '\r' := by
      rintro rfl
      cases hplain
    simp [Scan.longBasicBody, hplain, hslash, hquote, hreturn]
  | @letter l hletter =>
    obtain ⟨hshort, hlong⟩ := ne_of_shortEscape? hletter
    simp [Scan.longBasicBody, hletter, hshort, hlong, endsLine_of_shortEscape? hletter]
  | code hcode => simp [Scan.longBasicBody, hcode]

/-- Up to two quotes before the closing ones belong to the text. -/
theorem longBasicBody_closing {count : Nat} (hcount : count ≤ 2) {rest : List Char}
    (hrest : rest.head? ≠ some '\x22') :
    longBasicBody false (List.replicate count '\x22' ++ '\x22' :: '\x22' :: '\x22' :: rest) =
      some (List.replicate count '\x22', rest) := by
  have hnext (more : List Char) : rest ≠ '\x22' :: more := by
    rintro rfl
    exact hrest rfl
  match count, hcount with
  | 0, _ => simp [longBasicBody, hnext]
  | 1, _ => simp [longBasicBody]
  | 2, _ => simp [longBasicBody]

/-- Where a quote is kept, two more follow only at the end of the text. -/
theorem not_quotes_of_escapeFrom {run : Nat} {text : List Char}
    (hrun : 1 ≤ run) (hnil : text ≠ []) (hlast : run = 1 → text ≠ ['\x22']) (rest : List Char) :
    ∀ more, escapeFrom true 2 run text ++ rest ≠ '\x22' :: '\x22' :: more := by
  intro more hmore
  obtain ⟨c, text, rfl⟩ := List.exists_cons_of_ne_nil hnil
  by_cases hkept : c = '\x22' ∧ run < 2
  · obtain ⟨rfl, hlt⟩ := hkept
    obtain rfl : run = 1 := by omega
    cases text with
    | nil => exact hlast rfl rfl
    | cons next text =>
      have hnext : (escapeFrom true 2 2 (next :: text) ++ rest).head? ≠ some '\x22' :=
        escapeFrom_head?_ne (fun _ => Nat.le_refl 2) text rest
      rw [escapeFrom, if_pos rfl, if_pos hlt] at hmore
      exact hnext (congrArg List.head? (List.cons.inj hmore).2)
  · have hhead : (escapeFrom true 2 run (c :: text) ++ rest).head? ≠ some '\x22' :=
      escapeFrom_head?_ne (fun hquote => Nat.not_lt.mp fun hlt => hkept ⟨hquote, hlt⟩) text rest
    exact hhead (congrArg List.head? hmore)

/-- A quote that is kept is read as one of the text. The quotes after it are not taken for closing
ones, unless the text ends there, and then they are counted from the end. -/
theorem longBasicBody_kept_quote {text rest : List Char} {run : Nat}
    (hrest : rest.head? ≠ some '\x22')
    (hread : longBasicBody false
      (escapeFrom true 2 (run + 1) text ++ '\x22' :: '\x22' :: '\x22' :: rest) =
        some (text, rest)) :
    longBasicBody false
      ('\x22' :: (escapeFrom true 2 (run + 1) text ++ '\x22' :: '\x22' :: '\x22' :: rest)) =
        some ('\x22' :: text, rest) := by
  by_cases hnil : text = []
  · subst hnil
    exact longBasicBody_closing (Nat.le_succ 1) hrest
  · by_cases hlast : run + 1 = 1 ∧ text = ['\x22']
    · obtain ⟨hzero, rfl⟩ := hlast
      rw [hzero]
      exact longBasicBody_closing (Nat.le_refl 2) hrest
    · have hquotes := not_quotes_of_escapeFrom (Nat.le_add_left 1 run) hnil
        (fun hone htext => hlast ⟨hone, htext⟩) ('\x22' :: '\x22' :: '\x22' :: rest)
      rw [longBasicBody_quote hquotes, hread]
      rfl

/-- The text with its runs of quotes cut short is read back. -/
theorem longBasicBody_escapeFrom (text : List Char) (run : Nat) {rest : List Char}
    (hrest : rest.head? ≠ some '\x22') :
    longBasicBody false
      (escapeFrom true 2 run text ++ '\x22' :: '\x22' :: '\x22' :: rest) = some (text, rest) := by
  induction text generalizing run with
  | nil => exact longBasicBody_closing (Nat.zero_le 2) hrest
  | cons c text ih =>
    by_cases hquote : c = '\x22'
    · subst hquote
      by_cases hrun : run < 2
      · rw [escapeFrom, if_pos rfl, if_pos hrun, List.cons_append]
        exact longBasicBody_kept_quote hrest (ih (run + 1))
      · have hescaped : Escaped '\x22' ['\\', '\x22'] := .letter rfl
        have hstep := hescaped.longBasicBody
          (escapeFrom true 2 0 text ++ '\x22' :: '\x22' :: '\x22' :: rest)
        rw [ih] at hstep
        rw [escapeFrom, if_pos rfl, if_neg hrun]
        exact hstep
    · rw [escapeFrom, if_neg hquote, List.append_assoc]
      by_cases hfeed : c = '\n'
      · subst hfeed
        have hstep := longBasicBody_lineFeed
          (escapeFrom true 2 0 text ++ '\x22' :: '\x22' :: '\x22' :: rest)
        rw [ih] at hstep
        exact hstep
      · rw [(escaped_escapeChar hquote (.inr hfeed)).longBasicBody, ih]
        rfl

end TreeFigure.Toml
