/-!
Where and how often a pattern stands in a text. It does not reach over a character that it lacks,
and it does not begin where its first character is missing. A text adds occurrences to what follows
it: none of them reaches over its end.
-/

namespace TreeFigure.Text

/-- A pattern does not begin in a part without its first character. -/
theorem isInfix_of_notMem {first : Char} {rest left right : List Char} (hleft : first ∉ left)
    (h : first :: rest <:+: left ++ right) : first :: rest <:+: right := by
  induction left with
  | nil => exact h
  | cons c left ih =>
    rw [List.mem_cons, not_or] at hleft
    rw [List.cons_append, List.infix_cons_iff] at h
    rcases h with hstart | hlater
    · exact absurd (List.cons_prefix_cons.mp hstart).1 hleft.1
    · exact ih hleft.2 hlater

section Reach

variable {c : Char} {pattern left right : List Char}

theorem prefix_of_prefix_append_cons (hc : c ∉ pattern) (h : pattern <+: left ++ c :: right) :
    pattern <+: left := by
  induction left generalizing pattern with
  | nil =>
    cases pattern with
    | nil => exact List.nil_prefix
    | cons first rest =>
      have hfirst : first = c := (List.cons_prefix_cons.mp h).1
      exact absurd (hfirst ▸ List.mem_cons_self) hc
  | cons d left ih =>
    cases pattern with
    | nil => exact List.nil_prefix
    | cons first rest =>
      rw [List.cons_append, List.cons_prefix_cons] at h
      rw [List.mem_cons, not_or] at hc
      exact List.cons_prefix_cons.mpr ⟨h.1, ih hc.2 h.2⟩

/-- A pattern stands before or after a character that it lacks. -/
theorem isInfix_append_cons (hc : c ∉ pattern) (h : pattern <:+: left ++ c :: right) :
    pattern <:+: left ∨ pattern <:+: right := by
  induction left with
  | nil =>
    rcases List.infix_cons_iff.mp h with hstart | hlater
    · exact .inl (prefix_of_prefix_append_cons hc hstart).isInfix
    · exact .inr hlater
  | cons d left ih =>
    rcases List.infix_cons_iff.mp h with hstart | hlater
    · exact .inl (prefix_of_prefix_append_cons hc hstart).isInfix
    · exact (ih hlater).imp_left fun hin => hin.trans (List.suffix_cons d left).isInfix

end Reach

/-- Number of characters of a text at which the pattern starts. -/
def occurrences (pattern : List Char) : List Char → Nat
  | [] => 0
  | c :: rest =>
    if pattern.isPrefixOf (c :: rest) then occurrences pattern rest + 1
    else occurrences pattern rest

/-- In front of any text, this text makes so many occurrences more. -/
def Adds (pattern text : List Char) (count : Nat) : Prop :=
  ∀ rest, occurrences pattern (text ++ rest) = occurrences pattern rest + count

section Adds

variable {pattern left right : List Char} {m n : Nat}

theorem adds_nil : Adds pattern [] 0 :=
  fun _ => rfl

theorem Adds.append (hleft : Adds pattern left m) (hright : Adds pattern right n) :
    Adds pattern (left ++ right) (m + n) := by
  intro rest
  rw [List.append_assoc, hleft, hright]
  omega

theorem Adds.occurrences_eq (h : Adds pattern left n) : occurrences pattern left = n := by
  have hempty := h []
  rwa [List.append_nil, occurrences, Nat.zero_add] at hempty

/-- A pattern starts with its first character. -/
theorem adds_of_notMem {c : Char} {text : List Char} (h : c ∉ text) :
    Adds (c :: pattern) text 0 := by
  induction text with
  | nil => exact adds_nil
  | cons d text ih =>
    have hne : (c == d) = false := by
      rw [beq_eq_false_iff_ne]
      rintro rfl
      exact h List.mem_cons_self
    have hrest : Adds (c :: pattern) text 0 := ih (fun hmem => h (List.mem_cons_of_mem d hmem))
    intro rest
    rw [List.cons_append, occurrences, List.isPrefixOf, hne, Bool.false_and]
    exact hrest rest

end Adds

section None

variable {c : Char} {pattern text : List Char}

theorem occurrences_eq_zero_iff (hne : pattern ≠ []) :
    occurrences pattern text = 0 ↔ ¬ pattern <:+: text := by
  induction text with
  | nil => simpa [occurrences] using hne
  | cons d text ih =>
    rw [occurrences, List.infix_cons_iff, not_or, ← ih]
    split
    case isTrue hfirst => simp [List.isPrefixOf_iff_prefix.mp hfirst]
    case isFalse hfirst => simp [mt List.isPrefixOf_iff_prefix.mpr hfirst]

/-- A pattern that does not stand in a text does not start in it in front of a character that the
pattern lacks. -/
theorem occurrences_append_cons (hc : c ∉ pattern) (h : ¬ pattern <:+: text) (rest : List Char) :
    occurrences pattern (text ++ c :: rest) = occurrences pattern (c :: rest) := by
  induction text with
  | nil => rfl
  | cons d text ih =>
    have hlater : ¬ pattern <:+: text := fun hin => h (hin.trans (List.suffix_cons d text).isInfix)
    have hfirst : ¬ pattern <+: d :: (text ++ c :: rest) := by
      rw [← List.cons_append]
      exact fun hstart => h (prefix_of_prefix_append_cons hc hstart).isInfix
    rw [List.cons_append, occurrences, if_neg (mt List.isPrefixOf_iff_prefix.mp hfirst), ih hlater]

end None

end TreeFigure.Text
