import TreeFigure.Proofs.Tex.Escaping

/-!
Escaped text is read back. The first two characters of an escape tell what it stands for, and a
dollar sign without a backslash stands before bars in math mode. So an escaped text determines the
text, and it also tells its own end if no escape of the text starts with the character that follows.
-/

namespace TreeFigure.Tex

/-- What the escape in front stands for. -/
def firstUnescaped? : List Char → Option Char
  | '\\' :: ' ' :: _ => some '_'
  | '\\' :: 'l' :: _ => some '['
  | '\\' :: 'r' :: _ => some ']'
  | '\\' :: 't' :: _ => some '\\'
  | '\\' :: c :: _ => some c
  | text => text.head?

theorem firstUnescaped?_escapeChar (c : Char) (rest : List Char) :
    firstUnescaped? (escapeChar c ++ rest) = some c := by
  unfold escapeChar
  split
  case h_13 hbackslash =>
    rw [List.singleton_append, firstUnescaped?.eq_def]
    split <;> simp_all
  all_goals rfl

/-- The escape in front determines its character and where it ends. -/
theorem escapeChar_append_inj {c d : Char} {rest more : List Char}
    (h : escapeChar c ++ rest = escapeChar d ++ more) : c = d ∧ rest = more := by
  have hfirst := firstUnescaped?_escapeChar c rest
  rw [h, firstUnescaped?_escapeChar d more] at hfirst
  obtain rfl := Option.some.inj hfirst
  exact ⟨rfl, List.append_cancel_left h⟩

/-- Only a backslash starts an escape of another character than itself. -/
theorem eq_of_head?_escapeChar {c d : Char} (h : (escapeChar c).head? = some d)
    (hd : d ≠ '\\') : c = d := by
  unfold escapeChar at h
  split at h
  case h_13 => exact Option.some.inj h
  all_goals exact absurd (Option.some.inj h).symm hd

/-- The character ends every escape of this text: it starts neither an escape of a character of
the text nor math mode. -/
def Closes (stop : Char) (text : List Char) : Prop :=
  stop ≠ '$' ∧ ∀ c ∈ text, (escapeChar c).head? ≠ some stop

theorem Closes.tail {stop c : Char} {rest : List Char} (h : Closes stop (c :: rest)) :
    Closes stop rest :=
  ⟨h.1, fun d hd => h.2 d (List.mem_cons_of_mem c hd)⟩

theorem Closes.of_bars {stop : Char} {rest : List Char} (h : Closes stop (bars ++ rest)) :
    Closes stop rest :=
  h.tail.tail.tail

/-- A character that is escaped wherever the user writes it ends every text. -/
theorem closes_of_escaped {stop : Char} (h : (escapeChar stop).head? ≠ some stop)
    (hdollar : stop ≠ '$') (hbackslash : stop ≠ '\\') (text : List Char) : Closes stop text := by
  refine ⟨hdollar, ?_⟩
  intro c _ hhead
  obtain rfl := eq_of_head?_escapeChar hhead hbackslash
  exact h hhead

theorem closes_brace (text : List Char) : Closes '}' text :=
  closes_of_escaped (by decide) (by decide) (by decide) text

/-- A character ends every text that it does not occur in. -/
theorem closes_of_notMem {stop : Char} {text : List Char} (hdollar : stop ≠ '$')
    (hbackslash : stop ≠ '\\') (h : stop ∉ text) : Closes stop text := by
  refine ⟨hdollar, ?_⟩
  intro c hc hhead
  exact h (eq_of_head?_escapeChar hhead hbackslash ▸ hc)

theorem escapeChars_bars_append (text rest : List Char) :
    escapeChars (bars ++ text) ++ rest = '$' :: (bars ++ '$' :: (escapeChars text ++ rest)) := by
  rw [escapeChars_bars]
  simp [mathBars, bars]

theorem head?_escapeChar_append (c : Char) (rest : List Char) :
    (escapeChar c ++ rest).head? = (escapeChar c).head? := by
  obtain ⟨d, tail, hescape⟩ := List.exists_cons_of_ne_nil (escapeChar_ne_nil c)
  rw [hescape]
  rfl

/-- Only bars in math mode start with a dollar sign. -/
theorem escapeChar_append_ne_dollar (c : Char) (rest more : List Char) :
    escapeChar c ++ rest ≠ '$' :: more := by
  intro h
  have hhead : (escapeChar c).head? = some '$' := by
    rw [← head?_escapeChar_append c rest, h]
    rfl
  obtain rfl := eq_of_head?_escapeChar hhead (by decide)
  exact absurd hhead (by decide)

theorem Closes.head?_ne {stop : Char} {text : List Char} (h : Closes stop text)
    (hne : text ≠ []) (rest : List Char) : (escapeChars text ++ rest).head? ≠ some stop := by
  cases text using escape_induction with
  | nil => exact absurd rfl hne
  | bars text =>
    rw [escapeChars_bars_append, List.head?_cons]
    exact fun heq => h.1 (Option.some.inj heq).symm
  | cons c text hfirst =>
    rw [escapeChars_cons hfirst, List.append_assoc, head?_escapeChar_append]
    exact h.2 c List.mem_cons_self

/-- Escaped text determines the text and where it ends. -/
theorem escapeChars_append_inj {text other : List Char} {stop halt : Char}
    {rest more : List Char} (hstop : Closes stop other) (hhalt : Closes halt text)
    (h : escapeChars text ++ stop :: rest = escapeChars other ++ halt :: more) :
    text = other ∧ stop :: rest = halt :: more := by
  induction text using escape_induction generalizing other with
  | nil =>
    rw [escapeChars_nil, List.nil_append] at h
    by_cases hnil : other = []
    · subst hnil
      exact ⟨rfl, h⟩
    · exact absurd (h ▸ rfl) (hstop.head?_ne hnil (halt :: more))
  | bars text ih =>
    cases other using escape_induction with
    | nil => exact absurd (h ▸ rfl) (hhalt.head?_ne (by simp [Tex.bars]) (stop :: rest))
    | bars other =>
      rw [escapeChars_bars_append, escapeChars_bars_append] at h
      have hinside := List.append_cancel_left (List.cons.inj h).2
      obtain ⟨rfl, hrest⟩ := ih hstop.of_bars hhalt.of_bars (List.cons.inj hinside).2
      exact ⟨rfl, hrest⟩
    | cons d other hother =>
      rw [escapeChars_bars_append, escapeChars_cons hother, List.append_assoc] at h
      exact absurd h.symm (escapeChar_append_ne_dollar d _ _)
  | cons c text htext ih =>
    cases other using escape_induction with
    | nil => exact absurd (h ▸ rfl) (hhalt.head?_ne (List.cons_ne_nil c text) (stop :: rest))
    | bars other =>
      rw [escapeChars_bars_append, escapeChars_cons htext, List.append_assoc] at h
      exact absurd h (escapeChar_append_ne_dollar c _ _)
    | cons d other hother =>
      rw [escapeChars_cons htext, escapeChars_cons hother, List.append_assoc,
        List.append_assoc] at h
      obtain ⟨rfl, hafter⟩ := escapeChar_append_inj h
      obtain ⟨rfl, hrest⟩ := ih hstop.tail hhalt.tail hafter
      exact ⟨rfl, hrest⟩

/-- A group around escaped text determines the text. -/
theorem group_escapeChars_append_inj {text other rest more : List Char}
    (h : group (escapeChars text) ++ rest = group (escapeChars other) ++ more) :
    text = other ∧ rest = more := by
  have hbody : escapeChars text ++ '}' :: rest = escapeChars other ++ '}' :: more := by
    simpa [group] using h
  obtain ⟨htext, hrest⟩ := escapeChars_append_inj (closes_brace other) (closes_brace text) hbody
  exact ⟨htext, (List.cons.inj hrest).2⟩

/-- No escaped text starts like the edge of a named node. -/
theorem escapeChars_append_ne_edge {text : List Char} (hne : text ≠ []) (rest more : List Char) :
    escapeChars text ++ rest ≠ '\\' :: 'e' :: more := by
  intro h
  cases text using escape_induction with
  | nil => exact hne rfl
  | bars text =>
    rw [escapeChars_bars_append] at h
    exact absurd (List.cons.inj h).1 (by decide)
  | cons c text hfirst =>
    rw [escapeChars_cons hfirst, List.append_assoc] at h
    have hread := firstUnescaped?_escapeChar c (escapeChars text ++ rest)
    rw [h] at hread
    obtain rfl : 'e' = c := Option.some.inj hread
    exact absurd (List.cons.inj h).1 (by decide)

end TreeFigure.Tex
