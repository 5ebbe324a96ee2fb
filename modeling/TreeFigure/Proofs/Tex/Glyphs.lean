import TreeFigure.Tex

/-!
Reading TeX. A text is read from left to right as characters and escapes, an escape being a
backslash with the character after it. Delimiters, math shifts and characters with a meaning of
their own count only outside escapes.
-/

namespace TreeFigure.Tex

inductive Glyph where
  | plain (c : Char)
  | escaped (c : Char)
  deriving DecidableEq, Repr

def glyphs : List Char → List Glyph
  | [] => []
  | '\\' :: c :: rest => .escaped c :: glyphs rest
  | c :: rest => .plain c :: glyphs rest

/-- The delimiters that are still to be closed after a glyph, the innermost first, if the glyph
closes none but the innermost. -/
def nest? (expected : List Char) : Glyph → Option (List Char)
  | .escaped _ => some expected
  | .plain c =>
    if c = '{' then some ('}' :: expected)
    else if c = '[' then some (']' :: expected)
    else if c = '}' ∨ c = ']' then
      if expected.head? = some c then some expected.tail else none
    else some expected

/-- Braces and brackets nest in each other, and all of them are closed. -/
def Nested (read : List Glyph) : Prop :=
  read.foldlM nest? [] = some []

/-- One digit or more. -/
def IsDigits (text : List Char) : Prop :=
  text ≠ [] ∧ ∀ c ∈ text, c.isDigit = true

/-- The text of a number without a sign. -/
inductive Numeral : List Char → Prop
  | whole {digits : List Char} (h : IsDigits digits) : Numeral digits
  | point {digits places : List Char} (h : IsDigits digits) (hplaces : IsDigits places) :
      Numeral (digits ++ '.' :: places)

/-- What is set in math mode: three bars, or a place between two nodes of one row. -/
inductive MathBody : List Char → Prop
  | bars : MathBody bars
  | place {first last : String} {fraction : List Char}
      (hrow : first = "s0" ∧ last = "s1" ∨ first = "p0" ∧ last = "p1")
      (hfraction : Numeral fraction) :
      MathBody ('(' :: first.toList ++ ")!".toList ++ fraction ++ "!(".toList ++ last.toList ++
        [')'])

/-- Dollar signs come in pairs, each around something that is set in math mode. -/
inductive MathPaired : List Glyph → Prop
  | nil : MathPaired []
  | other {glyph : Glyph} {rest : List Glyph} (h : glyph ≠ .plain '$') (hrest : MathPaired rest) :
      MathPaired (glyph :: rest)
  | pair {body : List Char} {rest : List Glyph} (h : MathBody body) (hrest : MathPaired rest) :
      MathPaired (.plain '$' :: (body.map .plain ++ .plain '$' :: rest))

/-- Characters that TeX reads as markup and that no document here uses as such. -/
def reserved : List Char := ['%', '#', '&', '_', '^', '~']

/-- Characters that have a meaning of their own. -/
def special : List Char := ['\\', '{', '}', '[', ']', '$'] ++ reserved

def isPlain (c : Char) : Bool :=
  !special.contains c

/-- The arguments of a control word: at each place where it stands before an opening brace, what
follows the brace up to the next closing brace. -/
def arguments (word : List Char) : List Char → List (List Char)
  | [] => []
  | c :: rest =>
    if ('\\' :: word ++ ['{']).isPrefixOf (c :: rest) then
      (rest.drop (word.length + 1)).takeWhile (· != '}') :: arguments word rest
    else arguments word rest

/-- Well-formed TeX, as far as delimiters and reserved characters go. -/
structure WellFormed (text : List Char) : Prop where
  nested : Nested (glyphs text)
  /-- A bracket is never escaped, so all brackets of the text nest. -/
  brackets : ∀ c ∈ ['[', ']'], .escaped c ∉ glyphs text
  unreserved : ∀ c ∈ reserved, .plain c ∉ glyphs text
  math : MathPaired (glyphs text)

theorem isDigits_toDigits (n : Nat) : IsDigits (Nat.toDigits 10 n) := by
  refine ⟨Nat.toDigits_ne_nil, ?_⟩
  intro c hc
  exact Nat.isDigit_of_mem_toDigits (by omega) (by omega) hc

theorem IsDigits.replicate_append {text : List Char} (h : IsDigits text) (count : Nat) :
    IsDigits (List.replicate count '0' ++ text) := by
  refine ⟨fun hnil => h.1 (List.append_eq_nil_iff.mp hnil).2, ?_⟩
  intro c hc
  rcases List.mem_append.mp hc with hzero | htext
  · rw [List.eq_of_mem_replicate hzero]
    rfl
  · exact h.2 c htext

theorem glyphs_cons {c : Char} (h : c ≠ '\\') (rest : List Char) :
    glyphs (c :: rest) = .plain c :: glyphs rest := by
  rw [glyphs]
  intro d tail hc
  exact absurd hc h

theorem glyphs_of_notMem {text : List Char} (h : '\\' ∉ text) (rest : List Char) :
    glyphs (text ++ rest) = text.map .plain ++ glyphs rest := by
  induction text with
  | nil => rfl
  | cons c text ih =>
    rw [List.mem_cons, not_or] at h
    rw [List.cons_append, glyphs_cons (Ne.symm h.1), ih h.2, List.map_cons, List.cons_append]

theorem MathPaired.append {left right : List Glyph} (hleft : MathPaired left)
    (hright : MathPaired right) : MathPaired (left ++ right) := by
  induction hleft with
  | nil => exact hright
  | other h _ ih => exact .other h ih
  | @pair body rest h _ ih =>
    have hpair := MathPaired.pair h ih
    simpa using hpair

theorem arguments_cons_of_ne {word : List Char} {c : Char} (h : c ≠ '\\') (rest : List Char) :
    arguments word (c :: rest) = arguments word rest := by
  have hstart : ¬ '\\' :: word ++ ['{'] <+: c :: rest := by
    rw [List.cons_append, List.cons_prefix_cons]
    rintro ⟨hfirst, -⟩
    exact h hfirst.symm
  rw [arguments, Text.isPrefixOf_eq_false hstart]
  rfl

theorem arguments_of_notMem {word text : List Char} (h : '\\' ∉ text) (rest : List Char) :
    arguments word (text ++ rest) = arguments word rest := by
  induction text with
  | nil => rfl
  | cons c text ih =>
    rw [List.mem_cons, not_or] at h
    rw [List.cons_append, arguments_cons_of_ne (Ne.symm h.1), ih h.2]

end TreeFigure.Tex
