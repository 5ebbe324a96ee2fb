import TreeFigure.Proofs.Tex.Glyphs
import TreeFigure.Proofs.Text.Runs

/-!
The parts that documents are put together from. Each kind of part is well formed on its own, and
nothing that stands next to it changes how it is read. A fragment also tells which bracket pairs
and environments it holds, in order.
-/

namespace TreeFigure.Tex

/-- What is counted in a fragment. -/
inductive Event where
  | brackets
  | environment (word argument : List Char)
  deriving DecidableEq, Repr

/-- The argument of a control word. -/
def Event.argument? (word : List Char) : Event → Option (List Char)
  | .brackets => none
  | .environment other argument => if other = word then some argument else none

/-- The control words that open and close environments. -/
def begins : List Char := "begin".toList

def ends : List Char := "end".toList

/-- Characters that are not escaped: brackets, the backslash, and the first letters of the words
that open and close environments. -/
def unescaped : List Char := ['b', 'e', '[', ']', '\\']

/-- A part of a document with its events. The words for environments stand only with their argument,
and `\edge` is the one other control word that starts like one of them. -/
inductive Fragment : List Event → List Char → Prop
  | nil : Fragment [] []
  | append {first second : List Event} {left right : List Char} (hleft : Fragment first left)
      (hright : Fragment second right) : Fragment (first ++ second) (left ++ right)
  | plain {c : Char} (h : isPlain c = true) : Fragment [] [c]
  | escaped {c : Char} (h : c ∉ unescaped) : Fragment [] ['\\', c]
  | edge : Fragment [] "\\edge".toList
  | group {events : List Event} {body : List Char} (h : Fragment events body) :
      Fragment events (group body)
  | brackets {events : List Event} {body : List Char} (h : Fragment events body) :
      Fragment (.brackets :: events) ('[' :: body ++ [']'])
  | math {body : List Char} (h : MathBody body) : Fragment [] ('$' :: body ++ ['$'])
  | environment {word argument : List Char} (hword : word = begins ∨ word = ends)
      (hargument : argument.all isPlain = true) :
      Fragment [.environment word argument] ('\\' :: word ++ Tex.group argument)

/-- How a fragment is read: delimiters stand around what they enclose. -/
inductive Tidy : List Glyph → Prop
  | nil : Tidy []
  | append {left right : List Glyph} (hleft : Tidy left) (hright : Tidy right) :
      Tidy (left ++ right)
  | plain {c : Char} (h : isPlain c = true) : Tidy [.plain c]
  | escaped {c : Char} (h : c ∉ ['[', ']']) : Tidy [.escaped c]
  | group {body : List Glyph} (h : Tidy body) : Tidy (.plain '{' :: (body ++ [.plain '}']))
  | brackets {body : List Glyph} (h : Tidy body) : Tidy (.plain '[' :: (body ++ [.plain ']']))
  | math {body : List Char} (h : MathBody body) :
      Tidy (.plain '$' :: (body.map .plain ++ [.plain '$']))

theorem isPlain_eq_true_iff {c : Char} : isPlain c = true ↔ c ∉ special := by
  simp [isPlain]

theorem notMem_of_all_isPlain {text : List Char} (h : text.all isPlain = true) {c : Char}
    (hc : c ∈ special) : c ∉ text := by
  intro hmem
  exact isPlain_eq_true_iff.mp (List.all_eq_true.mp h c hmem) hc

theorem IsDigits.all_isPlain {text : List Char} (h : IsDigits text) :
    text.all isPlain = true := by
  rw [List.all_eq_true]
  intro c hc
  rw [isPlain_eq_true_iff]
  intro hspecial
  have hother : special.all (fun d => !d.isDigit) = true := rfl
  have hnot := List.all_eq_true.mp hother c hspecial
  rw [h.2 c hc] at hnot
  cases hnot

theorem Numeral.all_isPlain {text : List Char} (h : Numeral text) :
    text.all isPlain = true := by
  cases h with
  | whole h => exact h.all_isPlain
  | point h hplaces =>
    have hpoint : isPlain '.' = true := rfl
    rw [List.all_append, List.all_cons, h.all_isPlain, hpoint, hplaces.all_isPlain]
    rfl

theorem MathBody.all_isPlain {body : List Char} (h : MathBody body) :
    body.all isPlain = true := by
  cases h with
  | bars => decide
  | @place first last fraction hrow hfraction =>
    have hfirst : ('(' :: first.toList).all isPlain = true := by
      rcases hrow with ⟨rfl, rfl⟩ | ⟨rfl, rfl⟩ <;> decide
    have hlast : (last.toList ++ [')']).all isPlain = true := by
      rcases hrow with ⟨rfl, rfl⟩ | ⟨rfl, rfl⟩ <;> decide
    have hopening : ")!".toList.all isPlain = true := rfl
    have hclosing : "!(".toList.all isPlain = true := rfl
    rw [List.append_assoc _ last.toList, List.all_append, List.all_append, List.all_append,
      List.all_append, hfirst, hopening, hfraction.all_isPlain, hclosing, hlast]
    rfl

theorem Fragment.run {text : List Char} (h : text.all isPlain = true) : Fragment [] text := by
  induction text with
  | nil => exact .nil
  | cons c text ih =>
    rw [List.all_cons, Bool.and_eq_true] at h
    exact .append (.plain h.1) (ih h.2)

theorem Fragment.space : Fragment [] [' '] :=
  .plain rfl

theorem Fragment.line : Fragment [] ['\n'] :=
  .plain rfl

theorem Tidy.run {text : List Char} (h : text.all isPlain = true) : Tidy (text.map .plain) := by
  induction text with
  | nil => exact .nil
  | cons c text ih =>
    rw [List.all_cons, Bool.and_eq_true] at h
    exact .append (.plain h.1) (ih h.2)

/-- An escape and plain characters after it. -/
def isControl : List Char → Bool
  | '\\' :: c :: rest => !unescaped.contains c && rest.all isPlain
  | _ => false

theorem Fragment.control {text : List Char} (h : isControl text = true) : Fragment [] text := by
  unfold isControl at h
  split at h
  case h_1 c rest =>
    rw [Bool.and_eq_true] at h
    have hc : c ∉ unescaped := by simpa using h.1
    exact .append (.escaped hc) (.run h.2)
  case h_2 => cases h

theorem Fragment.append_quiet {events : List Event} {left right : List Char}
    (hleft : Fragment events left) (hright : Fragment [] right) :
    Fragment events (left ++ right) := by
  have h := hleft.append hright
  rwa [List.append_nil] at h

/-- The text is read as these glyphs, whatever follows it. -/
def ReadAs (text : List Char) (read : List Glyph) : Prop :=
  ∀ rest, glyphs (text ++ rest) = read ++ glyphs rest

namespace ReadAs

theorem glyphs_eq {text : List Char} {read : List Glyph} (h : ReadAs text read) :
    glyphs text = read := by
  have hread := h []
  rwa [List.append_nil, glyphs, List.append_nil] at hread

theorem append {left right : List Char} {first second : List Glyph} (hleft : ReadAs left first)
    (hright : ReadAs right second) : ReadAs (left ++ right) (first ++ second) := by
  intro rest
  rw [List.append_assoc, hleft, hright, List.append_assoc]

theorem escaped (c : Char) : ReadAs ['\\', c] [.escaped c] :=
  fun _ => rfl

theorem plains {text : List Char} (h : text.all isPlain = true) :
    ReadAs text (text.map .plain) :=
  glyphs_of_notMem (notMem_of_all_isPlain h (by simp [special]))

theorem delimited {opening closing : Char} {body : List Char} {read : List Glyph}
    (hopening : opening ≠ '\\') (hclosing : closing ≠ '\\') (h : ReadAs body read) :
    ReadAs (opening :: body ++ [closing]) (.plain opening :: (read ++ [.plain closing])) := by
  intro rest
  rw [List.cons_append, List.cons_append, glyphs_cons hopening, List.append_assoc, h,
    List.singleton_append, glyphs_cons hclosing]
  simp

end ReadAs

theorem begins_or_ends_eq {word : List Char} (h : word = begins ∨ word = ends) :
    ∃ c rest, word = c :: rest ∧ (c = 'b' ∨ c = 'e') ∧ rest.all isPlain = true := by
  rcases h with rfl | rfl
  · exact ⟨'b', "egin".toList, by decide, .inl rfl, by decide⟩
  · exact ⟨'e', "nd".toList, by decide, .inr rfl, by decide⟩

theorem Fragment.exists_tidy {events : List Event} {text : List Char}
    (h : Fragment events text) : ∃ read, Tidy read ∧ ReadAs text read := by
  induction h with
  | nil => exact ⟨[], .nil, fun _ => rfl⟩
  | append _ _ ihleft ihright =>
    obtain ⟨first, hfirst, hleft⟩ := ihleft
    obtain ⟨second, hsecond, hright⟩ := ihright
    exact ⟨first ++ second, .append hfirst hsecond, hleft.append hright⟩
  | @plain c h =>
    have hall : [c].all isPlain = true := by simpa using h
    exact ⟨[.plain c], .plain h, .plains hall⟩
  | @escaped c h =>
    have hbracket : c ∉ ['[', ']'] := by
      intro hmem
      apply h
      simp only [unescaped, List.mem_cons, List.not_mem_nil, or_false] at hmem ⊢
      exact .inr (.inr (hmem.imp_right .inl))
    exact ⟨[.escaped c], .escaped hbracket, .escaped c⟩
  | edge =>
    have hall : "dge".toList.all isPlain = true := rfl
    exact ⟨_, .append (.escaped (by decide)) (.run hall), .append (.escaped 'e') (.plains hall)⟩
  | group _ ih =>
    obtain ⟨read, htidy, hread⟩ := ih
    exact ⟨_, .group htidy, .delimited (by decide) (by decide) hread⟩
  | brackets _ ih =>
    obtain ⟨read, htidy, hread⟩ := ih
    exact ⟨_, .brackets htidy, .delimited (by decide) (by decide) hread⟩
  | math h => exact ⟨_, .math h, .delimited (by decide) (by decide) (.plains h.all_isPlain)⟩
  | @environment word argument hword hargument =>
    obtain ⟨c, rest, rfl, hstart, hrest⟩ := begins_or_ends_eq hword
    have hc : c ∉ ['[', ']'] := by
      rcases hstart with rfl | rfl <;> decide
    have hname : ReadAs ('\\' :: c :: rest) ([.escaped c] ++ rest.map .plain) :=
      .append (.escaped c) (.plains hrest)
    have hgroup : ReadAs (Tex.group argument)
        (.plain '{' :: (argument.map .plain ++ [.plain '}'])) :=
      .delimited (by decide) (by decide) (.plains hargument)
    exact ⟨_, .append (.append (.escaped hc) (.run hrest)) (.group (.run hargument)),
      hname.append hgroup⟩

theorem nest?_plain {c : Char} (h : isPlain c = true) (expected : List Char) :
    nest? expected (.plain c) = some expected := by
  have hc := isPlain_eq_true_iff.mp h
  simp only [special, List.mem_append, List.mem_cons, not_or] at hc
  simp [nest?, hc]

theorem foldlM_nest?_plains {text : List Char} (h : text.all isPlain = true)
    (expected : List Char) :
    (text.map Glyph.plain).foldlM nest? expected = some expected := by
  induction text with
  | nil => rfl
  | cons c text ih =>
    rw [List.all_cons, Bool.and_eq_true] at h
    rw [List.map_cons, List.foldlM_cons, nest?_plain h.1]
    exact ih h.2

/-- What is tidy leaves open what was open before it. -/
theorem Tidy.foldlM_nest? {read : List Glyph} (h : Tidy read) (expected : List Char) :
    read.foldlM nest? expected = some expected := by
  induction h generalizing expected with
  | nil => rfl
  | append _ _ ihleft ihright =>
    rw [List.foldlM_append, ihleft]
    exact ihright expected
  | plain h =>
    rw [List.foldlM_cons, nest?_plain h]
    rfl
  | escaped => rfl
  | group _ ih =>
    rw [List.foldlM_cons]
    simp [nest?, ih]
  | brackets _ ih =>
    rw [List.foldlM_cons]
    simp [nest?, ih]
  | math h =>
    have hdollar (expected : List Char) : nest? expected (.plain '$') = some expected := by
      simp [nest?]
    rw [List.foldlM_cons, hdollar, Option.bind_eq_bind, Option.bind_some, List.foldlM_append,
      foldlM_nest?_plains h.all_isPlain, Option.bind_eq_bind, Option.bind_some,
      List.foldlM_cons, hdollar]
    rfl

theorem Tidy.escaped_notMem {read : List Glyph} (h : Tidy read) {c : Char}
    (hc : c ∈ ['[', ']']) : .escaped c ∉ read := by
  induction h with
  | nil => simp
  | append _ _ ihleft ihright =>
    rw [List.mem_append, not_or]
    exact ⟨ihleft, ihright⟩
  | plain => simp
  | escaped h =>
    rw [List.mem_singleton, Glyph.escaped.injEq]
    rintro rfl
    exact h hc
  | group _ ih => simpa using ih
  | brackets _ ih => simpa using ih
  | math => simp

theorem Tidy.reserved_notMem {read : List Glyph} (h : Tidy read) {c : Char}
    (hc : c ∈ reserved) : .plain c ∉ read := by
  have hspecial : c ∈ special := List.mem_append_right _ hc
  have hdelimiter : c ≠ '{' ∧ c ≠ '}' ∧ c ≠ '[' ∧ c ≠ ']' ∧ c ≠ '$' := by
    refine ⟨?_, ?_, ?_, ?_, ?_⟩ <;> rintro rfl <;> exact absurd hc (by decide)
  induction h with
  | nil => simp
  | append _ _ ihleft ihright =>
    rw [List.mem_append, not_or]
    exact ⟨ihleft, ihright⟩
  | plain h =>
    rw [List.mem_singleton, Glyph.plain.injEq]
    rintro rfl
    exact isPlain_eq_true_iff.mp h hspecial
  | escaped => simp
  | group _ ih => simp [ih, hdelimiter]
  | brackets _ ih => simp [ih, hdelimiter]
  | math h =>
    have hbody := notMem_of_all_isPlain h.all_isPlain hspecial
    simp [hbody, hdelimiter]

theorem Tidy.mathPaired {read : List Glyph} (h : Tidy read) : MathPaired read := by
  induction h with
  | nil => exact .nil
  | append _ _ ihleft ihright => exact ihleft.append ihright
  | plain h =>
    refine .other ?_ .nil
    rw [Ne, Glyph.plain.injEq]
    rintro rfl
    exact absurd h (by decide)
  | escaped => exact .other (by simp) .nil
  | group _ ih => exact .other (by simp) (ih.append (.other (by simp) .nil))
  | brackets _ ih => exact .other (by simp) (ih.append (.other (by simp) .nil))
  | math h => exact .pair h .nil

theorem Fragment.wellFormed {events : List Event} {text : List Char}
    (h : Fragment events text) : WellFormed text := by
  obtain ⟨read, htidy, hread⟩ := h.exists_tidy
  rw [← hread.glyphs_eq] at htidy
  exact ⟨htidy.foldlM_nest? [], fun c => htidy.escaped_notMem, fun c => htidy.reserved_notMem,
    htidy.mathPaired⟩

/-! What a fragment counts. -/

/-- All square brackets of a fragment are delimiters. -/
theorem Fragment.count_bracket {events : List Event} {text : List Char}
    (h : Fragment events text) {c : Char} (hc : c = '[' ∨ c = ']') :
    text.count c = events.count .brackets := by
  have hspecial : c ∈ special := by
    rcases hc with rfl | rfl <;> decide
  have hother : c ≠ '\\' ∧ c ≠ '{' ∧ c ≠ '}' ∧ c ≠ '$' := by
    rcases hc with rfl | rfl <;> decide
  induction h with
  | nil => rfl
  | append _ _ ihleft ihright => rw [List.count_append, List.count_append, ihleft, ihright]
  | @plain d h =>
    apply List.count_eq_zero.mpr
    rw [List.mem_singleton]
    rintro rfl
    exact isPlain_eq_true_iff.mp h hspecial
  | @escaped d h =>
    apply List.count_eq_zero.mpr
    rw [List.mem_cons, List.mem_singleton, not_or]
    refine ⟨hother.1, ?_⟩
    rintro rfl
    apply h
    rcases hc with rfl | rfl <;> decide
  | edge => rcases hc with rfl | rfl <;> decide
  | group _ ih => simpa [Tex.group, hother, Ne.symm hother.2.1, Ne.symm hother.2.2.1] using ih
  | brackets _ ih => rcases hc with rfl | rfl <;> simpa using ih
  | math h =>
    apply List.count_eq_zero.mpr
    have hbody := notMem_of_all_isPlain h.all_isPlain hspecial
    simp [hbody, hother]
  | @environment word argument hword hargument =>
    have hargument := notMem_of_all_isPlain hargument hspecial
    have hname : c ∉ word := by
      rcases hword with rfl | rfl <;> rcases hc with rfl | rfl <;> decide
    apply List.count_eq_zero.mpr
    simp [Tex.group, hargument, hname, hother]

theorem arguments_environment {word argument : List Char} (hword : word = begins ∨ word = ends)
    (hargument : argument.all isPlain = true) (rest : List Char) :
    arguments word ('\\' :: word ++ Tex.group argument ++ rest) =
      argument :: arguments word rest := by
  have hstart : ('\\' :: word ++ ['{']).isPrefixOf
      ('\\' :: (word ++ (Tex.group argument ++ rest))) = true := by
    rw [List.isPrefixOf_iff_prefix]
    exact ⟨argument ++ '}' :: rest, by simp [Tex.group]⟩
  have hdrop : (word ++ (Tex.group argument ++ rest)).drop (word.length + 1) =
      argument ++ '}' :: rest := by
    simp [Tex.group, List.drop_append]
  have htake : (argument ++ '}' :: rest).takeWhile (· != '}') = argument := by
    apply Text.takeWhile_run
    · intro c hc
      rw [bne_iff_ne]
      rintro rfl
      exact notMem_of_all_isPlain hargument (by decide) hc
    · simp
  have hname : '\\' ∉ word := by
    rcases hword with rfl | rfl <;> decide
  have hgroup : '\\' ∉ Tex.group argument := by
    have hnot : '\\' ∉ argument := notMem_of_all_isPlain hargument (by decide)
    simp [Tex.group, hnot]
  rw [List.cons_append, List.cons_append, List.append_assoc, arguments, if_pos hstart, hdrop,
    htake, arguments_of_notMem hname, arguments_of_notMem hgroup]

/-- A backslash that does not start the word leaves its arguments to what follows. -/
theorem arguments_of_not_start {word text rest : List Char}
    (h : ¬ word ++ ['{'] <+: text ++ rest) (htext : '\\' ∉ text) :
    arguments word ('\\' :: text ++ rest) = arguments word rest := by
  have hstart : ¬ '\\' :: word ++ ['{'] <+: '\\' :: (text ++ rest) := by
    rw [List.cons_append, List.cons_prefix_cons]
    exact fun hall => h hall.2
  rw [List.cons_append, arguments, Text.isPrefixOf_eq_false hstart, if_neg Bool.false_ne_true,
    arguments_of_notMem htext]

/-- The arguments of `\begin` or `\end` in a fragment are those of its environments. -/
theorem Fragment.arguments_append {events : List Event} {text : List Char}
    (h : Fragment events text) {word : List Char} (hword : word = begins ∨ word = ends)
    (rest : List Char) :
    arguments word (text ++ rest) =
      events.filterMap (Event.argument? word) ++ arguments word rest := by
  obtain ⟨first, more, hcons, hfirst, hmore⟩ := begins_or_ends_eq hword
  induction h generalizing rest with
  | nil => rfl
  | append _ _ ihleft ihright =>
    rw [List.append_assoc, ihleft, ihright, List.filterMap_append, List.append_assoc]
  | @plain c h =>
    have hc : c ≠ '\\' := by
      rintro rfl
      exact absurd h (by decide)
    exact arguments_cons_of_ne hc rest
  | @escaped c h =>
    simp only [unescaped, List.mem_cons, List.not_mem_nil, or_false, not_or] at h
    have hstart : ¬ word ++ ['{'] <+: [c] ++ rest := by
      rw [hcons, List.cons_append, List.singleton_append, List.cons_prefix_cons]
      rintro ⟨rfl, -⟩
      rcases hfirst with hb | he
      · exact h.1 hb
      · exact h.2.1 he
    exact arguments_of_not_start hstart (by simpa using Ne.symm h.2.2.2.2)
  | edge =>
    have hstart : ¬ word ++ ['{'] <+: "edge".toList ++ rest := by
      rcases hword with rfl | rfl
      · intro hstart
        have hhead : 'b' = 'e' := (List.cons_prefix_cons.mp hstart).1
        exact absurd hhead (by decide)
      · intro hstart
        have htail := (List.cons_prefix_cons.mp hstart).2
        have hhead : 'n' = 'd' := (List.cons_prefix_cons.mp htail).1
        exact absurd hhead (by decide)
    exact arguments_of_not_start hstart (by decide)
  | group _ ih =>
    rw [Tex.group, List.cons_append, List.cons_append, arguments_cons_of_ne (by decide),
      List.append_assoc, ih, List.singleton_append, arguments_cons_of_ne (by decide)]
  | brackets _ ih =>
    rw [List.cons_append, List.cons_append, arguments_cons_of_ne (by decide),
      List.append_assoc, ih, List.singleton_append, arguments_cons_of_ne (by decide)]
    rfl
  | @math body h =>
    have hbody : '\\' ∉ '$' :: body ++ ['$'] := by
      have hnot : '\\' ∉ body := notMem_of_all_isPlain h.all_isPlain (by decide)
      simpa using hnot
    exact arguments_of_notMem hbody rest
  | @environment other argument hother hargument =>
    by_cases hsame : other = word
    · rw [hsame, arguments_environment hword hargument]
      simp [Event.argument?]
    · have hgroup : '\\' ∉ other ++ Tex.group argument := by
        have hnot : '\\' ∉ argument := notMem_of_all_isPlain hargument (by decide)
        have hname : '\\' ∉ other := by
          rcases hother with rfl | rfl <;> decide
        simp [Tex.group, hnot, hname]
      have hstart : ¬ word ++ ['{'] <+: other ++ Tex.group argument ++ rest := by
        intro hstart
        rcases hother with rfl | rfl <;> rcases hword with rfl | rfl
        · exact hsame rfl
        · have hhead : 'e' = 'b' := (List.cons_prefix_cons.mp hstart).1
          exact absurd hhead (by decide)
        · have hhead : 'b' = 'e' := (List.cons_prefix_cons.mp hstart).1
          exact absurd hhead (by decide)
        · exact hsame rfl
      have hskip := arguments_of_not_start hstart hgroup
      simpa [Event.argument?, hsame] using hskip

end TreeFigure.Tex
