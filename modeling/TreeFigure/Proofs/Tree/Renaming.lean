import TreeFigure.Proofs.Text.Runs
import TreeFigure.Tree.Parse

/-!
Reading commutes with rewriting the words. Suppose the pieces of a run of signs are replaced one
by one and a function of characters undoes each replacement. Then the tokens of both runs agree up
to that function, the same trees are read up to it, and the same faults are found, each as far
moved as the pieces before it have grown.
-/

namespace TreeFigure

namespace Sign

def mapPiece (f : List Char → List Char) : Sign → Sign
  | .piece text => .piece (f text)
  | .opening => .opening
  | .closing => .closing
  | .blank c => .blank c

theorem isBlank_comp_mapPiece (f : List Char → List Char) : isBlank ∘ mapPiece f = isBlank := by
  funext sign
  cases sign <;> rfl

theorem isPiece_comp_mapPiece (f : List Char → List Char) : isPiece ∘ mapPiece f = isPiece := by
  funext sign
  cases sign <;> rfl

theorem takeWhile_isBlank_map (f : List Char → List Char) (signs : List Sign) :
    (signs.map (mapPiece f)).takeWhile isBlank = (signs.takeWhile isBlank).map (mapPiece f) := by
  rw [List.takeWhile_map, isBlank_comp_mapPiece]

theorem dropWhile_isBlank_map (f : List Char → List Char) (signs : List Sign) :
    (signs.map (mapPiece f)).dropWhile isBlank = (signs.dropWhile isBlank).map (mapPiece f) := by
  rw [List.dropWhile_map, isBlank_comp_mapPiece]

theorem takeWhile_isPiece_map (f : List Char → List Char) (signs : List Sign) :
    (signs.map (mapPiece f)).takeWhile isPiece = (signs.takeWhile isPiece).map (mapPiece f) := by
  rw [List.takeWhile_map, isPiece_comp_mapPiece]

theorem dropWhile_isPiece_map (f : List Char → List Char) (signs : List Sign) :
    (signs.map (mapPiece f)).dropWhile isPiece = (signs.dropWhile isPiece).map (mapPiece f) := by
  rw [List.dropWhile_map, isPiece_comp_mapPiece]

theorem texts_map_mapPiece_blanks (f : List Char → List Char) {signs : List Sign}
    (h : ∀ sign ∈ signs, sign.isBlank = true) :
    texts (signs.map (mapPiece f)) = texts signs := by
  induction signs with
  | nil => rfl
  | cons sign rest ih =>
    have hsign : sign.isBlank = true := h sign (by simp)
    cases sign with
    | blank c =>
      rw [List.map_cons, texts_cons, texts_cons, ih fun next hnext => h next (by simp [hnext])]
      rfl
    | opening | closing | piece => cases hsign

end Sign

/-- The function `g` undoes `f` on every piece of these signs. -/
def Sign.Undoes (g : Char → List Char) (f : List Char → List Char) (signs : List Sign) : Prop :=
  ∀ text, .piece text ∈ signs → (f text).flatMap g = text

namespace Sign.Undoes

variable {f : List Char → List Char} {g : Char → List Char} {signs : List Sign}

theorem mono {more : List Sign} (h : Undoes g f more) (hsub : signs ⊆ more) :
    Undoes g f signs :=
  fun text hmem => h text (hsub hmem)

theorem texts_pieces (h : Undoes g f signs) (hpieces : ∀ sign ∈ signs, sign.isPiece = true) :
    (texts (signs.map (mapPiece f))).flatMap g = texts signs := by
  induction signs with
  | nil => rfl
  | cons sign rest ih =>
    have hsign : sign.isPiece = true := hpieces sign (by simp)
    have hrest := ih (h.mono (List.subset_cons_self sign rest))
      fun next hnext => hpieces next (by simp [hnext])
    cases sign with
    | piece text =>
      have htext : (f text).flatMap g = text := h text (by simp)
      rw [List.map_cons, texts_cons, texts_cons, List.flatMap_append, hrest]
      simp only [mapPiece, Sign.text, htext]
    | opening | closing | blank => cases hsign

end Sign.Undoes

namespace Token

def mapText (f : List Char → List Char) : Token → Token
  | .opening gap label => .opening gap (f label)
  | .closing => .closing
  | .word text => .word (f text)

def Placed.mapText (f : List Char → List Char) (placed : Placed) : Placed :=
  { placed with token := placed.token.mapText f }

def Placed.move (f : Nat → Nat) (placed : Placed) : Placed :=
  { placed with offset := f placed.offset }

/-- The function `move` takes each place between these signs, which start at `start`, to the same
place between the replaced signs, which start at `start'`. -/
def Follows (move : Nat → Nat) (f : List Char → List Char) (start start' : Nat)
    (signs : List Sign) : Prop :=
  ∀ before after, signs = before ++ after →
    move (start + Sign.sizes before) = start' + Sign.sizes (before.map (Sign.mapPiece f))

namespace Follows

variable {move : Nat → Nat} {f : List Char → List Char} {start start' : Nat}

theorem start_eq {signs : List Sign} (h : Follows move f start start' signs) :
    move start = start' := by
  simpa [Sign.sizes] using h [] signs rfl

theorem tail (first : List Sign) {rest : List Sign}
    (h : Follows move f start start' (first ++ rest)) :
    Follows move f (start + Sign.sizes first)
      (start' + Sign.sizes (first.map (Sign.mapPiece f))) rest := by
  intro before after hrest
  have hall := h (first ++ before) after (by rw [hrest, List.append_assoc])
  rw [List.map_append, Sign.sizes_append, Sign.sizes_append] at hall
  rw [Nat.add_assoc, Nat.add_assoc, hall]

end Follows

/-- The tokens of replaced signs are the tokens of the signs, but for the replacement. -/
theorem ofSigns_mapPiece {f : List Char → List Char} {g : Char → List Char} {move : Nat → Nat}
    (start start' : Nat) (signs : List Sign) (hundo : Sign.Undoes g f signs)
    (hmove : Follows move f start start' signs) :
    (ofSigns start' (signs.map (Sign.mapPiece f))).map (Placed.mapText (List.flatMap g)) =
      (ofSigns start signs).map (Placed.move move) := by
  fun_induction ofSigns start signs generalizing start' with
  | case1 => simp [ofSigns]
  | case2 start c rest ih =>
    have hrest : Follows move f (start + Sign.size (.blank c))
        (start' + Sign.size (.blank c)) rest := hmove.tail [.blank c]
    rw [List.map_cons, Sign.mapPiece, ofSigns]
    exact ih _ (hundo.mono (List.subset_cons_self _ rest)) hrest
  | case3 start rest ih =>
    have hrest : Follows move f (start + 1) (start' + 1) rest := hmove.tail [.closing]
    rw [List.map_cons, Sign.mapPiece, ofSigns, List.map_cons, List.map_cons,
      ih _ (hundo.mono (List.subset_cons_self _ rest)) hrest]
    simp only [Placed.mapText, Placed.move, mapText, hmove.start_eq]
  | case4 start text rest tail word ih =>
    have hsplit : tail ++ rest.dropWhile Sign.isPiece = rest := List.takeWhile_append_dropWhile
    have hword : (f text ++ Sign.texts (tail.map (Sign.mapPiece f))).flatMap g = word := by
      have hpieces : ∀ sign ∈ Sign.piece text :: tail, sign.isPiece = true := by
        intro sign hmem
        rcases List.mem_cons.mp hmem with rfl | hmem
        · rfl
        · exact Text.forall_mem_takeWhile rest sign hmem
      have hsub : Sign.piece text :: tail ⊆ .piece text :: rest := by
        rw [← hsplit]
        simp
      exact (hundo.mono hsub).texts_pieces hpieces
    have hrest : Follows move f (start + Text.byteSize word) (start' +
        Text.byteSize (f text ++ Sign.texts (tail.map (Sign.mapPiece f))))
        (rest.dropWhile Sign.isPiece) := by
      have hall : Follows move f start start'
          (.piece text :: tail ++ rest.dropWhile Sign.isPiece) := by
        rw [List.cons_append, hsplit]
        exact hmove
      have hafter := hall.tail
      simp only [Sign.sizes_eq_byteSize] at hafter
      exact hafter
    have htokens := ih _ (hundo.mono fun sign hmem =>
      List.mem_cons_of_mem _ (hsplit ▸ List.mem_append_right tail hmem)) hrest
    have hfirst : Placed.mapText (List.flatMap g)
        ⟨start', .word (f text ++ Sign.texts (tail.map (Sign.mapPiece f)))⟩ =
          Placed.move move ⟨start, .word word⟩ := by
      simp only [Placed.mapText, Placed.move, mapText, hmove.start_eq, hword]
    rw [List.map_cons, Sign.mapPiece, ofSigns, Sign.takeWhile_isPiece_map,
      Sign.dropWhile_isPiece_map, List.map_cons, List.map_cons]
    exact List.cons_eq_cons.mpr ⟨hfirst, htokens⟩
  | case5 start rest gap inner label ih =>
    have hgap : gap ++ inner = rest := List.takeWhile_append_dropWhile
    have hlabel : label ++ inner.dropWhile Sign.isPiece = inner :=
      List.takeWhile_append_dropWhile
    have hsplit : gap ++ label ++ inner.dropWhile Sign.isPiece = rest := by
      rw [List.append_assoc, hlabel, hgap]
    have hblanks : Sign.texts (gap.map (Sign.mapPiece f)) = Sign.texts gap :=
      Sign.texts_map_mapPiece_blanks f (Text.forall_mem_takeWhile rest)
    have hword : (Sign.texts (label.map (Sign.mapPiece f))).flatMap g = Sign.texts label := by
      have hsub : label ⊆ .opening :: rest := by
        intro sign hmem
        have hinner : sign ∈ inner := hlabel ▸ List.mem_append_left _ hmem
        exact List.mem_cons_of_mem _ (hgap ▸ List.mem_append_right gap hinner)
      exact (hundo.mono hsub).texts_pieces (Text.forall_mem_takeWhile inner)
    have hrest : Follows move f (start + 1 + Sign.sizes gap + Sign.sizes label) (start' + 1 +
        Sign.sizes (gap.map (Sign.mapPiece f)) + Sign.sizes (label.map (Sign.mapPiece f)))
        (inner.dropWhile Sign.isPiece) := by
      have hall : Follows move f start start'
          ([.opening] ++ gap ++ label ++ inner.dropWhile Sign.isPiece) := by
        rw [List.append_assoc, List.append_assoc, ← List.append_assoc gap, hsplit]
        exact hmove
      have hafter := hall.tail
      simp only [List.map_append, Sign.sizes_append, ← Nat.add_assoc] at hafter
      exact hafter
    have htokens := ih _ (hundo.mono fun sign hmem =>
      List.mem_cons_of_mem _ (hsplit ▸ List.mem_append_right (gap ++ label) hmem)) hrest
    have hfirst : Placed.mapText (List.flatMap g)
        ⟨start', .opening (Sign.texts (gap.map (Sign.mapPiece f)))
          (Sign.texts (label.map (Sign.mapPiece f)))⟩ =
          Placed.move move ⟨start, .opening (Sign.texts gap) (Sign.texts label)⟩ := by
      simp only [Placed.mapText, Placed.move, mapText, hmove.start_eq, hblanks, hword]
    rw [List.map_cons, Sign.mapPiece, ofSigns, Sign.takeWhile_isBlank_map,
      Sign.dropWhile_isBlank_map, Sign.takeWhile_isPiece_map, Sign.dropWhile_isPiece_map,
      List.map_cons, List.map_cons]
    exact List.cons_eq_cons.mpr ⟨hfirst, htokens⟩

end Token

namespace Tree

def Frame.mapText (f : String → String) (frame : Frame) : Frame :=
  ⟨f frame.label, frame.newest.map (Tree.mapText f)⟩

def Progress.mapText (f : String → String) (progress : Progress) : Progress :=
  ⟨progress.frames.map (Frame.mapText f), progress.done.map (Tree.mapText f)⟩

def Fault.move (f : Nat → Nat) (fault : Fault) : Fault :=
  { fault with offset := f fault.offset }

section Rename

variable {f : String → String} {g : List Char → List Char}

theorem Frame.close_mapText (f : String → String) (frame : Frame) :
    (frame.mapText f).close = frame.close.mapText f := by
  simp only [Frame.close, Frame.mapText, Tree.mapText, Forest.mapText_eq_map, List.map_reverse]

theorem Frame.push_mapText (f : String → String) (frame : Frame) (tree : Tree) :
    (frame.mapText f).push (tree.mapText f) = (frame.push tree).mapText f := rfl

/-- One step of reading commutes with rewriting the texts. -/
theorem Progress.step_mapText (hfg : ∀ text, f (String.ofList text) = String.ofList (g text))
    (progress : Progress) (token : Token) :
    (progress.mapText f).step (token.mapText g) = (progress.step token).map (mapText f) := by
  obtain ⟨frames, done⟩ := progress
  cases token with
  | opening gap label =>
    cases done with
    | none =>
      simp only [Progress.mapText, Token.mapText, Progress.step, Except.map, List.map_cons,
        Frame.mapText, hfg, List.map_nil, Option.map_none]
    | some tree => rfl
  | closing =>
    cases frames with
    | nil => rfl
    | cons frame outer =>
      cases outer with
      | nil =>
        simp only [Progress.mapText, Token.mapText, Progress.step, Except.map, List.map_cons,
          List.map_nil, Option.map_some, Frame.close_mapText]
      | cons enclosing rest =>
        simp only [Progress.mapText, Token.mapText, Progress.step, Except.map, List.map_cons,
          Frame.close_mapText, Frame.push_mapText]
  | word text =>
    cases frames with
    | nil => rfl
    | cons frame outer =>
      have hleaf : Tree.leaf (String.ofList (g text)) =
          (Tree.leaf (String.ofList text)).mapText f := by
        rw [Tree.mapText, hfg]
      simp only [Progress.mapText, Token.mapText, Progress.step, Except.map, List.map_cons,
        hleaf, Frame.push_mapText]

theorem Progress.run_mapText (hfg : ∀ text, f (String.ofList text) = String.ofList (g text))
    (progress : Progress) (tokens : List Token.Placed) :
    (progress.mapText f).run (tokens.map (Token.Placed.mapText g)) =
      (progress.run tokens).map (mapText f) := by
  induction tokens generalizing progress with
  | nil => rfl
  | cons placed rest ih =>
    rw [List.map_cons, Progress.run, Progress.run]
    simp only [Token.Placed.mapText, step_mapText hfg]
    cases progress.step placed.token with
    | error cause => rfl
    | ok next => exact ih next

theorem Progress.finish_mapText (f : String → String) (progress : Progress) (size : Nat) :
    (progress.mapText f).finish size = (progress.finish size).map (Tree.mapText f) := by
  obtain ⟨frames, done⟩ := progress
  cases frames with
  | nil => cases done <;> rfl
  | cons frame outer => simp [Progress.mapText, Progress.finish, Except.map]

end Rename

theorem Progress.run_move (f : Nat → Nat) (progress : Progress) (tokens : List Token.Placed) :
    progress.run (tokens.map (Token.Placed.move f)) =
      (progress.run tokens).mapError (Fault.move f) := by
  induction tokens generalizing progress with
  | nil => rfl
  | cons placed rest ih =>
    rw [List.map_cons, Progress.run, Progress.run]
    simp only [Token.Placed.move]
    cases progress.step placed.token with
    | error cause => rfl
    | ok next => exact ih next

theorem Progress.finish_move (f : Nat → Nat) (progress : Progress) (size : Nat) :
    progress.finish (f size) = (progress.finish size).mapError (Fault.move f) := by
  obtain ⟨frames, done⟩ := progress
  cases frames with
  | nil => cases done <;> rfl
  | cons frame outer => rfl

/-- Reading replaced signs gives the same tree up to what undoes the replacement, or the same
fault at the place that corresponds to it. -/
theorem ofSigns?_mapPiece {f : List Char → List Char} {g : Char → List Char} {move : Nat → Nat}
    {rename : String → String}
    (hrename : ∀ text, rename (String.ofList text) = String.ofList (text.flatMap g))
    (signs : List Sign) (hundo : Sign.Undoes g f signs)
    (hmove : Token.Follows move f 0 0 signs) :
    (ofSigns? (signs.map (Sign.mapPiece f))).map (Tree.mapText rename) =
      (ofSigns? signs).mapError (Fault.move move) := by
  have htokens := Token.ofSigns_mapPiece 0 0 signs hundo hmove
  have hrun := Progress.run_mapText hrename Progress.start
    (Token.ofSigns 0 (signs.map (Sign.mapPiece f)))
  have hsize : move (Sign.sizes signs) = Sign.sizes (signs.map (Sign.mapPiece f)) := by
    have hall := hmove signs [] (List.append_nil signs).symm
    simpa using hall
  rw [htokens, Progress.run_move] at hrun
  change (Progress.start.run (Token.ofSigns 0 signs)).mapError (Fault.move move) = _ at hrun
  unfold ofSigns?
  cases hplain : Progress.start.run (Token.ofSigns 0 signs) with
  | error fault =>
    cases hmapped : Progress.start.run (Token.ofSigns 0 (signs.map (Sign.mapPiece f))) with
    | error other =>
      rw [hplain, hmapped] at hrun
      have hfault : fault.move move = other := Except.error.inj hrun
      change Except.error other = Except.error (fault.move move)
      rw [hfault]
    | ok progress =>
      rw [hplain, hmapped] at hrun
      cases hrun
  | ok progress =>
    cases hmapped : Progress.start.run (Token.ofSigns 0 (signs.map (Sign.mapPiece f))) with
    | error other =>
      rw [hplain, hmapped] at hrun
      cases hrun
    | ok renamed =>
      rw [hplain, hmapped] at hrun
      have hprogress : progress = renamed.mapText rename := Except.ok.inj hrun
      change (renamed.finish _).map (Tree.mapText rename) =
        (progress.finish _).mapError (Fault.move move)
      rw [← Progress.finish_mapText, ← hprogress, ← hsize, Progress.finish_move]

end Tree

end TreeFigure
