import TreeFigure.Tree.Parse

/-!
Which runs of tokens are the notation of a tree, and that reading finds exactly these. What a
reader has taken in so far is described by `Reached`: the open brackets, each with the notation of
its subtrees, or one finished tree. Each step keeps this description, so a run keeps it. Where the
tokens start does not matter here.
-/

namespace TreeFigure.Tree

open Token (Placed)

mutual

/-- These tokens are the notation of the tree. -/
inductive TreeTokens : List Placed → Tree → Prop
  | node {start stop : Nat} {gap label : List Char} {inner : List Placed} {children : Forest}
      (hinner : ForestTokens inner children) :
      TreeTokens (⟨start, .opening gap label⟩ :: inner ++ [⟨stop, .closing⟩])
        (.node (String.ofList label) children)

/-- These tokens are leaves and trees side by side. -/
inductive ForestTokens : List Placed → Forest → Prop
  | nil : ForestTokens [] []
  | leaf {start : Nat} {word : List Char} {rest : List Placed} {trees : Forest}
      (hrest : ForestTokens rest trees) :
      ForestTokens (⟨start, .word word⟩ :: rest) (.leaf (String.ofList word) :: trees)
  | tree {first rest : List Placed} {tree : Tree} {trees : Forest}
      (hfirst : TreeTokens first tree) (hrest : ForestTokens rest trees) :
      ForestTokens (first ++ rest) (tree :: trees)

end

theorem ForestTokens.append {left right : List Placed} {trees more : Forest}
    (hleft : ForestTokens left trees) (hright : ForestTokens right more) :
    ForestTokens (left ++ right) (trees ++ more) := by
  induction trees generalizing left with
  | nil =>
    cases hleft with
    | nil => exact hright
  | cons tree trees ih =>
    cases hleft with
    | leaf hrest => exact .leaf (ih hrest)
    | tree hfirst hrest =>
      rw [List.append_assoc]
      exact .tree hfirst (ih hrest)

theorem ForestTokens.singleton {tokens : List Placed} {tree : Tree}
    (h : TreeTokens tokens tree) : ForestTokens tokens [tree] := by
  have hforest := ForestTokens.tree h .nil
  rwa [List.append_nil] at hforest

/-- The tokens read so far open these brackets, the innermost first. -/
inductive Opened : List Placed → List Frame → Prop
  | outside : Opened [] []
  | inside {start : Nat} {gap label : List Char} {before inner : List Placed}
      {outer : List Frame} {children : Forest} (hbefore : Opened before outer)
      (hinner : ForestTokens inner children) :
      Opened (before ++ ⟨start, .opening gap label⟩ :: inner)
        (⟨String.ofList label, children.reverse⟩ :: outer)

/-- The tokens read so far lead to this progress. -/
inductive Reached : List Placed → Progress → Prop
  | reading {read : List Placed} {frames : List Frame} (h : Opened read frames) :
      Reached read ⟨frames, none⟩
  | finished {read : List Placed} {tree : Tree} (h : TreeTokens read tree) :
      Reached read ⟨[], some tree⟩

/-- A subtree that ends the tokens read so far goes to the innermost bracket. -/
theorem Opened.push {read last : List Placed} {frame : Frame} {outer : List Frame} {tree : Tree}
    (h : Opened read (frame :: outer)) (hlast : ForestTokens last [tree]) :
    Opened (read ++ last) (frame.push tree :: outer) := by
  cases h with
  | @inside start gap label before inner _ children hbefore hinner =>
    have hframe : Frame.push ⟨String.ofList label, children.reverse⟩ tree =
        ⟨String.ofList label, (children ++ [tree]).reverse⟩ := by
      simp [Frame.push]
    rw [hframe, List.append_assoc]
    exact .inside hbefore (hinner.append hlast)

/-- A closing bracket makes a subtree of the tokens since the innermost opening bracket. -/
theorem Opened.close {read : List Placed} {frame : Frame} {outer : List Frame} (stop : Nat)
    (h : Opened read (frame :: outer)) :
    ∃ before last, read ++ [⟨stop, .closing⟩] = before ++ last ∧ Opened before outer ∧
      TreeTokens last frame.close := by
  cases h with
  | @inside start gap label before inner _ children hbefore hinner =>
    refine ⟨before, ⟨start, .opening gap label⟩ :: inner ++ [⟨stop, .closing⟩], ?_, hbefore, ?_⟩
    · simp
    · have hclose : Frame.close ⟨String.ofList label, children.reverse⟩ =
          .node (String.ofList label) children := by
        simp [Frame.close]
      rw [hclose]
      exact .node hinner

/-- One step keeps the description of what was read. -/
theorem Reached.step {read : List Placed} {progress next : Progress} {placed : Placed}
    (h : Reached read progress) (hstep : progress.step placed.token = .ok next) :
    Reached (read ++ [placed]) next := by
  obtain ⟨start, token⟩ := placed
  cases h with
  | finished => cases token <;> simp [Progress.step] at hstep
  | @reading frames hopened =>
    cases token with
    | opening gap label =>
      simp only [Progress.step, Except.ok.injEq] at hstep
      subst hstep
      exact .reading (.inside hopened .nil)
    | word text =>
      cases frames with
      | nil => simp [Progress.step] at hstep
      | cons frame outer =>
        simp only [Progress.step, Except.ok.injEq] at hstep
        subst hstep
        exact .reading (hopened.push (.leaf .nil))
    | closing =>
      cases frames with
      | nil => simp [Progress.step] at hstep
      | cons frame outer =>
        obtain ⟨before, last, hread, hbefore, hlast⟩ := hopened.close start
        rw [hread]
        cases outer with
        | nil =>
          simp only [Progress.step, Except.ok.injEq] at hstep
          subst hstep
          cases hbefore with
          | outside => exact .finished hlast
        | cons enclosing rest =>
          simp only [Progress.step, Except.ok.injEq] at hstep
          subst hstep
          exact .reading (hbefore.push (.singleton hlast))

theorem Reached.run {read placed : List Placed} {progress next : Progress}
    (h : Reached read progress) (hrun : progress.run placed = .ok next) :
    Reached (read ++ placed) next := by
  induction placed generalizing read progress with
  | nil =>
    simp only [Progress.run, Except.ok.injEq] at hrun
    rwa [List.append_nil, ← hrun]
  | cons first rest ih =>
    rw [Progress.run] at hrun
    split at hrun
    case h_1 => simp at hrun
    case h_2 middle hstep =>
      have hrest := ih (h.step hstep) hrun
      rwa [List.append_assoc, List.singleton_append] at hrest

/-- Progress after a whole subtree: it goes to the innermost bracket, or reading is done. -/
def Progress.after (tree : Tree) : List Frame → Progress
  | [] => ⟨[], some tree⟩
  | frame :: outer => ⟨frame.push tree :: outer, none⟩

theorem Progress.step_closing (frame : Frame) (outer : List Frame) :
    Progress.step ⟨frame :: outer, none⟩ .closing = .ok (Progress.after frame.close outer) := by
  cases outer <;> rfl

mutual

/-- Reading the notation of a tree yields the tree. -/
theorem TreeTokens.run {tokens : List Placed} {tree : Tree} (h : TreeTokens tokens tree)
    (frames : List Frame) (rest : List Placed) :
    Progress.run ⟨frames, none⟩ (tokens ++ rest) = (Progress.after tree frames).run rest := by
  cases h with
  | @node start stop gap label inner children hinner =>
    have hforest := hinner.run ⟨String.ofList label, []⟩ frames (⟨stop, .closing⟩ :: rest)
    rw [List.append_assoc, List.cons_append, Progress.run]
    simp only [Progress.step, List.singleton_append]
    rw [hforest, Progress.run, Progress.step_closing]
    simp [Frame.close]

/-- Reading subtrees side by side puts them into the innermost bracket. -/
theorem ForestTokens.run {tokens : List Placed} {trees : Forest} (h : ForestTokens tokens trees)
    (frame : Frame) (outer : List Frame) (rest : List Placed) :
    Progress.run ⟨frame :: outer, none⟩ (tokens ++ rest) =
      Progress.run ⟨⟨frame.label, trees.reverse ++ frame.newest⟩ :: outer, none⟩ rest := by
  cases h with
  | nil => rfl
  | leaf hrest =>
    rw [List.cons_append, Progress.run]
    simp only [Progress.step]
    rw [hrest.run]
    simp [Frame.push]
  | tree hfirst hrest =>
    rw [List.append_assoc, hfirst.run, Progress.after, hrest.run]
    simp [Frame.push]

end

/-- A reader accepts exactly the notation of one tree. -/
theorem run_finish_eq_ok_iff (placed : List Placed) (size : Nat) (tree : Tree) :
    (do (← Progress.start.run placed).finish size) = Except.ok tree ↔
      TreeTokens placed tree := by
  constructor
  · intro h
    cases hrun : Progress.start.run placed with
    | error fault => rw [hrun] at h; cases h
    | ok progress =>
      have hreached := Reached.run (.reading .outside) hrun
      rw [hrun] at h
      change progress.finish size = .ok tree at h
      cases hreached with
      | @reading frames hopened =>
        cases frames <;> simp [Progress.finish] at h
      | finished htree =>
        simp only [Progress.finish, List.isEmpty_nil, if_true, Except.ok.injEq] at h
        exact h ▸ htree
  · intro h
    have hrun := h.run [] []
    rw [List.append_nil] at hrun
    change (Progress.start.run placed >>= fun progress => progress.finish size) = _
    rw [Progress.start, hrun]
    rfl

/-- A text is read as a tree exactly if its tokens are the notation of that tree. -/
theorem parse_eq_ok_iff_treeTokens (text : String) (tree : Tree) :
    parse text = .ok tree ↔
      TreeTokens (Token.ofSigns 0 (Sign.scan text.toList)) tree :=
  run_finish_eq_ok_iff _ _ tree

end TreeFigure.Tree
