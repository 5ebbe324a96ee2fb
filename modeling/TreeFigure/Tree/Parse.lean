import TreeFigure.Tree.Basic
import TreeFigure.Tree.Token

/-!
Reading one tree from its bracketed notation. The brackets that are open at a moment form a stack
of frames, each with its label and the subtrees found so far. A fault tells where reading stopped,
as a byte offset, and why.
-/

namespace TreeFigure

namespace Tree

/-- Why a text is not the notation of one tree. -/
inductive Fault.Cause where
  | secondTree
  | strayClosing
  | leafOutside
  | unclosed (count : Nat)
  | missing
  | reserved
  deriving DecidableEq, Repr

structure Fault where
  cause : Fault.Cause
  offset : Nat
  deriving DecidableEq, Repr

def Fault.Cause.message : Fault.Cause → String
  | .secondTree => "expected end of input"
  | .strayClosing => "unexpected ')'"
  | .leafOutside => "expected '(' before leaf"
  | .unclosed count => "expected ')' (" ++ toString count ++ " bracket(s) left open)"
  | .missing => "expected '('"
  | .reserved => "reserved private-use character"

/-- An open bracket: its label and its subtrees so far, the newest first. -/
structure Frame where
  label : String
  newest : List Tree
  deriving DecidableEq, Repr

namespace Frame

def push (frame : Frame) (tree : Tree) : Frame :=
  { frame with newest := tree :: frame.newest }

/-- The node that a frame becomes when its bracket is closed. -/
def close (frame : Frame) : Tree :=
  .node frame.label frame.newest.reverse

end Frame

/-- How far reading has come: the open brackets, the innermost first, and the finished tree. -/
structure Progress where
  frames : List Frame
  done : Option Tree
  deriving DecidableEq, Repr

namespace Progress

def start : Progress := ⟨[], none⟩

/-- Reads one token. -/
def step (progress : Progress) : Token → Except Fault.Cause Progress
  | .opening _ label =>
    match progress.done with
    | some _ => .error .secondTree
    | none => .ok { progress with frames := ⟨String.ofList label, []⟩ :: progress.frames }
  | .closing =>
    match progress.frames with
    | [] => .error .strayClosing
    | [frame] => .ok ⟨[], some frame.close⟩
    | frame :: outer :: rest => .ok { progress with frames := outer.push frame.close :: rest }
  | .word text =>
    match progress.frames with
    | [] => .error .leafOutside
    | frame :: rest =>
      .ok { progress with frames := frame.push (.leaf (String.ofList text)) :: rest }

/-- Reads tokens up to the first one that does not fit. -/
def run (progress : Progress) : List Token.Placed → Except Fault Progress
  | [] => .ok progress
  | placed :: rest =>
    match progress.step placed.token with
    | .error cause => .error ⟨cause, placed.offset⟩
    | .ok next => next.run rest

/-- The tree that has been read when the text ends at byte offset `size`. -/
def finish (progress : Progress) (size : Nat) : Except Fault Tree :=
  if progress.frames.isEmpty then
    match progress.done with
    | some tree => .ok tree
    | none => .error ⟨.missing, size⟩
  else .error ⟨.unclosed progress.frames.length, size⟩

end Progress

/-- Reads exactly one tree from a run of signs. -/
def ofSigns? (signs : List Sign) : Except Fault Tree := do
  let progress ← Progress.start.run (Token.ofSigns 0 signs)
  progress.finish (Sign.sizes signs)

/-- Reads exactly one tree from a text. -/
def parse (text : String) : Except Fault Tree :=
  ofSigns? (Sign.scan text.toList)

end Tree

end TreeFigure
