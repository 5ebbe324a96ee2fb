import TreeFigure.Settings.Environment
import TreeFigure.Text.Alphanumeric

/-!
Expanding a path. A reference to a variable is a dollar sign and a name, which may stand in braces
and then have a default. Two dollar signs are one, and a dollar sign before anything else is
itself. If one reference has neither a value nor a default, the path stays as it is. A tilde at the
start of the path is the home directory.
-/

namespace TreeFigure

namespace Expansion

/-- A part of a path: text to keep, or a reference. -/
inductive Part where
  | plain (text : List Char)
  | reference (name : List Char) (fallback : Option (List Char))
  deriving DecidableEq, Repr

def isNameChar (c : Char) : Bool :=
  Text.isAlphanumeric c || c == '_'

/-- The reference that the inside of a pair of braces makes. A default needs a name before it. -/
def braced (inside : List Char) : Part :=
  match Text.cut? ":-".toList inside with
  | some (name, fallback) =>
    if name.isEmpty then .reference inside none else .reference name (some fallback)
  | none => .reference inside none

/-- The parts of a path in order. -/
def parts : List Char → List Part
  | [] => []
  | '$' :: '$' :: rest => .plain ['$'] :: parts rest
  | '$' :: '\x7b' :: rest =>
    if rest.contains '\x7d' then
      braced (rest.takeWhile (· != '\x7d')) :: parts ((rest.dropWhile (· != '\x7d')).drop 1)
    else .plain ['$', '\x7b'] :: parts rest
  | c :: rest =>
    if c = '$' then
      if (rest.takeWhile isNameChar).isEmpty then .plain ['$'] :: parts rest
      else .reference (rest.takeWhile isNameChar) none :: parts (rest.dropWhile isNameChar)
    else .plain [c] :: parts rest
termination_by text => text.length
decreasing_by
  · simp only [List.length_cons]; omega
  · have := (List.dropWhile_suffix (l := rest) (· != '\x7d')).length_le
    simp only [List.length_cons, List.length_drop]
    omega
  · simp only [List.length_cons]; omega
  · simp
  · have := (List.dropWhile_suffix (l := rest) isNameChar).length_le
    simp only [List.length_cons]
    omega
  · simp

/-- What a part stands for; nothing if it refers to a variable that is not set and has no
default. -/
def Part.value? (environment : Environment) : Part → Option (List Char)
  | .plain text => some text
  | .reference name fallback =>
    match environment.get? (String.ofList name) with
    | some value => some value.toList
    | none => fallback

/-- The text with its references replaced, if each of them stands for something. -/
def substitute? (environment : Environment) (text : List Char) : Option (List Char) :=
  ((parts text).mapM (Part.value? environment)).map List.flatten

/-- The text with the home directory in place of a tilde that stands alone or before a slash. -/
def expandHome (environment : Environment) (text : List Char) : List Char :=
  match text with
  | '~' :: rest =>
    if rest.isEmpty ∨ rest.head? = some '/' then
      match environment.home? with
      | some home => home.toList ++ rest
      | none => text
    else text
  | _ => text

end Expansion

/-- The path with its references and its tilde expanded. A tilde that comes from a value is not
expanded. -/
def Environment.expand (environment : Environment) (path : String) : String :=
  match Expansion.substitute? environment path.toList with
  | none => path
  | some text =>
    if path.toList.head? = some '~' then
      String.ofList (Expansion.expandHome environment text)
    else String.ofList text

end TreeFigure
