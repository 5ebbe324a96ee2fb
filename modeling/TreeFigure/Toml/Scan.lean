import TreeFigure.Text.Numeral
import TreeFigure.Toml.Value

/-!
The small parts of TOML: blanks and comments, strings, keys and numbers. Each reader takes the
text that is left and gives what it read with what is left then, or nothing if the text does not
start with such a part.
-/

namespace TreeFigure.Toml

/-- What a reader gives: its result and the rest of the text. -/
abbrev Scanned (α : Type) := Option (α × List Char)

namespace Scan

/-- Blanks inside a line. -/
def isGap (c : Char) : Bool :=
  c == ' ' || c == '\t'

def skipGap (text : List Char) : List Char :=
  text.dropWhile isGap

/-- Control characters other than the tab stand nowhere in a TOML text, except at line ends. -/
def isPlain (c : Char) : Bool :=
  c == '\t' || (' ' ≤ c && c != '\x7f')

/-- What is left after a line end. -/
def lineEnd? : List Char → Option (List Char)
  | '\n' :: rest => some rest
  | '\r' :: '\n' :: rest => some rest
  | _ => none

/-- What is left after a comment, if one starts here. -/
def skipComment : List Char → List Char
  | '#' :: rest => rest.dropWhile isPlain
  | text => text

/-- What is left of a text after the end of a line, which may have a comment. -/
def endLine? (text : List Char) : Option (List Char) :=
  match skipComment (skipGap text) with
  | [] => some []
  | rest => lineEnd? rest

/-- Skips blanks, line ends and comments. -/
def skipLines (inComment : Bool) : List Char → List Char
  | [] => []
  | '\n' :: rest => skipLines false rest
  | '\r' :: '\n' :: rest => skipLines false rest
  | c :: rest =>
    if inComment then
      if isPlain c then skipLines true rest else c :: rest
    else if isGap c then skipLines false rest
    else if c = '#' then skipLines true rest
    else c :: rest

/-- Value of a hexadecimal digit. -/
def hexDigit? (c : Char) : Option Nat :=
  if '0' ≤ c && c ≤ '9' then some (c.toNat - 48)
  else if 'a' ≤ c && c ≤ 'f' then some (c.toNat - 87)
  else if 'A' ≤ c && c ≤ 'F' then some (c.toNat - 55)
  else none

/-- The character with a code point in hexadecimal digits. -/
def scalar? (digits : List Char) : Option Char := do
  let code ← digits.foldlM (fun value c => (hexDigit? c).map (value * 16 + ·)) 0
  if code.isValidChar then some (Char.ofNat code) else none

/-- The character that a backslash and a letter stand for. -/
def shortEscape? (c : Char) : Option Char :=
  match c with
  | 'b' => some '\x08'
  | 't' => some '\t'
  | 'n' => some '\n'
  | 'f' => some '\x0c'
  | 'r' => some '\r'
  | '\x22' => some '\x22'
  | '\\' => some '\\'
  | _ => none

/-- Puts a character in front of what a reader reads. -/
def before (c : Char) : Scanned (List Char) → Scanned (List Char) :=
  Option.map fun (text, rest) => (c :: text, rest)

/-- The inside of a string in double quotes. -/
def basicBody : List Char → Scanned (List Char)
  | '\x22' :: rest => some ([], rest)
  | '\\' :: 'u' :: a :: b :: c :: d :: rest =>
    match scalar? [a, b, c, d] with
    | some x => before x (basicBody rest)
    | none => none
  | '\\' :: 'U' :: a :: b :: c :: d :: e :: f :: g :: i :: rest =>
    match scalar? [a, b, c, d, e, f, g, i] with
    | some x => before x (basicBody rest)
    | none => none
  | '\\' :: c :: rest =>
    match shortEscape? c with
    | some x => before x (basicBody rest)
    | none => none
  | c :: rest => if c != '\\' && isPlain c then before c (basicBody rest) else none
  | [] => none

/-- The inside of a string in single quotes. -/
def literalBody : List Char → Scanned (List Char)
  | '\x27' :: rest => some ([], rest)
  | c :: rest => if isPlain c then before c (literalBody rest) else none
  | [] => none

/-- Whether nothing but blanks stands before the end of the line. -/
def endsLine (text : List Char) : Bool :=
  (lineEnd? (skipGap text)).isSome

/-- The inside of a string in three double quotes. One or two quotes before the closing ones belong
to the text. A backslash at the end of a line continues the line at the next visible character, and
up to it blanks and line ends are skipped. -/
def longBasicBody : (skipping : Bool) → List Char → Scanned (List Char)
  | _, '\x22' :: '\x22' :: '\x22' :: '\x22' :: '\x22' :: rest => some (['\x22', '\x22'], rest)
  | _, '\x22' :: '\x22' :: '\x22' :: '\x22' :: rest => some (['\x22'], rest)
  | _, '\x22' :: '\x22' :: '\x22' :: rest => some ([], rest)
  | skipping, '\r' :: '\n' :: rest =>
    if skipping then longBasicBody true rest else before '\n' (longBasicBody false rest)
  | _, '\\' :: 'u' :: a :: b :: c :: d :: rest =>
    match scalar? [a, b, c, d] with
    | some x => before x (longBasicBody false rest)
    | none => none
  | _, '\\' :: 'U' :: a :: b :: c :: d :: e :: f :: g :: i :: rest =>
    match scalar? [a, b, c, d, e, f, g, i] with
    | some x => before x (longBasicBody false rest)
    | none => none
  | _, '\\' :: c :: rest =>
    if endsLine (c :: rest) then longBasicBody true (c :: rest)
    else
      match shortEscape? c with
      | some x => before x (longBasicBody false rest)
      | none => none
  | skipping, c :: rest =>
    if skipping && (isGap c || c == '\n') then longBasicBody true rest
    else if c != '\\' && (c == '\n' || isPlain c) then before c (longBasicBody false rest)
    else none
  | _, [] => none

/-- The inside of a string in three single quotes. One or two quotes before the closing ones belong
to the text. -/
def longLiteralBody : List Char → Scanned (List Char)
  | '\x27' :: '\x27' :: '\x27' :: '\x27' :: '\x27' :: rest => some (['\x27', '\x27'], rest)
  | '\x27' :: '\x27' :: '\x27' :: '\x27' :: rest => some (['\x27'], rest)
  | '\x27' :: '\x27' :: '\x27' :: rest => some ([], rest)
  | '\r' :: '\n' :: rest => before '\n' (longLiteralBody rest)
  | c :: rest => if c == '\n' || isPlain c then before c (longLiteralBody rest) else none
  | [] => none

/-- A line end right after the opening quotes of a long string is not part of it. -/
def skipFirstLineEnd (text : List Char) : List Char :=
  (lineEnd? text).getD text

/-- A string in any of the four kinds of quotes. -/
def quoted : List Char → Scanned (List Char)
  | '\x22' :: '\x22' :: '\x22' :: rest => longBasicBody false (skipFirstLineEnd rest)
  | '\x22' :: rest => basicBody rest
  | '\x27' :: '\x27' :: '\x27' :: rest => longLiteralBody (skipFirstLineEnd rest)
  | '\x27' :: rest => literalBody rest
  | _ => none

def isBareKey (c : Char) : Bool :=
  c.isAlphanum || c == '_' || c == '-'

/-- A key without dots: bare, or a string on one line. -/
def simpleKey : List Char → Scanned String
  | '\x22' :: rest => (basicBody rest).map fun (key, rest) => (String.ofList key, rest)
  | '\x27' :: rest => (literalBody rest).map fun (key, rest) => (String.ofList key, rest)
  | text =>
    let key := text.takeWhile isBareKey
    if key.isEmpty then none else some (String.ofList key, text.dropWhile isBareKey)

/-- Keys and values may be nested less deep than this. -/
def nesting : Nat := 80

/-- Keys with dots between them, at most `limit` of them, and blanks around each. -/
def dottedKeys : (limit : Nat) → List Char → Option ((String × List String) × List Char)
  | 0, _ => none
  | limit + 1, text => do
    let (key, rest) ← simpleKey (skipGap text)
    match skipGap rest with
    | '.' :: rest => do
      let ((next, more), rest) ← dottedKeys limit rest
      some ((key, next :: more), rest)
    | rest => some ((key, []), rest)

/-- The key path of an entry or a header. -/
def keyPath (text : List Char) : Scanned KeyPath :=
  (dottedKeys (nesting - 1) text).map fun ((first, more), rest) =>
    (⟨(first :: more).dropLast, (first :: more).getLast (List.cons_ne_nil first more)⟩, rest)

end Scan

end TreeFigure.Toml
