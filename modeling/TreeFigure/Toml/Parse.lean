import TreeFigure.Toml.Number
import TreeFigure.Toml.Table

/-!
Reading a TOML text. The text is read into statements, one for each line that says something, and
the statements are put together into a table. Any fault makes the whole text unreadable.
-/

namespace TreeFigure.Toml

namespace Scan

/-- What is left after a fixed word, if the text starts with it. -/
def word (expected text : List Char) : Option (List Char) :=
  if expected.isPrefixOf text then some (text.drop expected.length) else none

mutual

/-- A value; arrays and inline tables may still be nested `depth` deep in it. Every step uses up
one unit of `fuel`. -/
def expr : (fuel depth : Nat) → List Char → Option (Expr × List Char)
  | 0, _, _ => none
  | fuel + 1, depth, text =>
    match text with
    | [] => none
    | c :: rest =>
      if c = '\x22' ∨ c = '\x27' then
        (quoted text).map fun (value, rest) => (.text (String.ofList value), rest)
      else if c = '[' then
        match depth with
        | 0 => none
        | depth + 1 =>
          (items fuel depth (skipLines false rest)).map fun (found, rest) =>
            (.array found, rest)
      else if c = '\x7b' then
        match depth with
        | 0 => none
        | depth + 1 =>
          (inlineTable fuel depth (skipGap rest)).map fun (found, rest) =>
            (.inline found, rest)
      else if c = 't' then (word "true".toList text).map fun rest => (.boolean true, rest)
      else if c = 'f' then (word "false".toList text).map fun rest => (.boolean false, rest)
      else number text

/-- The items of an array up to its closing bracket; a comma may follow the last one. -/
def items : (fuel depth : Nat) → List Char → Option (List Expr × List Char)
  | 0, _, _ => none
  | fuel + 1, depth, text =>
    match text with
    | ']' :: rest => some ([], rest)
    | _ => do
      let (item, rest) ← expr fuel depth text
      match skipLines false rest with
      | ',' :: rest => do
        let (more, rest) ← items fuel depth (skipLines false rest)
        some (item :: more, rest)
      | ']' :: rest => some ([item], rest)
      | _ => none

/-- The entries of a table in braces, which may be empty. -/
def inlineTable : (fuel depth : Nat) → List Char → Option (List (KeyPath × Expr) × List Char)
  | 0, _, _ => none
  | fuel + 1, depth, text =>
    match text with
    | '\x7d' :: rest => some ([], rest)
    | _ => entries fuel depth text

/-- The entries of a table in braces up to the closing brace. -/
def entries : (fuel depth : Nat) → List Char → Option (List (KeyPath × Expr) × List Char)
  | 0, _, _ => none
  | fuel + 1, depth, text => do
    let (path, rest) ← keyPath text
    let (value, rest) ← expr fuel depth (skipGap (← mark '=' rest))
    match skipGap rest with
    | ',' :: rest => do
      let (more, rest) ← entries fuel depth rest
      some ((path, value) :: more, rest)
    | '\x7d' :: rest => some ([(path, value)], rest)
    | _ => none

end

/-- A line that is not empty. -/
def statement (text : List Char) : Option (Statement × List Char) :=
  match text with
  | '[' :: '[' :: rest => do
    let (path, rest) ← keyPath rest
    let rest ← endLine? (← mark ']' (← mark ']' rest))
    some (.arrayHeader path, rest)
  | '[' :: rest => do
    let (path, rest) ← keyPath rest
    let rest ← endLine? (← mark ']' rest)
    some (.header path, rest)
  | _ => do
    let (path, rest) ← keyPath text
    let rest ← mark '=' rest
    let (value, rest) ← expr (2 * rest.length + 2) (nesting - 1) (skipGap rest)
    let rest ← endLine? rest
    some (.assign path value, rest)

/-- The statements of a text; every line uses up one unit of `fuel`. -/
def statements : (fuel : Nat) → List Char → Option (List Statement)
  | 0, _ => none
  | fuel + 1, text =>
    match skipGap text with
    | [] => some []
    | c :: rest =>
      if c = '#' ∨ c = '\n' ∨ c = '\r' then do
        let next ← endLine? (c :: rest)
        statements fuel next
      else do
        let (first, next) ← statement (c :: rest)
        let more ← statements fuel next
        some (first :: more)

/-- A byte order mark at the start of a text is not part of it. -/
def skipOrderMark : List Char → List Char
  | '\ufeff' :: rest => rest
  | text => text

end Scan

/-- The table that a TOML text describes. -/
def Table.parse? (text : String) : Option Table := do
  let chars := Scan.skipOrderMark text.toList
  let statements ← Scan.statements (chars.length + 1) chars
  Table.ofStatements? statements

end TreeFigure.Toml
