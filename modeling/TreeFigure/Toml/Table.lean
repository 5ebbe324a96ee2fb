import TreeFigure.Toml.Value

/-!
Building a TOML table from statements. A key may be given once. A table in braces is closed, a
table with a header cannot be extended by dotted keys, and a table made by dotted keys cannot be
given a header. An array of tables is entered at its newest table.
-/

namespace TreeFigure.Toml

namespace Table

def get? (table : Table) (key : String) : Option Value :=
  table.lookup key

/-- The table with the value of a key replaced, or added at the end. -/
def set (key : String) (value : Value) : Table → Table
  | [] => [(key, value)]
  | entry :: rest =>
    if entry.1 = key then (key, value) :: rest else entry :: set key value rest

/-- Adds a key that must be new. -/
def add? (table : Table) (key : String) (value : Value) : Option Table :=
  match table.get? key with
  | some _ => none
  | none => some (table ++ [(key, value)])

/-- Changes the table at the end of a path. Tables that are missing on the way are made, as
implied ones. -/
def modifyAt? (change : Table → Option Table) : List String → Table → Option Table
  | [], table => change table
  | key :: rest, table =>
    match table.get? key with
    | none => do
      let inner ← modifyAt? change rest []
      some (table.set key (.table .implied inner))
    | some (.table .inline _) => none
    | some (.table origin inner) => do
      let changed ← modifyAt? change rest inner
      some (table.set key (.table origin changed))
    | some (.tables newest older) => do
      let changed ← modifyAt? change rest newest
      some (table.set key (.tables changed older))
    | some _ => none

/-- Adds a value under a dotted key. The innermost table on the way must be made by dotted keys,
and none may have a header of its own. -/
def assign? (key : String) (value : Value) : List String → Table → Option Table
  | [], table => table.add? key value
  | step :: rest, table =>
    match table.get? step with
    | none => do
      let inner ← assign? key value rest []
      some (table.set step (.table .dotted inner))
    | some (.table .dotted inner) => do
      let changed ← assign? key value rest inner
      some (table.set step (.table .dotted changed))
    | some (.table .implied inner) =>
      if rest.isEmpty then none
      else do
        let changed ← assign? key value rest inner
        some (table.set step (.table .implied changed))
    | some (.tables newest older) =>
      if rest.isEmpty then none
      else do
        let changed ← assign? key value rest newest
        some (table.set step (.tables changed older))
    | some _ => none

/-- Gives the table under a key a header. -/
def openTable? (key : String) (table : Table) : Option Table :=
  match table.get? key with
  | none => some (table.set key (.table .header []))
  | some (.table .implied inner) => some (table.set key (.table .header inner))
  | some _ => none

/-- Starts a new table in the array under a key. -/
def openArray? (key : String) (table : Table) : Option Table :=
  match table.get? key with
  | none => some (table.set key (.tables [] []))
  | some (.tables newest older) => some (table.set key (.tables [] (newest :: older)))
  | some _ => none

end Table

mutual

/-- The value of an expression, if its inline tables give no key twice. -/
def Expr.value? : Expr → Option Value
  | .text value => some (.text value)
  | .integer value => some (.integer value)
  | .float => some .float
  | .date => some .date
  | .boolean value => some (.boolean value)
  | .array items => (Expr.values? items).map .array
  | .inline entries => (Expr.inlineTable? [] entries).map (.table .inline)

def Expr.values? : List Expr → Option (List Value)
  | [] => some []
  | item :: rest => do
    let value ← item.value?
    let values ← Expr.values? rest
    some (value :: values)

/-- Adds the entries of an inline table to those already found. -/
def Expr.inlineTable? (table : Table) : List (KeyPath × Expr) → Option Table
  | [] => some table
  | (path, item) :: rest => do
    let value ← item.value?
    let next ← table.assign? path.key value path.around
    Expr.inlineTable? next rest

end

/-- The table so far, and the keys that lead to the table of the last header. -/
structure Outcome where
  root : Table
  current : List String
  deriving Inhabited, Repr

namespace Outcome

def extend? (outcome : Outcome) : Statement → Option Outcome
  | .assign path item => do
    let value ← item.value?
    let root ← outcome.root.modifyAt? (·.assign? path.key value path.around) outcome.current
    some { outcome with root }
  | .header path => do
    let root ← outcome.root.modifyAt? (·.openTable? path.key) path.around
    some ⟨root, path.around ++ [path.key]⟩
  | .arrayHeader path => do
    let root ← outcome.root.modifyAt? (·.openArray? path.key) path.around
    some ⟨root, path.around ++ [path.key]⟩

end Outcome

/-- The table that a list of statements describes. -/
def Table.ofStatements? (statements : List Statement) : Option Table :=
  (statements.foldlM Outcome.extend? ⟨[], []⟩).map Outcome.root

end TreeFigure.Toml
