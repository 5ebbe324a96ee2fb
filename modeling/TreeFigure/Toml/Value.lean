/-!
TOML values in two stages. An expression is a value as it is written. A value has its tables put
together from dotted keys and headers, and a table remembers how it came about, because that
decides what may still be added to it. Numbers with a fraction and dates are recognised, but no
setting takes one, so what they stand for is not kept.
-/

namespace TreeFigure.Toml

/-- A key with the keys of the tables around it, the outermost first. -/
structure KeyPath where
  around : List String
  key : String
  deriving Inhabited, DecidableEq, Repr

inductive Expr where
  | text (value : String)
  | integer (value : Int)
  | float
  | date
  | boolean (value : Bool)
  | array (items : List Expr)
  | inline (entries : List (KeyPath × Expr))
  deriving Inhabited, Repr

/-- How a table came about: from its own header, from the header of an inner table, from a
dotted key, or in braces. -/
inductive Origin where
  | header
  | implied
  | dotted
  | inline
  deriving DecidableEq, Repr

/-- An array of tables has the newest table first. -/
inductive Value where
  | text (value : String)
  | integer (value : Int)
  | float
  | date
  | boolean (value : Bool)
  | array (items : List Value)
  | table (origin : Origin) (entries : List (String × Value))
  | tables (newest : List (String × Value)) (older : List (List (String × Value)))
  deriving Inhabited, Repr

abbrev Table := List (String × Value)

/-- What a line of a TOML text says. -/
inductive Statement where
  | assign (path : KeyPath) (value : Expr)
  | header (path : KeyPath)
  | arrayHeader (path : KeyPath)
  deriving Inhabited, Repr

end TreeFigure.Toml
