import TreeFigure.Toml.Scan

/-!
Numbers and dates in TOML. Digits may have single underscores between them, a decimal number has
no leading zero, and an integer has at most 64 bits with its sign. A number is tried as a date or a
time first, then with a fraction or an exponent, then as an integer.
-/

namespace TreeFigure.Toml

namespace Scan

/-- More digits, each with at most one underscore before it. -/
def moreDigits (isDigit : Char → Bool) : List Char → List Char × List Char
  | '_' :: c :: rest =>
    if isDigit c then
      let (digits, rest) := moreDigits isDigit rest
      (c :: digits, rest)
    else ([], '_' :: c :: rest)
  | c :: rest =>
    if isDigit c then
      let (digits, rest) := moreDigits isDigit rest
      (c :: digits, rest)
    else ([], c :: rest)
  | [] => ([], [])

/-- One or more digits. -/
def digitRun (isDigit : Char → Bool) : List Char → Scanned (List Char)
  | c :: rest =>
    if isDigit c then
      let (digits, rest) := moreDigits isDigit rest
      some (c :: digits, rest)
    else none
  | [] => none

/-- The digits of a decimal number without a leading zero. -/
def decimalRun : List Char → Scanned (List Char)
  | '0' :: rest => some (['0'], rest)
  | text => digitRun Char.isDigit text

/-- Whether a minus sign stands here, and what is left after a sign. -/
def sign : List Char → Bool × List Char
  | '-' :: rest => (true, rest)
  | '+' :: rest => (false, rest)
  | text => (false, text)

/-- Value of digits in a base. -/
def valueOf (base : Nat) (digits : List Char) : Nat :=
  digits.foldl (fun value c => value * base + (hexDigit? c).getD 0) 0

/-- An integer if it has at most 64 bits with its sign. -/
def checkedInteger (negative : Bool) (magnitude : Nat) : Option Int :=
  if negative then
    if magnitude ≤ Text.signedBound then some (-(magnitude : Int)) else none
  else if magnitude < Text.signedBound then some (magnitude : Int) else none

def basedInteger (base : Nat) (isDigit : Char → Bool) (text : List Char) :
    Option (Int × List Char) := do
  let (digits, rest) ← digitRun isDigit text
  let value ← checkedInteger false (valueOf base digits)
  some (value, rest)

/-- An integer, in base ten or with the mark of another base. -/
def integer : List Char → Option (Int × List Char)
  | '0' :: 'x' :: rest => basedInteger 16 (fun c => (hexDigit? c).isSome) rest
  | '0' :: 'o' :: rest => basedInteger 8 (fun c => '0' ≤ c && c ≤ '7') rest
  | '0' :: 'b' :: rest => basedInteger 2 (fun c => c == '0' || c == '1') rest
  | text => do
    let (negative, rest) := sign text
    let (digits, rest) ← decimalRun rest
    let value ← checkedInteger negative (valueOf 10 digits)
    some (value, rest)

/-- The digits after a point, if one stands here. -/
def fractionPart : List Char → Option (List Char × List Char)
  | '.' :: rest => digitRun Char.isDigit rest
  | text => some ([], text)

/-- The exponent with its sign, if one stands here. -/
def exponentPart : List Char → Option (Option Int × List Char)
  | c :: rest =>
    if c = 'e' ∨ c = 'E' then do
      let (negative, rest) := sign rest
      let (digits, rest) ← digitRun Char.isDigit rest
      let magnitude := valueOf 10 digits
      some (some (if negative then -(magnitude : Int) else magnitude), rest)
    else some (none, c :: rest)
  | [] => some (none, [])

/-- The decimal `digits * 10 ^ exponent` is nearer to infinity than to a double. The bound lies
half-way between the greatest double and the next power of two. -/
def overflows (digits : Nat) (exponent : Int) : Bool :=
  let magnitude := (Nat.toDigits 10 digits).length + exponent
  if digits = 0 ∨ magnitude < 308 then false
  else if 310 < magnitude then true
  else
    Nat.pow 2 1024 - Nat.pow 2 970 ≤
      digits * Nat.pow 10 exponent.toNat / Nat.pow 10 (-exponent).toNat

/-- What is left after a number with a fraction or an exponent. A positive one must not be
too great for a double. -/
def float (text : List Char) : Option (List Char) := do
  let (negative, rest) := sign text
  match rest with
  | 'i' :: 'n' :: 'f' :: rest => some rest
  | 'n' :: 'a' :: 'n' :: rest => some rest
  | _ => do
    let (whole, afterWhole) ← decimalRun rest
    let (fraction, afterFraction) ← fractionPart afterWhole
    let (exponent, rest) ← exponentPart afterFraction
    if fraction.isEmpty && exponent.isNone then none
    else if !negative && overflows (valueOf 10 (whole ++ fraction))
        (exponent.getD 0 - fraction.length) then none
    else some rest

/-- A number of exactly `count` digits, from `low` to `high`. -/
def field (count low high : Nat) (text : List Char) : Option (Nat × List Char) :=
  let digits := text.take count
  let value := valueOf 10 digits
  if digits.length = count ∧ digits.all Char.isDigit ∧ low ≤ value ∧ value ≤ high then
    some (value, text.drop count)
  else none

/-- What is left after one given character. -/
def mark (c : Char) : List Char → Option (List Char)
  | x :: rest => if x = c then some rest else none
  | [] => none

def isLeapYear (year : Nat) : Bool :=
  year % 4 == 0 && (year % 100 != 0 || year % 400 == 0)

def daysIn (year month : Nat) : Nat :=
  if month = 2 then if isLeapYear year then 29 else 28
  else if month = 4 ∨ month = 6 ∨ month = 9 ∨ month = 11 then 30
  else 31

/-- What is left after a calendar day. -/
def day (text : List Char) : Option (List Char) := do
  let (year, rest) ← field 4 0 9999 text
  let (month, rest) ← field 2 1 12 (← mark '-' rest)
  let (_, rest) ← field 2 1 (daysIn year month) (← mark '-' rest)
  some rest

/-- What is left after a time of day. -/
def timeOfDay (text : List Char) : Option (List Char) := do
  let (_, rest) ← field 2 0 23 text
  let (_, rest) ← field 2 0 59 (← mark ':' rest)
  let (_, rest) ← field 2 0 60 (← mark ':' rest)
  match rest with
  | '.' :: c :: more =>
    if c.isDigit then some (more.dropWhile Char.isDigit) else none
  | '.' :: [] => none
  | _ => some rest

/-- What is left after the distance of a time zone, if one stands here. -/
def zone (text : List Char) : Option (List Char) :=
  match text with
  | 'Z' :: rest | 'z' :: rest => some rest
  | c :: rest =>
    if c = '+' ∨ c = '-' then do
      let (_, rest) ← field 2 0 23 rest
      let (_, rest) ← field 2 0 59 (← mark ':' rest)
      some rest
    else some text
  | [] => some []

/-- What is left after a day, with a time if one follows. -/
def dayAndTime (text : List Char) : Option (List Char) := do
  let rest ← day text
  match rest with
  | c :: more =>
    if c = 'T' ∨ c = 't' ∨ c = ' ' then
      match timeOfDay more with
      | some rest => zone rest
      | none => some rest
    else some rest
  | [] => some []

/-- What is left after a date or a time. -/
def date (text : List Char) : Option (List Char) :=
  match dayAndTime text with
  | some rest => some rest
  | none => timeOfDay text

/-- A number or a date. -/
def number (text : List Char) : Option (Expr × List Char) :=
  match date text with
  | some rest => some (.date, rest)
  | none =>
    match float text with
    | some rest => some (.float, rest)
    | none => (integer text).map fun (value, rest) => (.integer value, rest)

end Scan

end TreeFigure.Toml
