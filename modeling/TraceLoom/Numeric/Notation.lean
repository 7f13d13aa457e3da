import TraceLoom.Numeric.Decimal

/-!
How numbers are written and read: in scripts and traces, as the text of a script value, in JSON,
and as the numeric reading of a string.
-/

namespace TraceLoom.Numeric.Notation

open TraceLoom.Numeric

private def signed (x : Float) (text : String) : String :=
  if Binary64.isNegative x then "-" ++ text else text

def special? (x : Float) : Option String :=
  if x.isNaN then some "NaN"
  else if x.isInf then some (signed x "Infinity")
  else none

/-- The shortest digits that read back, never with an exponent. -/
def plain (x : Float) : String :=
  match Binary64.magnitude? x with
  | none => (special? x).getD ""
  | some m => signed x (Decimal.shortest .away m).positional

/-- A literal: whole numbers below `10 ^ 18` are written with all their digits, others with the
shortest digits that read back.  Neither form has an exponent, and zero has no sign. -/
def literal (x : Float) : String :=
  match special? x, Binary64.whole? x with
  | some name, _ => name
  | none, some n => if n.natAbs < Nat.pow 10 18 then toString n else plain x
  | none, none => plain x

/-- The text of a value: the shortest digits that read back, zero without a sign. -/
def value (x : Float) : String :=
  match special? x with
  | some name => name
  | none => if x == 0.0 then "0" else plain x

/-- The JSON form of a finite number.  From `0.00001` to below `10 ^ 16` it is positional with
at least one digit after the point, elsewhere scientific.  There is none for other numbers. -/
def json? (x : Float) : Option String :=
  (Binary64.magnitude? x).map fun m =>
    let d := Decimal.shortest .even m
    let text :=
      if d.coefficient = 0 then "0.0"
      else if d.scale < -5 ∨ d.scale > 15 then d.scientific
      else if d.exponent ≥ 0 then d.positional ++ ".0"
      else d.positional
    signed x text

/-- A number with an optional sign, or one of the words for infinity and not-a-number in any
case of letters. -/
def read? (text : List Char) : Option Float :=
  match text with
  | '-' :: rest => (unsigned rest).map (-·)
  | '+' :: rest => unsigned rest
  | _ => unsigned text
where
  unsigned (text : List Char) : Option Float :=
    match (Decimal.read? text).map Decimal.toFloat with
    | some x => some x
    | none =>
      let word := String.ofList (text.map Char.toLower)
      if word == "inf" || word == "infinity" then some Binary64.infinity
      else if word == "nan" then some Binary64.nan
      else none

end TraceLoom.Numeric.Notation
