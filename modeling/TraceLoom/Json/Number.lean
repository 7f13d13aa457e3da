import TraceLoom.Json.Basic
import TraceLoom.Numeric.Decimal

/-!
JSON numbers.  A number without fraction and exponent stays a whole number while it fits 64 bits;
any other is its significand, rounded to a double, scaled by one power of ten.  A number too large
for a double is an error.
-/

namespace TraceLoom.Json

open TraceLoom.Numeric

/-- The largest significand that is kept exactly. -/
def significandBound : Nat := Nat.pow 2 64 - 1

/-- Takes digits into a significand until it would pass the bound; also counts the digits taken
and those left out. -/
def takeDigits : Nat → Nat → List Char → Nat × Nat × Nat
  | significand, taken, [] => (significand, taken, 0)
  | significand, taken, c :: rest =>
    let next := significand * 10 + (c.toNat - '0'.toNat)
    if next > significandBound then (significand, taken, rest.length + 1)
    else takeDigits next (taken + 1) rest

private def powerOfTen (n : Nat) : Float :=
  Binary64.nearest false (Nat.pow 10 n) 1

/-- `significand * 10 ^ exponent` in one multiplication or division; small numbers first take
steps of `10 ^ 308`, `fuel` many at most. -/
def scale : Nat → Float → Int → Option Float
  | fuel, x, exponent =>
    if exponent.natAbs ≤ 308 then
      if exponent ≥ 0 then
        let y := x * powerOfTen exponent.natAbs
        if y.isInf then none else some y
      else some (x / powerOfTen exponent.natAbs)
    else if x == 0.0 then some x
    else if exponent ≥ 0 then none
    else
      match fuel with
      | 0 => some 0.0
      | fuel + 1 => scale fuel (x / powerOfTen 308) (exponent + 308)

/-- The number with the given sign, digits before and after the point, and exponent digits with
their sign.  Exponents beyond 32 bits stand for zero or for a number that is too large. -/
def ofNumberParts (negative : Bool) (whole : List Char) (fraction : Option (List Char))
    (exponent : Option (Bool × List Char)) : Option Json :=
  let (significand, _, dropped) := takeDigits 0 0 whole
  match fraction, exponent with
  | none, none =>
    if dropped = 0 ∧ ¬ negative then some (.integer significand)
    else if dropped = 0 ∧ 0 < significand ∧ significand ≤ Nat.pow 2 63 then
      some (.integer (-(significand : Int)))
    else finish negative significand dropped
  | _, _ =>
    let (significand, shifted, _) := takeDigits significand 0 (fraction.getD [])
    let base : Int := (dropped : Int) - shifted
    match exponent with
    | none => finish negative significand base
    | some (below, digits) =>
      let power := Decimal.ofDigits digits
      if power > 2147483647 then
        if significand ≠ 0 ∧ ¬ below then none
        else some (.number (if negative then -0.0 else 0.0))
      else
        let total := if below then base - power else base + power
        finish negative significand (max (-2147483648) (min 2147483647 total))
where
  finish (negative : Bool) (significand : Nat) (exponent : Int) : Option Json :=
    (scale 8 (Binary64.ofNat significand) exponent).map fun x =>
      .number (if negative then -x else x)

end TraceLoom.Json
