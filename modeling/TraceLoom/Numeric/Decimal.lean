import TraceLoom.Numeric.Binary64

/-!
Decimal notation.  A `Decimal` is `coefficient * 10 ^ exponent`; this module reads it from text,
rounds it to the nearest double, and finds for a double the shortest decimal that reads back.
-/

namespace TraceLoom.Numeric

structure Decimal where
  coefficient : Nat
  exponent : Int
  deriving Repr, DecidableEq

namespace Decimal

def digits (d : Decimal) : List Char :=
  Nat.toDigits 10 d.coefficient

/-- The exponent of the first digit in scientific notation. -/
def scale (d : Decimal) : Int :=
  (d.digits.length : Int) + d.exponent - 1

/-! ## From decimals to doubles -/

/-- The closest double.  Scales far outside the range of doubles are decided before any power
of ten is taken, so that a huge exponent costs nothing. -/
def toFloat (d : Decimal) : Float :=
  if d.coefficient = 0 then 0.0
  else if d.scale > 310 then Binary64.infinity
  else if d.scale < -330 then 0.0
  else
    Binary64.nearest false (d.coefficient * Nat.pow 10 d.exponent.toNat)
      (Nat.pow 10 (-d.exponent).toNat)

/-- The value of a list of decimal digits. -/
def ofDigits (digits : List Char) : Nat :=
  digits.foldl (fun value c => value * 10 + (c.toNat - '0'.toNat)) 0

/-- The decimal written `whole.fraction` times a power of ten. -/
def ofParts (whole fraction : List Char) (power : Int) : Decimal :=
  ⟨ofDigits (whole ++ fraction), power - fraction.length⟩

/-- Digits of an exponent with an optional sign. -/
def exponent? : List Char → Option Int
  | '+' :: digits => unsigned digits
  | '-' :: digits => (unsigned digits).map (-·)
  | digits => unsigned digits
where
  unsigned (digits : List Char) : Option Int :=
    if digits.isEmpty || !digits.all Char.isDigit then none else some (ofDigits digits)

/-- Reads `12`, `12.`, `.5`, `1.5` and any of these with an exponent, such as `1e-7`. -/
def read? (text : List Char) : Option Decimal :=
  let whole := text.takeWhile Char.isDigit
  let afterWhole := text.dropWhile Char.isDigit
  let (fraction, rest) :=
    match afterWhole with
    | '.' :: more => (more.takeWhile Char.isDigit, more.dropWhile Char.isDigit)
    | _ => ([], afterWhole)
  if whole.isEmpty && fraction.isEmpty then none
  else
    match rest with
    | [] => some (ofParts whole fraction 0)
    | e :: power =>
      if e == 'e' || e == 'E' then (exponent? power).map (ofParts whole fraction) else none

/-! ## From doubles to decimals -/

/-- Which decimal a number exactly halfway between two of them becomes. -/
inductive Tie where
  /-- The one with the larger magnitude. -/
  | away
  /-- The one with the even last digit. -/
  | even
  deriving DecidableEq

/-- Moves trailing zeros of the coefficient into the exponent; `fuel` bounds their number. -/
def strip : Nat → Decimal → Decimal
  | 0, d => d
  | fuel + 1, d =>
    if d.coefficient ≠ 0 ∧ d.coefficient % 10 = 0 then
      strip fuel ⟨d.coefficient / 10, d.exponent + 1⟩
    else d

/-- The real numbers that round to a magnitude `m`: twice the quotients
`(low / den, high / den)` enclose it, the ends belonging to it when the significand is even. -/
structure Interval where
  value : Nat
  low : Nat
  high : Nat
  den : Nat
  closed : Bool

/-- Halfway to the two neighbouring doubles.  Below a power of two the neighbour is only half as
far away. -/
def Interval.around (m : Magnitude) : Interval :=
  let num := Nat.pow 2 m.exponent.toNat
  let den := Nat.pow 2 (-m.exponent).toNat
  let below := if m.significand = Nat.pow 2 52 ∧ m.exponent > -1074 then 1 else 2
  { value := 4 * m.significand * num
    low := (4 * m.significand - below) * num
    high := (4 * m.significand + 2) * num
    den := 4 * den
    closed := m.significand % 2 == 0 }

/-- Whether `coefficient * 10 ^ exponent` lies in the interval. -/
def Interval.contains (i : Interval) (d : Decimal) : Bool :=
  let n := d.coefficient * Nat.pow 10 d.exponent.toNat * i.den
  let scale := Nat.pow 10 (-d.exponent).toNat
  if i.closed then decide (i.low * scale ≤ n ∧ n ≤ i.high * scale)
  else decide (i.low * scale < n ∧ n < i.high * scale)

/-- The neighbour of the value on the grid of multiples of `10 ^ exponent` that lies in the
interval; of two such the nearer one. -/
def Interval.onGrid (i : Interval) (tie : Tie) (exponent : Int) : Option Decimal :=
  let num := i.value * Nat.pow 10 (-exponent).toNat
  let den := i.den * Nat.pow 10 exponent.toNat
  let floor := num / den
  let rest := num % den
  let down : Decimal := ⟨floor, exponent⟩
  let up : Decimal := ⟨floor + 1, exponent⟩
  match i.contains down, i.contains up with
  | false, false => none
  | true, false => some down
  | false, true => some up
  | true, true =>
    if 2 * rest < den then some down
    else if 2 * rest > den then some up
    else match tie with
      | .away => some up
      | .even => some (if floor % 2 = 0 then down else up)

/-- The exponent of the leading decimal digit of `num / den`: below one it is given by the digits
of the inverse quotient, with powers of ten as the one exception. -/
def leadingExponent (num den : Nat) : Int :=
  if num ≥ den then (Nat.toDigits 10 (num / den)).length - 1
  else
    let places := (Nat.toDigits 10 (den / num)).length
    if Nat.pow 10 (places - 1) * num = den then 1 - (places : Int) else -places

/-- The shortest decimal that rounds to a magnitude, and of those the nearest to it. -/
def shortest (tie : Tie) (m : Magnitude) : Decimal :=
  if m.significand = 0 then ⟨0, 0⟩
  else
    let i := Interval.around m
    let top := leadingExponent i.value i.den
    let grids := (List.range 18).map fun n : Nat => top - (n : Int)
    strip 400 ((grids.findSome? (i.onGrid tie)).getD ⟨0, 0⟩)

/-! ## Written forms -/

/-- The number without an exponent, and without a point when it is whole. -/
def positional (d : Decimal) : String :=
  let digits := d.digits
  if d.exponent ≥ 0 then String.ofList (digits ++ List.replicate d.exponent.toNat '0')
  else
    let places := (-d.exponent).toNat
    if places < digits.length then
      let whole := digits.length - places
      String.ofList (digits.take whole ++ '.' :: digits.drop whole)
    else
      String.ofList ('0' :: '.' :: List.replicate (places - digits.length) '0' ++ digits)

/-- One digit, a point when more follow, and a signed exponent. -/
def scientific (d : Decimal) : String :=
  let point := match d.digits with
    | [] => []
    | [c] => [c]
    | c :: more => c :: '.' :: more
  let power := d.scale
  let sign := if power < 0 then "-" else "+"
  String.ofList point ++ "e" ++ sign ++ toString power.natAbs

end Decimal

end TraceLoom.Numeric
