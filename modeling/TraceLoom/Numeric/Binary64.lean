/-!
Double-precision numbers as exact rationals.  A finite double is a sign and a magnitude
`significand * 2 ^ exponent`; `nearest` goes the other way and rounds a quotient of natural
numbers to the closest double, a half going to the even significand.
-/

namespace TraceLoom.Numeric

/-- The number `significand * 2 ^ exponent`, with `significand < 2 ^ 53`. -/
structure Magnitude where
  significand : Nat
  exponent : Int
  deriving Repr, DecidableEq

namespace Magnitude

/-- The magnitude as a quotient of natural numbers. -/
def ratio (m : Magnitude) : Nat × Nat :=
  (m.significand * Nat.pow 2 m.exponent.toNat, Nat.pow 2 (-m.exponent).toNat)

end Magnitude

namespace Binary64

/-- The sign bit, set for `-0` as well. -/
def isNegative (x : Float) : Bool :=
  x.toBits >>> 63 == 1

/-- The magnitude of a finite double; `none` for infinities and not-a-number. -/
def magnitude? (x : Float) : Option Magnitude :=
  let bits : Nat := x.toBits.toNat
  let biased : Nat := bits / Nat.pow 2 52 % Nat.pow 2 11
  let fraction : Nat := bits % Nat.pow 2 52
  if biased = 2047 then none
  else if biased = 0 then some ⟨fraction, -1074⟩
  else some ⟨Nat.pow 2 52 + fraction, (biased : Int) - 1075⟩

/-- The bit pattern of the double closest to `num / den`, without a sign.  The exponent is
chosen so that the quotient has 53 bits, or is the least exponent there is; a carry out of the
rounded significand moves into the exponent field by itself. -/
def nearestBits (num den : Nat) : Nat :=
  if num = 0 then 0
  else
    let guess : Int := max (-1074) ((num.log2 : Int) - den.log2 - 53)
    let scaled (q : Int) : Nat × Nat := (num * Nat.pow 2 (-q).toNat, den * Nat.pow 2 q.toNat)
    let q := if (scaled guess).1 / (scaled guess).2 < Nat.pow 2 53 then guess else guess + 1
    let (n, d) := scaled q
    let floor := n / d
    let rest := n % d
    let up := 2 * rest > d || (2 * rest == d && floor % 2 == 1)
    let significand := if up then floor + 1 else floor
    if significand < Nat.pow 2 52 then significand
    else min (2047 * Nat.pow 2 52) ((q + 1075).toNat * Nat.pow 2 52 + (significand - Nat.pow 2 52))

/-- The double closest to `num / den`, with the given sign. -/
def nearest (negative : Bool) (num den : Nat) : Float :=
  Float.ofBits (UInt64.ofNat (nearestBits num den + if negative then Nat.pow 2 63 else 0))

def ofNat (n : Nat) : Float :=
  nearest false n 1

def ofInt (n : Int) : Float :=
  nearest (n < 0) n.natAbs 1

def infinity : Float :=
  Float.ofBits 0x7FF0000000000000

def negInfinity : Float :=
  Float.ofBits 0xFFF0000000000000

def nan : Float :=
  Float.ofBits 0x7FF8000000000000

/-- The integer that a double is; `none` for all others, infinities and not-a-number. -/
def whole? (x : Float) : Option Int :=
  (magnitude? x).bind fun m =>
    let (num, den) := m.ratio
    if num % den = 0 then
      let n : Int := (num / den : Nat)
      some (if isNegative x then -n else n)
    else none

/-- The remainder of an exact division that truncates: it has the sign of the dividend and is
smaller than the divisor.  An infinite divisor leaves a finite dividend alone. -/
def remainder (x y : Float) : Float :=
  match magnitude? x, magnitude? y with
  | some a, some b =>
    if b.significand = 0 then nan
    else
      let q := min a.exponent b.exponent
      let m := a.significand * Nat.pow 2 (a.exponent - q).toNat
      let n := b.significand * Nat.pow 2 (b.exponent - q).toNat
      let r : Nat × Nat := ((m % n) * Nat.pow 2 q.toNat, Nat.pow 2 (-q).toNat)
      nearest (isNegative x) r.1 r.2
  | some _, none => if y.isNaN then nan else x
  | none, _ => nan

/-- One code for all doubles that compare equal, and one for not-a-number: the bits, after both
zeros and all not-a-number patterns are made one. -/
def code (x : Float) : UInt64 :=
  if x.toBits <<< 1 == 0 then 0
  else if x.toBits <<< 1 > 0xFFE0000000000000 then 0x7FF8000000000000
  else x.toBits

/-- Equality of numbers where both zeros are one number and not-a-number equals itself. -/
def same (x y : Float) : Bool :=
  code x == code y

theorem same_refl (x : Float) : same x x = true := by
  simp [same]

theorem same_comm (x y : Float) : same x y = same y x := by
  simp [same, Bool.beq_comm]

theorem same_trans {x y z : Float} (hxy : same x y = true) (hyz : same y z = true) :
    same x z = true := by
  simp only [same, beq_iff_eq] at *
  exact hxy.trans hyz

end Binary64

end TraceLoom.Numeric
