import TraceLoom.Value.Equality
import TraceLoom.Value.Text

/-!
What the operators of the script language do with values.
-/

namespace TraceLoom

open Numeric Script

namespace Value

/-- How two values are ordered: whether the first is smaller, equal, or greater.  Texts are
ordered by code points, all others as numbers, of which not-a-number is in no order. -/
def order : Value → Value → Bool × Bool × Bool
  | string a, string b => (decide (a < b), a == b, decide (b < a))
  | v, w =>
    let x := v.toNumber
    let y := w.toNumber
    (decide (x < y), x == y, decide (y < x))

end Value

namespace Store

/-- The value of a binary operator.  The logical operators choose one of their operands. -/
def binary (s : Store) (op : BinaryOp) (v w : Value) : Value :=
  match op with
  | .add =>
    match v, w with
    | .string a, w => .string (a ++ s.text w)
    | v, .string b => .string (s.text v ++ b)
    | v, w => .number (v.toNumber + w.toNumber)
  | .sub => .number (v.toNumber - w.toNumber)
  | .mul => .number (v.toNumber * w.toNumber)
  | .div => .number (v.toNumber / w.toNumber)
  | .mod => .number (Binary64.remainder v.toNumber w.toNumber)
  | .strictEq => .boolean (v.strictEquals w)
  | .strictNe => .boolean !(v.strictEquals w)
  | .looseEq => .boolean (v.looseEquals w)
  | .looseNe => .boolean !(v.looseEquals w)
  | .lt => .boolean (v.order w).1
  | .gt => .boolean (v.order w).2.2
  | .le => .boolean ((v.order w).1 || (v.order w).2.1)
  | .ge => .boolean ((v.order w).2.2 || (v.order w).2.1)
  | .and => if v.isTruthy then w else v
  | .or => if v.isTruthy then v else w

end Store

/-- The value of an operator before its operand. -/
def Value.unary (op : UnaryOp) (v : Value) : Value :=
  match op with
  | .not => .boolean !v.isTruthy
  | .neg => .number (-v.toNumber)
  | .plus => .number v.toNumber
  | .typeof => .string v.typeName
  | .void => .undefined

end TraceLoom
