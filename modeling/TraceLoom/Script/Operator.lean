/-!
Operators of the script language with their spelling, and how tightly each binary operator binds.
-/

namespace TraceLoom.Script

inductive BinaryOp where
  | add | sub | mul | div | mod
  | strictEq | strictNe | looseEq | looseNe
  | lt | gt | le | ge
  | and | or
  deriving DecidableEq, Repr, Inhabited

namespace BinaryOp

def all : List BinaryOp :=
  [add, sub, mul, div, mod, strictEq, strictNe, looseEq, looseNe, lt, gt, le, ge, and, or]

def symbol : BinaryOp → String
  | add => "+"
  | sub => "-"
  | mul => "*"
  | div => "/"
  | mod => "%"
  | strictEq => "==="
  | strictNe => "!=="
  | looseEq => "=="
  | looseNe => "!="
  | lt => "<"
  | gt => ">"
  | le => "<="
  | ge => ">="
  | and => "&&"
  | or => "||"

/-- Binding strength; an operator with a higher one takes its operands first. -/
def precedence : BinaryOp → Nat
  | or => 1
  | and => 2
  | strictEq | strictNe | looseEq | looseNe => 3
  | lt | gt | le | ge => 4
  | add | sub => 5
  | mul | div | mod => 6

/-- Whether the right operand is evaluated only when the left one does not decide. -/
def isLogical : BinaryOp → Bool
  | and | or => true
  | _ => false

def ofSymbol? (symbol : String) : Option BinaryOp :=
  all.find? fun op => op.symbol == symbol

theorem mem_all (op : BinaryOp) : op ∈ all := by
  cases op <;> decide

theorem ofSymbol?_symbol (op : BinaryOp) : ofSymbol? op.symbol = some op := by
  cases op <;> decide

end BinaryOp

inductive UnaryOp where
  | not | neg | plus | typeof | void
  deriving DecidableEq, Repr, Inhabited

namespace UnaryOp

def all : List UnaryOp :=
  [not, neg, plus, typeof, void]

def symbol : UnaryOp → String
  | not => "!"
  | neg => "-"
  | plus => "+"
  | typeof => "typeof"
  | void => "void"

def ofSymbol? (symbol : String) : Option UnaryOp :=
  all.find? fun op => op.symbol == symbol

theorem mem_all (op : UnaryOp) : op ∈ all := by
  cases op <;> decide

theorem ofSymbol?_symbol (op : UnaryOp) : ofSymbol? op.symbol = some op := by
  cases op <;> decide

end UnaryOp

inductive UpdateOp where
  | increment | decrement
  deriving DecidableEq, Repr, Inhabited

namespace UpdateOp

def symbol : UpdateOp → String
  | increment => "++"
  | decrement => "--"

/-- The binary operator an update applies to its target and one. -/
def binary : UpdateOp → BinaryOp
  | increment => .add
  | decrement => .sub

end UpdateOp

/-- Assignments: plain, or applying a binary operator to the target's value first. -/
inductive AssignOp where
  | assign | addAssign | subAssign | mulAssign | divAssign
  deriving DecidableEq, Repr, Inhabited

namespace AssignOp

def symbol : AssignOp → String
  | assign => "="
  | addAssign => "+="
  | subAssign => "-="
  | mulAssign => "*="
  | divAssign => "/="

def binary : AssignOp → Option BinaryOp
  | assign => none
  | addAssign => some .add
  | subAssign => some .sub
  | mulAssign => some .mul
  | divAssign => some .div

end AssignOp

end TraceLoom.Script
