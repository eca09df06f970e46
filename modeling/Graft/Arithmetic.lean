/-! # Arithmetic

The four operations on doubles, and a remainder on integers.  The remainder first
cuts both operands to 64-bit integers, the nearest bound standing for what does not
fit; its result has the sign of the right operand.
-/

namespace Graft

/-- The operations on doubles that always have a result. -/
inductive FloatOp where
  | add
  | subtract
  | multiply
  | divide
deriving DecidableEq, Repr

/-- The arithmetic operators that the host executes. -/
inductive Arithmetic where
  | float (op : FloatOp)
  | modulo
deriving DecidableEq, Repr

/-- Why an operation has no result. -/
inductive ArithmeticError where
  /-- The divisor of a remainder is zero. -/
  | zeroModulus
  /-- The quotient that belongs to the remainder does not fit 64 bits. -/
  | overflow
deriving DecidableEq, Repr

/-- The wording of an operation's failure. -/
def ArithmeticError.message : ArithmeticError → String
  | zeroModulus => "Illegal modulus zero"
  | overflow => "attempt to calculate the remainder with overflow"

namespace FloatOp

def name : FloatOp → String
  | add => "add"
  | subtract => "subtract"
  | multiply => "multiply"
  | divide => "divide"

def apply : FloatOp → Float → Float → Float
  | add, l, r => l + r
  | subtract, l, r => l - r
  | multiply, l, r => l * r
  | divide, l, r => l / r

end FloatOp

namespace Arithmetic

def name : Arithmetic → String
  | float op => op.name
  | modulo => "modulo"

/-- All operators. -/
def all : List Arithmetic :=
  [float .add, float .subtract, float .multiply, float .divide, modulo]

/-- The operator of that name. -/
def ofName? (text : String) : Option Arithmetic := all.find? fun a => a.name == text

/-- A double cut to 64 bits: towards zero, and to the nearest bound where it does not fit.  What is
not a number is cut to zero. -/
def cut (x : Float) : Int64 :=
  let size := (if x < 0 then -x else x).toUInt64
  if x < 0 then if size < 0x8000000000000000 then -size.toInt64 else Int64.minValue
  else if size < 0x8000000000000000 then size.toInt64 else Int64.maxValue

/-- The remainder of division rounded to the floor: it lies between zero and the
divisor. -/
def flooredRemainder (l r : Int64) : Except ArithmeticError Int64 :=
  if r = 0 then .error .zeroModulus
  else if l = Int64.minValue ∧ r = -1 then .error .overflow
  else
    let m := l % r
    .ok (if m ≠ 0 ∧ decide (m < 0) ≠ decide (r < 0) then m + r else m)

/-- The result on doubles. -/
def apply : Arithmetic → Float → Float → Except ArithmeticError Float
  | float op, l, r => .ok (op.apply l r)
  | modulo, l, r => (flooredRemainder (cut l) (cut r)).map Int64.toFloat

end Arithmetic

end Graft
