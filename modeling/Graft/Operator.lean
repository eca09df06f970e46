/-! # Operators

The operators of semantic terms, with their class and their traits: whether some
operands are evaluated conditionally, whether operands may be missing, whether
`x op= y` exists, and whether boxed operands may bring their own meaning.
-/

namespace Graft

inductive Operator where
  | time
  | negate | sin | cos | abs | sqrt | log | exp | int | bitNot | boolNot | rand
  | add | subtract | multiply | divide | modulo | atan2 | pow | leftShift | rightShift
  | bitAnd | bitOr | bitXor
  | numEq | numNe | numLt | numLe | numGt | numGe
  | boolAnd | boolOr
  | assign
  | ternary
  | doBlock
deriving DecidableEq, Repr

/-- The shape of an operator's operand list. -/
inductive OperatorClass where
  | nullary
  | unary
  | binary
  | listed
  | block
deriving DecidableEq, Repr

/-- The traits of an operator. -/
structure Traits where
  /-- Some operands are evaluated only if others ask for it. -/
  conditional : Bool := false
  /-- Operands may be missing. -/
  optional : Bool := false
  /-- The form `x op= y` exists. -/
  assigning : Bool := false
  /-- Boxed operands may bring their own meaning of the operator. -/
  overloaded : Bool := false
deriving DecidableEq, Repr

/-- The traits as a set of bits, lowest first in the order of the fields. -/
def Traits.bits (t : Traits) : Nat :=
  t.conditional.toNat + 2 * t.optional.toNat + 4 * t.assigning.toNat + 8 * t.overloaded.toNat

def OperatorClass.name : OperatorClass → String
  | .nullary => "baseop"
  | .unary => "unop"
  | .binary => "binop"
  | .listed => "listop"
  | .block => "block"

namespace Operator

/-- All operators, by class. -/
def all : List Operator :=
  [time,
   negate, sin, cos, abs, sqrt, log, exp, int, bitNot, boolNot, rand,
   add, subtract, multiply, divide, modulo, atan2, pow, leftShift, rightShift,
   bitAnd, bitOr, bitXor, numEq, numNe, numLt, numLe, numGt, numGe, boolAnd, boolOr, assign,
   ternary,
   doBlock]

def kind : Operator → OperatorClass
  | time => .nullary
  | negate | sin | cos | abs | sqrt | log | exp | int | bitNot | boolNot | rand => .unary
  | add | subtract | multiply | divide | modulo | atan2 | pow | leftShift | rightShift
  | bitAnd | bitOr | bitXor | numEq | numNe | numLt | numLe | numGt | numGe
  | boolAnd | boolOr | assign => .binary
  | ternary => .listed
  | doBlock => .block

def traits : Operator → Traits
  | time | assign | doBlock => {}
  | rand => { optional := true }
  | negate | sin | cos | abs | sqrt | log | exp | int | bitNot | boolNot => { overloaded := true }
  | add | subtract | multiply | divide | modulo | pow | leftShift | rightShift
  | bitAnd | bitOr | bitXor => { assigning := true, overloaded := true }
  | atan2 | numEq | numNe | numLt | numLe | numGt | numGe => { overloaded := true }
  | boolAnd | boolOr => { conditional := true, assigning := true }
  | ternary => { conditional := true }

def name : Operator → String
  | time => "time"
  | negate => "negate"
  | sin => "sin"
  | cos => "cos"
  | abs => "abs"
  | sqrt => "sqrt"
  | log => "log"
  | exp => "exp"
  | int => "int"
  | bitNot => "bitwise_not"
  | boolNot => "bool_not"
  | rand => "rand"
  | add => "add"
  | subtract => "subtract"
  | multiply => "multiply"
  | divide => "divide"
  | modulo => "modulo"
  | atan2 => "atan2"
  | pow => "pow"
  | leftShift => "left_shift"
  | rightShift => "right_shift"
  | bitAnd => "bitwise_and"
  | bitOr => "bitwise_or"
  | bitXor => "bitwise_xor"
  | numEq => "eq"
  | numNe => "ne"
  | numLt => "lt"
  | numLe => "le"
  | numGt => "gt"
  | numGe => "ge"
  | boolAnd => "bool_and"
  | boolOr => "bool_or"
  | assign => "sassign"
  | ternary => "ternary"
  | doBlock => "do"

/-- The operator of that name. -/
def ofName? (text : String) : Option Operator := all.find? fun o => o.name == text

/-- Has the compiler code of its own for the operator?  All others are left to the
interpreter. -/
def isCatalogued : Operator → Bool
  | add | subtract | multiply | divide | negate | assign => true
  | _ => false

/-- The list holds every operator. -/
theorem mem_all (o : Operator) : o ∈ all := by
  cases o <;> decide

/-- Only operators with two operands have an assigning form. -/
theorem kind_of_assigning {o : Operator} (h : o.traits.assigning = true) : o.kind = .binary := by
  revert h
  cases o <;> decide

end Operator

end Graft
