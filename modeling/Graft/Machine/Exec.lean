import Graft.Graph.Basic
import Graft.Machine.Basic

/-! # Interpreted ops

One step of the interpreter: an op takes its operands from the stack, puts its result
there, and names its successor.  A step may end in a fault; what it has taken from the
stack by then is gone.
-/

namespace Graft

/-- Why an execution does not go on. -/
inductive Halt where
  | fault (f : Fault)
  /-- A remainder whose quotient does not fit; nothing catches it. -/
  | overflow
  /-- The bound on the length of the run was reached. -/
  | outOfFuel
deriving DecidableEq, Repr

/-- A computation on a machine, whose state is kept when it halts. -/
abbrev MachineM := EStateM Halt Machine

/-- What a failed operation does to the run. -/
def ArithmeticError.halt : ArithmeticError → Halt
  | zeroModulus => .fault .illegalModulus
  | overflow => .overflow

/-- The wording of a halt. -/
def Halt.message : Halt → String
  | fault f => f.message
  | overflow => ArithmeticError.overflow.message
  | outOfFuel => "the run was cut off"

namespace Machine

/-- Take the top of the stack for the op `id`. -/
def pop (id : OpId) : MachineM Ref := do
  match (← get).pop? with
  | some (r, m) =>
    set m
    return r
  | none => throw (.fault (.stackUnderflow id))

/-- Look at the top of the stack for the op `id`. -/
def peek (id : OpId) : MachineM Ref := do
  match (← get).top? with
  | some r => return r
  | none => throw (.fault (.stackUnderflow id))

/-- Put a box on the stack. -/
def pushRef (r : Ref) : MachineM Unit := modify fun m => m.push r

/-- A fresh temporary that holds `v`. -/
def temp (v : Scalar) : MachineM Ref := modifyGet fun m => m.newTemp v

/-- The box of a variable that must exist. -/
def padRef (slot : Slot) : MachineM Ref := do
  match (← get).padRef? slot with
  | some r => return r
  | none => throw (.fault (.badSlot slot))

/-- Save and clear a variable that must exist. -/
def introduce (slot : Slot) : MachineM Unit := do
  match (← get).introduce? slot with
  | some m => set m
  | none => throw (.fault (.badSlot slot))

/-- Save and clear a variable where it is introduced. -/
def introduceIf (intro : Bool) (slot : Slot) : MachineM Unit :=
  if intro then introduce slot else return ()

/-- The box for a result: the variable that the op names, or a temporary. -/
def target : Option Slot → MachineM Ref
  | some slot => padRef slot
  | none => temp .undefined

/-- The box for the result of an operation on two boxes: in the assigning form the left
one. -/
def targetOf (op : Op) (left : Ref) : MachineM Ref :=
  if op.stacked then return left else target op.targ

/-- Store a result and leave its box on the stack. -/
def yield (dst : Ref) (x : Float) : MachineM Unit := do
  modify fun m => m.write dst (.num x)
  pushRef dst

/-- The result of an operation, or the halt that it causes. -/
def calculate (op : Arithmetic) (l r : Float) : MachineM Float :=
  match op.apply l r with
  | .ok x => return x
  | .error e => throw e.halt

/-- Execute one op; the answer is its successor. -/
def exec (id : OpId) (op : Op) : MachineM (Option OpId) := do
  match op.kind with
  | .const v =>
    pushRef (← temp v)
    return op.next
  | .lexical slot intro =>
    introduceIf intro slot
    pushRef (← padRef slot)
    return op.next
  | .arith a =>
    let right ← pop id
    let left ← pop id
    let m ← get
    let x ← calculate a (m.read left).toNum (m.read right).toNum
    yield (← targetOf op left) x
    return op.next
  | .negate =>
    let box ← pop id
    let x := -((← get).read box).toNum
    yield (← target op.targ) x
    return op.next
  | .assign =>
    let source ← pop id
    let dst ← pop id
    modify fun m => m.copy dst source
    pushRef dst
    return op.next
  | .and =>
    let box ← peek id
    if ((← get).read box).isTrue then
      discard (pop id)
      return op.other
    else return op.next
  | .or =>
    let box ← peek id
    if ((← get).read box).isTrue then return op.next
    else
      discard (pop id)
      return op.other
  | .cond =>
    let box ← pop id
    return if ((← get).read box).isTrue then op.other else op.next
  | .mark =>
    modify endStatement
    return op.next
  | .statements | .stub => return op.next
  | .native _ => throw (.fault (.notExecutable id))

end Machine

end Graft
