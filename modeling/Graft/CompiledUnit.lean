import Graft.Arithmetic
import Graft.Ident

/-! # Compiled units

A compiled unit is a straight list of instructions.  It works on two lists of
registers that only grow, one of boxes and one of doubles: an instruction that
produces something appends it, and operands are named by their position.

The instructions are what a unit may ask of the machine: the box of a pad slot, a
temporary, a number from a box, a store into a box, the top of the stack, and a run
of a host fragment.  A unit ends by naming the op to go on with; one that runs off
its end goes on after the op that it stands for.  No instruction looks at a value to
decide what comes next, so the same instructions are carried out in every run of a
unit that does not fault.
-/

namespace Graft

/-- An instruction of a compiled unit.  Box registers are called `box`, `target` and
`source`, registers of doubles `left`, `right` and `value`. -/
inductive Instr where
  /-- Append the box of a pad slot. -/
  | pad (slot : Slot)
  /-- Save the value of a pad slot for the case of a fault, and clear the slot. -/
  | clear (slot : Slot)
  /-- Append the reference to no box. -/
  | null
  /-- Append a fresh temporary. -/
  | temp
  /-- Take a box from the stack and append it. -/
  | pop
  /-- Put a box on the stack. -/
  | push (box : Nat)
  /-- Append a double. -/
  | const (x : Float)
  /-- Append the numeric reading of a box; `logged` also writes it to the log. -/
  | number (box : Nat) (logged : Bool)
  /-- Append the result of an operation on doubles. -/
  | combine (op : FloatOp) (left right : Nat)
  /-- Append the opposite of a double. -/
  | negate (value : Nat)
  /-- Store a double in a box. -/
  | storeNum (target value : Nat)
  /-- Store an integer in a box. -/
  | storeInt (target : Nat) (i : Int64)
  /-- Store an unsigned integer in a box. -/
  | storeUInt (target : Nat) (u : UInt64)
  /-- Copy the contents of one box into another. -/
  | copy (target source : Nat)
  /-- Run the host fragment with this root. -/
  | call (root : OpId)
  /-- End the unit and go on with an op, or with none. -/
  | ret (next : Option OpId)
deriving Repr

/-- A compiled unit with the fragments that it calls back into.

All code that the compiler makes is a straight list.  A native function could do more: look
at a value that it has got from the machine, and go one way or the other.  Such a function is
not a unit in this sense, and nothing that is said of units is said of it. -/
structure CompiledUnit where
  name : String
  code : List Instr
  /-- The roots of the host fragments that belong to the unit from now on. -/
  fragments : List OpId
deriving Repr

end Graft
