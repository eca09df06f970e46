import Graft.Fault
import Graft.Scalar

/-! # The machine

A running program has a *pad*, the boxes of its variables, and *temporaries*, boxes
that live until the end of a statement.  The *stack* holds references to boxes, never
values, so a store through one reference is seen through every other.

A run of a fragment inside a run works above two *floors*: it may not take what its
caller has put on the stack, and the end of its statements frees no temporary of its
caller's.

Declaring a variable saves its value.  A run that faults puts the saved values back;
one that comes to its end forgets them.  The first fault of a run is the one that
counts.
-/

namespace Graft

/-- A reference to a box. -/
inductive Ref where
  | pad (slot : Slot)
  /-- A temporary, by its position. -/
  | temp (index : Nat)
  | null
deriving DecidableEq, Repr

structure Machine where
  pad : Array Scalar
  /-- The value stack, its top first. -/
  stack : List Ref := []
  temps : Array Scalar := #[]
  /-- Values saved by declarations, the latest first. -/
  saves : List (Slot × Scalar) := []
  stackFloor : Nat := 0
  tempFloor : Nat := 0
  /-- The op of the unit that is being executed. -/
  current : Option OpId := none
  fault : Option Fault := none
  /-- Numbers that units have written to the log, the latest first. -/
  log : List Float := []
deriving Repr

/-- What a fragment's run must put back when it ends. -/
structure Frame where
  current : Option OpId
  stackFloor : Nat
  tempFloor : Nat
deriving DecidableEq, Repr

namespace Machine

/-- A machine with so many variables, all undefined. -/
def ofSize (slots : Nat) : Machine := { pad := Array.replicate slots .undefined }

variable (m : Machine)

/-! ### Boxes -/

/-- The value of a variable. -/
def padValue? (slot : Slot) : Option Scalar := m.pad[slot.index]?

/-- The contents of a box. -/
def read : Ref → Scalar
  | .pad slot => m.pad[slot.index]?.getD .undefined
  | .temp i => m.temps[i]?.getD .undefined
  | .null => .undefined

/-- Store a value in a box. -/
def write (r : Ref) (v : Scalar) : Machine :=
  match r with
  | .pad slot => { m with pad := m.pad.setIfInBounds slot.index v }
  | .temp i => { m with temps := m.temps.setIfInBounds i v }
  | .null => m

/-- Copy the contents of one box into another. -/
def copy (target source : Ref) : Machine :=
  if source = .null then m else m.write target (m.read source)

/-- A fresh temporary. -/
def newTemp (v : Scalar) : Ref × Machine :=
  (.temp m.temps.size, { m with temps := m.temps.push v })

/-- The box of a variable. -/
def padRef? (slot : Slot) : Option Ref :=
  if slot.index < m.pad.size then some (.pad slot) else none

/-- Save the value of a variable and clear it. -/
def introduce? (slot : Slot) : Option Machine :=
  match m.padValue? slot with
  | some v => some { m.write (.pad slot) .undefined with saves := (slot, v) :: m.saves }
  | none => none

/-! ### The stack -/

def push (r : Ref) : Machine := { m with stack := r :: m.stack }

/-- The top of the stack, if it lies above the floor. -/
def top? : Option Ref :=
  if m.stack.length ≤ m.stackFloor then none else m.stack.head?

/-- Take the top of the stack, if it lies above the floor. -/
def pop? : Option (Ref × Machine) :=
  match m.top? with
  | some r => some (r, { m with stack := m.stack.tail })
  | none => none

/-- The end of a statement: what lies above the floors is dropped. -/
def endStatement : Machine :=
  { m with
    stack := m.stack.drop (m.stack.length - m.stackFloor)
    temps := m.temps.take m.tempFloor }

/-- The values on the stack, the bottom first. -/
def stackValues : List Scalar := m.stack.reverse.map m.read

/-! ### Faults and frames -/

/-- Record a fault; an earlier one stays. -/
def fail (f : Fault) : Machine := { m with fault := m.fault <|> some f }

/-- Raise the floors for the run of a fragment. -/
def enter : Frame × Machine :=
  (⟨m.current, m.stackFloor, m.tempFloor⟩,
    { m with stackFloor := m.stack.length, tempFloor := m.temps.size })

/-- Put back what held before the run of a fragment. -/
def leave (f : Frame) : Machine :=
  { m with current := f.current, stackFloor := f.stackFloor, tempFloor := f.tempFloor }

/-- Put saved values back, the latest first, until so many are left. -/
def unwind (depth : Nat) : Machine :=
  let undone := m.saves.take (m.saves.length - depth)
  let restored := undone.foldl (fun (m : Machine) s => m.write (.pad s.1) s.2) m
  { restored with saves := m.saves.drop (m.saves.length - depth) }

/-- Forget saved values until so many are left. -/
def forget (depth : Nat) : Machine :=
  { m with saves := m.saves.drop (m.saves.length - depth) }

/-- What a run starts with: the pad, the saved values and the log are kept. -/
def fresh : Machine :=
  { m with stack := [], temps := #[], stackFloor := 0, tempFloor := 0, fault := none }

/-- Set a variable from outside. -/
def setPad (slot : Slot) (v : Scalar) : Except Fault Machine :=
  if slot.index < m.pad.size then .ok (m.write (.pad slot) v) else .error (.badSlot slot)

end Machine

end Graft
