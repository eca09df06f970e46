import Graft.Machine.Exec

/-! # The dispatch loop

Ops are executed from a start until one has no successor or a fault is recorded.
Interpreted ops are steps of `Machine.exec`; the op of a compiled unit runs the
unit's instructions, one of which may run a fragment of the graph by a dispatch loop
of its own.

A unit does not stop at a fault: the fault is recorded, an instruction that wanted a
box gets a fresh temporary, and the loop stops before the next op.

The loop takes a bound on its length.  A run that ends within some bound ends in the
same way within every larger one.
-/

namespace Graft

namespace Machine

/-- The registers of a unit. -/
structure Registers where
  boxes : Array Ref := #[]
  floats : Array Float := #[]
deriving Repr

namespace Registers

def box (r : Registers) (i : Nat) : Ref := r.boxes[i]?.getD .null

def float (r : Registers) (i : Nat) : Float := r.floats[i]?.getD 0.0

def withBox (r : Registers) (b : Ref) : Registers := { r with boxes := r.boxes.push b }

def withFloat (r : Registers) (x : Float) : Registers := { r with floats := r.floats.push x }

end Registers

/-- The box that a partial operation yields, or a fresh temporary and a recorded fault. -/
def orFail (f : Fault) : Option (Ref × Machine) → MachineM Ref
  | some (r, m) => do
    set m
    return r
  | none => do
    modify fun m => m.fail f
    temp .undefined

/-- The op of the unit being executed, in a diagnosis. -/
def here (m : Machine) : OpId := m.current.getD ⟨OpId.noneWord⟩

/-- One instruction that neither ends the unit nor runs a fragment. -/
def perform (r : Registers) : Instr → MachineM Registers
  | .pad slot => do
    let m ← get
    return r.withBox (← orFail (.badSlot slot) ((m.padRef? slot).map fun b => (b, m)))
  | .clear slot => do
    let m ← get
    set ((m.introduce? slot).getD (m.fail (.badSlot slot)))
    return r
  | .null => return r.withBox .null
  | .temp => return r.withBox (← temp .undefined)
  | .pop => do
    let m ← get
    return r.withBox (← orFail (.stackUnderflow m.here) m.pop?)
  | .push b => do
    pushRef (r.box b)
    return r
  | .const x => return r.withFloat x
  | .number b logged => do
    let x := ((← get).read (r.box b)).toNum
    modify fun m => { m with log := if logged then x :: m.log else m.log }
    return r.withFloat x
  | .combine op i j => return r.withFloat (op.apply (r.float i) (r.float j))
  | .negate i => return r.withFloat (-(r.float i))
  | .storeNum b i => do
    modify fun m => m.write (r.box b) (.num (r.float i))
    return r
  | .storeInt b i => do
    modify fun m => m.write (r.box b) (.int i)
    return r
  | .storeUInt b u => do
    modify fun m => m.write (r.box b) (.uint u)
    return r
  | .copy b c => do
    modify fun m => m.copy (r.box b) (r.box c)
    return r
  | .call _ | .ret _ => return r

/-- The op after the one whose unit is being executed. -/
def successor (g : Graph) (m : Machine) : Option OpId :=
  (m.current.bind g.op?).bind Op.next

/-- Run a unit's instructions; `callBack` runs a fragment.  The answer is the op to go on
with. -/
def runCode (g : Graph) (callBack : OpId → MachineM Unit) :
    List Instr → Registers → MachineM (Option OpId)
  | [], _ => return (← get).successor g
  | .ret next :: _, _ => return next
  | .call root :: code, r => do
    callBack root
    runCode g callBack code r
  | i :: code, r => do
    runCode g callBack code (← perform r i)

/-- Run the fragment below `root` with a given dispatch loop, above floors of its own. -/
def callFragment (g : Graph) (loop : Option OpId → MachineM Unit) (root : OpId) :
    MachineM Unit := do
  match g.op? root with
  | none => modify fun m => m.fail (.unknownOp root)
  | some _ =>
    let frame ← modifyGet enter
    loop (some (g.startOf root))
    modify fun m => m.leave frame

/-- A step with its fault, if it has one, as its answer. -/
def observe (step : MachineM (Option OpId)) : MachineM (Except Fault (Option OpId)) := fun m =>
  match step m with
  | .ok next m => .ok (.ok next) m
  | .error (.fault f) m => .ok (.error f) m
  | .error h m => .error h m

/-- Execute ops from `cur` on, at most so many. -/
def dispatch (g : Graph) : Nat → Option OpId → MachineM Unit
  | _, none => return ()
  | 0, some _ => throw .outOfFuel
  | n + 1, some id => do
    if (← get).fault.isSome then return ()
    else match g.op? id with
      | none => modify fun m => m.fail (.unknownOp id)
      | some op =>
        match op.kind with
        | .native unit =>
          modify fun m => { m with current := some id }
          let next ← runCode g (callFragment g (dispatch g n)) unit.code {}
          dispatch g n next
        | _ =>
          match ← observe (exec id op) with
          | .ok next => dispatch g n next
          | .error f => modify fun m => m.fail f

/-- Run a graph from its entry, within a bound.  A faulting run puts back the values of
the variables that it declared. -/
def run (g : Graph) (fuel : Nat) : MachineM Unit := do
  match g.entry with
  | none => throw (.fault .notLinked)
  | some entry =>
    modify fresh
    let depth := (← get).saves.length
    dispatch g fuel (some entry)
    modify fun m => { m with current := none }
    match (← get).fault with
    | some f =>
      modify fun m => { m.unwind depth with fault := none }
      throw (.fault f)
    | none => modify fun m => m.forget depth

end Machine

end Graft
