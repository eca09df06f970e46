import Graft.CompiledUnit
import Graft.Diagnosis
import Graft.Region

/-! # Lowering

A run of terms becomes the code of one unit.  Constants and variables are loaded, the
operators that the compiler has code for are computed on doubles, and assignments
store into boxes.  Every other term is *handed over*: its host fragment is detached,
and the unit runs it by a call-back and takes its value from the stack.

What lies below a term that is handed over can still be compiled, into units of its
own.  Lowering does not do that; it lists the terms that it has handed over, in
order, also those from before a diagnosis.
-/

namespace Graft

/-- Where the value of a lowered term is to be found. -/
inductive Operand where
  /-- In a register of doubles. -/
  | float (reg : Nat)
  | int (value : Int64)
  | uint (value : UInt64)
  /-- In the box of a register. -/
  | box (reg : Nat)
deriving DecidableEq, Repr

def Operand.type : Operand → ValueType
  | float _ => .double
  | int _ => .int
  | uint _ => .unsigned
  | box _ => .scalar

/-- A host fragment that is to be detached: its root, and the ops whose successors lead
out of it. -/
structure Detachment where
  root : OpId
  exits : List OpId
deriving DecidableEq, Repr

/-- A term that is left to the interpreter, and its fragment if it has one. -/
structure Handover where
  term : Term
  detachment : Except Diagnosis Detachment

/-- A unit under construction. -/
structure Draft where
  code : List Instr := []
  /-- The number of box registers in use. -/
  boxes : Nat := 0
  /-- The number of registers of doubles in use. -/
  floats : Nat := 0
  handovers : List Handover := []

/-- A step in the construction of a unit.  The draft is kept when a step fails. -/
abbrev LowerM := EStateM Diagnosis Draft

/-- The operation on doubles that an operator stands for. -/
def Operator.floatOp? : Operator → Option FloatOp
  | add => some .add
  | subtract => some .subtract
  | multiply => some .multiply
  | divide => some .divide
  | _ => none

namespace Term

/-! ### Fragments -/

/-- The root of the host fragment of a term. -/
def hostRoot (t : Term) : Except Diagnosis OpId :=
  match t.origin with
  | some o => .ok o.root
  | none => .error (.missingOrigin t.describe)

/-- The ops whose successors lead out of the term's fragment.  Mostly that is the root;
a conditional is left from its branches, and `and` and `or` also from the op itself. -/
def exitOps : Term → Except Diagnosis (List OpId)
  | op a .ternary b [c, yes, no] => do
    discard (hostRoot (op a .ternary b [c, yes, no]))
    return (← yes.exitOps) ++ (← no.exitOps)
  | op a .boolAnd b [l, r] => do
    let root ← hostRoot (op a .boolAnd b [l, r])
    return (← r.exitOps) ++ [root]
  | op a .boolOr b [l, r] => do
    let root ← hostRoot (op a .boolOr b [l, r])
    return (← r.exitOps) ++ [root]
  | t => return [← t.hostRoot]

/-- The fragment of a term, to be detached. -/
def detachment (t : Term) : Except Diagnosis Detachment := do
  return ⟨← t.hostRoot, ← t.exitOps⟩

end Term

namespace Lowering

/-! ### Instructions -/

/-- Append an instruction. -/
def emit (i : Instr) : LowerM Unit := modify fun d => { d with code := d.code ++ [i] }

/-- Append an instruction that yields a box; the answer is its register. -/
def emitBox (i : Instr) : LowerM Nat := modifyGet fun d =>
  (d.boxes, { d with code := d.code ++ [i], boxes := d.boxes + 1 })

/-- Append an instruction that yields a double; the answer is its register. -/
def emitFloat (i : Instr) : LowerM Nat := modifyGet fun d =>
  (d.floats, { d with code := d.code ++ [i], floats := d.floats + 1 })

/-- A value as a double. -/
def toFloat : Option Operand → LowerM Nat
  | none => throw .voidNumber
  | some (.float r) => return r
  | some (.int i) => emitFloat (.const i.toFloat)
  | some (.uint u) => emitFloat (.const u.toFloat)
  | some (.box b) => emitFloat (.number b false)

/-- A value as the target of an assignment. -/
def toTarget : Option Operand → LowerM Nat
  | some (.box b) => return b
  | v => throw (.notAssignable (v.map Operand.type))

/-- Store a value in a box. -/
def store (target : Nat) : Operand → LowerM Unit
  | .float r => emit (.storeNum target r)
  | .int i => emit (.storeInt target i)
  | .uint u => emit (.storeUInt target u)
  | .box b => emit (.copy target b)

/-! ### Terms -/

def constant : Constant → LowerM (Option Operand)
  | .double x => return some (.float (← emitFloat (.const x)))
  | .int i => return some (.int i)
  | .uint u => return some (.uint u)
  | c => throw (.unsupportedConstant c)

/-- The box of a declared variable; a declaration clears it first. -/
def variableBox (scope : Scope) (d : DeclId) (declares : Bool) : LowerM (Option Operand) := do
  match scope.get? d with
  | none => throw (.unknownDeclaration d)
  | some v =>
    clearing v.slot
    return some (.box (← emitBox (.pad v.slot)))
where
  clearing (slot : Slot) : LowerM Unit :=
    if declares then emit (.clear slot) else return ()

/-- An operation on doubles.  The assigning form stores the result in the left operand
and has its box as value. -/
def binary (f : FloatOp) (assigning : Bool) (left right : LowerM (Option Operand)) :
    LowerM (Option Operand) := do
  let l ← left
  let r ← right
  let x ← toFloat l
  let y ← toFloat r
  let z ← emitFloat (.combine f x y)
  if assigning then
    let target ← toTarget l
    emit (.storeNum target z)
    return some (.box target)
  else return some (.float z)

def negation (operand : LowerM (Option Operand)) : LowerM (Option Operand) := do
  let x ← toFloat (← operand)
  return some (.float (← emitFloat (.negate x)))

/-- An assignment; its value is the target's box. -/
def assignment (target value : LowerM (Option Operand)) : LowerM (Option Operand) := do
  let dst ← toTarget (← target)
  match ← value with
  | none => throw .voidValue
  | some v =>
    store dst v
    return some (.box dst)

/-- Leave a term to the interpreter.  Its value, if one is wanted, is on the stack after
the call-back. -/
def handOver (t : Term) : LowerM (Option Operand) :=
  if t.context = .caller then throw (.unimplementedContext .caller)
  else do
    modify fun d => { d with handovers := d.handovers ++ [⟨t, t.detachment⟩] }
    match t.detachment with
    | .error e => throw e
    | .ok f =>
      emit (.call f.root)
      if t.context = .scalar then return some (.box (← emitBox .pop))
      else return none

/-- Lower a term; the answer says where its value is, if it has one. -/
def term (scope : Scope) : Term → LowerM (Option Operand)
  | .leaf _ (.constant c) => constant c
  | .leaf _ (.lexical d) => variableBox scope d false
  | .leaf _ (.declaration d) => variableBox scope d true
  | .op a c b [l, r] =>
    let t := Term.op a c b [l, r]
    if t.isCompilable scope then
      match c.floatOp? with
      | some f => binary f t.isAssigning (term scope l) (term scope r)
      | none =>
        if c = .assign then assignment (term scope l) (term scope r) else handOver t
    else handOver t
  | .op a c b [k] =>
    let t := Term.op a c b [k]
    if t.isCompilable scope && c = .negate then negation (term scope k) else handOver t
  | t => handOver t

/-! ### Runs -/

/-- The box in which a term leaves its value on the stack. -/
inductive Destination where
  /-- The box that already holds it. -/
  | itself (reg : Nat)
  | pad (slot : Slot)
  | temp
deriving DecidableEq, Repr

/-- The box of the value, or a temporary if it has none. -/
def Destination.plain : Operand → Destination
  | .box b => .itself b
  | _ => .temp

/-- Where the value of a term goes.  The result of an operator belongs in the slot that
its host op writes to; only an operator with two operands may do without one, if its
value is in a box. -/
def destination (t : Term) (v : Operand) : Except Diagnosis Destination :=
  match t with
  | .op a c _ _ =>
    if c = .assign then .ok (.plain v)
    else match c.kind, a.origin.bind Origin.targ, v with
      | .binary, some slot, _ => .ok (.pad slot)
      | .binary, none, .box b => .ok (.itself b)
      | .binary, none, _ => .error .missingBinaryTarget
      | .unary, some slot, _ => .ok (.pad slot)
      | .unary, none, _ => .error .missingUnaryTarget
      | _, _, v => .ok (.plain v)
  | _ => .ok (.plain v)

/-- Leave the value of a term on the stack. -/
def pushValue (t : Term) (v : Operand) : LowerM Unit := do
  match destination t v with
  | .error e => throw e
  | .ok (.itself b) => emit (.push b)
  | .ok (.pad slot) =>
    let b ← emitBox (.pad slot)
    store b v
    emit (.push b)
  | .ok .temp =>
    let b ← emitBox .temp
    store b v
    emit (.push b)

/-- Do with the value of a term what its context asks for. -/
def deliver (t : Term) (v : Option Operand) : LowerM Unit :=
  match t.context with
  | .caller => throw (.unimplementedContext .caller)
  | .unresolved => throw .unresolvedContext
  | .void | .list => return ()
  | .scalar =>
    match v with
    | none => throw .missingScalar
    | some v => pushValue t v

mutual

/-- Lower a member of a run: statements and sequences are only their parts. -/
def root (scope : Scope) : Term → LowerM Unit
  | .statement _ t => root scope t
  | .sequence _ ts => roots scope ts
  | t => do deliver t (← term scope t)

/-- Lower the members of a run one after the other. -/
def roots (scope : Scope) : List Term → LowerM Unit
  | [] => return ()
  | t :: ts => do
    root scope t
    roots scope ts

end

/-- The code of a run, or why it has none. -/
def codeOf (scope : Scope) (run : List Term) : Except Diagnosis (List Instr) :=
  match roots scope run {} with
  | .ok _ d => .ok d.code
  | .error e _ => .error e

/-- The terms that the lowering of a run hands over, in order. -/
def handoversOf (scope : Scope) (run : List Term) : List Handover :=
  match roots scope run {} with
  | .ok _ d => d.handovers
  | .error _ d => d.handovers

end Lowering

end Graft
