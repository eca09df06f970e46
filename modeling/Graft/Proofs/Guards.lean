import Graft.Proofs.AttemptedRuns

/-! # Guards that never fire

The lowering of terms knows no value whose representation it could not use.  A lowering that takes
nothing for granted says of every value how it is represented.  It asks the table of coercions
before it uses a value as a double or stores it in a box, looks at the operator again when it
computes, and checks that a helper of the machine that is asked for an answer has one.  Each of
these guards has a failure of its own.

That is the *guarded* lowering, and the guarded compiler is built on it as the plain one is on the
plain lowering.  The two do the same: a guarded step is the plain step, with its diagnosis for a
failure (`Guarded.term_eq`, `Guarded.compileTerms_lift`).  So no guard fires, and every value is a
double, an integer, an unsigned integer or a box.

These are equations between computations, not statements about their results.  A guarded step is
written as the plain one behind `Guarded.lift`, which changes only what is thrown, or behind
`Guarded.represent`, which also adds the representation of the value; both are pushed through
sequences of steps.  What makes a guard go away is different at each of them: the table has a
coercion for the representation of every operand, and the second look at an operator finds what the
first one found.

The compiler is then a matter of replacing equals.  Where a compilation tolerates a refusal it must
tolerate it in both, and failures of guards are no exception; but there are none.
-/

namespace Graft

/-! ### What the guards look at -/

/-- What compiled code can call of the machine. -/
inductive Helper where
  | pad | clear | number | storeNum | storeInt | storeUInt | copy | temp | push | pop | run | next
deriving DecidableEq, Repr

namespace Helper

def symbol : Helper → String
  | pad => "opjit_pad_sv"
  | clear => "opjit_save_clearsv"
  | number => "opjit_sv_nv"
  | storeNum => "opjit_sv_set_nv"
  | storeInt => "opjit_sv_set_iv"
  | storeUInt => "opjit_sv_set_uv"
  | copy => "opjit_sv_set_sv"
  | temp => "opjit_new_mortal_sv"
  | push => "opjit_push_sv"
  | pop => "opjit_pop_sv"
  | run => "opjit_call_runloop"
  | next => "opjit_op_next"

/-- Does a call of the helper have an answer? -/
def answers : Helper → Bool
  | pad | number | temp | pop | next => true
  | clear | storeNum | storeInt | storeUInt | copy | push | run => false

end Helper

/-- What stands for a value of a representation: an integer itself, or the register of anything
else. -/
def ValueType.Place : ValueType → Type
  | int => Int64
  | unsigned => UInt64
  | double | scalar | any | hidden => Nat

/-- A value of emitted code, under any representation. -/
structure Emitted where
  type : ValueType
  place : type.Place

/-- The operand with its representation. -/
def Operand.emitted : Operand → Emitted
  | float r => ⟨.double, r⟩
  | int i => ⟨.int, i⟩
  | uint u => ⟨.unsigned, u⟩
  | box b => ⟨.scalar, b⟩

/-- Why a guarded step fails: with a diagnosis, or at one of the guards. -/
inductive Failure where
  | diagnosis (d : Diagnosis)
  /-- A value is to be used as a double. -/
  | uncoercible (source : ValueType)
  /-- A value is to be stored in a box. -/
  | unstorable (source : ValueType)
  /-- There is no operation on doubles for the operator. -/
  | notArithmetic (c : Operator)
  /-- A helper is asked for an answer and has none. -/
  | answerless (h : Helper)
deriving Repr

/-- The wording of a failure. -/
def Failure.message : Failure → String
  | diagnosis d => d.message
  | uncoercible t => "Cannot coerce " ++ (t.name ++ " to Double")
  | unstorable t => "Unable to assign " ++ (t.name ++ " to a scalar")
  | notArithmetic c => "internal error: " ++ (c.name ++ " is not an arithmetic binop")
  | answerless h => "internal error: " ++ (h.symbol ++ " returns nothing")

/-- Is the failure that of a guard, or a diagnosis that only a mistake of the compiler could
give? -/
def Failure.isDefect : Failure → Bool
  | diagnosis d => d.isDefect
  | _ => true

namespace Guarded

/-! ### The guarded lowering -/

/-- A guarded step.  What it works on is kept when it fails. -/
abbrev GuardM := EStateM Failure

/-- A plain step, with its diagnosis for a failure. -/
def lift {σ α : Type} (x : EStateM Diagnosis σ α) : EStateM Failure σ α := x.adaptExcept .diagnosis

/-- A call for its answer. -/
def answer (h : Helper) (call : LowerM Nat) : GuardM Draft Nat := do
  let r ← lift call
  if h.answers then return r else throw (.answerless h)

/-- The box of a pad slot. -/
def padBox (slot : Slot) : GuardM Draft Nat := answer .pad (Lowering.emitBox (.pad slot))

/-- A value as a double, if the table of coercions has it. -/
def toFloat : Option Emitted → GuardM Draft Nat
  | none => throw (.diagnosis .voidNumber)
  | some v =>
    if v.type.coercesTo .double then
      match v with
      | ⟨.int, i⟩ => lift (Lowering.emitFloat (.const (Int64.toFloat i)))
      | ⟨.unsigned, u⟩ => lift (Lowering.emitFloat (.const (UInt64.toFloat u)))
      | ⟨.scalar, b⟩ | ⟨.any, b⟩ => answer .number (Lowering.emitFloat (.number b false))
      | ⟨.double, r⟩ | ⟨.hidden, r⟩ => return r
    else throw (.uncoercible v.type)

/-- A value as the target of an assignment. -/
def toTarget : Option Emitted → GuardM Draft Nat
  | some ⟨.scalar, b⟩ => return b
  | v => throw (.diagnosis (.notAssignable (v.map Emitted.type)))

/-- Store a value in a box, if the table of coercions has it. -/
def store (target : Nat) (v : Emitted) : GuardM Draft Unit :=
  if v.type.coercesTo .scalar then
    match v with
    | ⟨.double, r⟩ => lift (Lowering.emit (.storeNum target r))
    | ⟨.int, i⟩ => lift (Lowering.emit (.storeInt target i))
    | ⟨.unsigned, u⟩ => lift (Lowering.emit (.storeUInt target u))
    | ⟨.scalar, b⟩ | ⟨.any, b⟩ | ⟨.hidden, b⟩ => lift (Lowering.emit (.copy target b))
  else throw (.unstorable v.type)

def constant : Constant → GuardM Draft (Option Emitted)
  | .double x => return some ⟨.double, ← lift (Lowering.emitFloat (.const x))⟩
  | .int i => return some ⟨.int, i⟩
  | .uint u => return some ⟨.unsigned, u⟩
  | c => throw (.diagnosis (.unsupportedConstant c))

def variableBox (scope : Scope) (d : DeclId) (declares : Bool) : GuardM Draft (Option Emitted) := do
  match scope.get? d with
  | none => throw (.diagnosis (.unknownDeclaration d))
  | some v =>
    if declares then lift (Lowering.emit (.clear v.slot))
    return some ⟨.scalar, ← padBox v.slot⟩

/-- An operation on doubles, by its operator. -/
def binary (c : Operator) (assigning : Bool) (left right : GuardM Draft (Option Emitted)) :
    GuardM Draft (Option Emitted) := do
  let l ← left
  let r ← right
  let x ← toFloat l
  let y ← toFloat r
  match c.floatOp? with
  | none => throw (.notArithmetic c)
  | some f =>
    let z ← lift (Lowering.emitFloat (.combine f x y))
    if assigning then
      let target ← toTarget l
      store target ⟨.double, z⟩
      return some ⟨.scalar, target⟩
    else return some ⟨.double, z⟩

def negation (operand : GuardM Draft (Option Emitted)) : GuardM Draft (Option Emitted) := do
  let x ← toFloat (← operand)
  return some ⟨.double, ← lift (Lowering.emitFloat (.negate x))⟩

def assignment (target value : GuardM Draft (Option Emitted)) : GuardM Draft (Option Emitted) := do
  let dst ← toTarget (← target)
  match ← value with
  | none => throw (.diagnosis .voidValue)
  | some v =>
    store dst v
    return some ⟨.scalar, dst⟩

def handOver (t : Term) : GuardM Draft (Option Emitted) :=
  if t.context = .caller then throw (.diagnosis (.unimplementedContext .caller))
  else do
    modify fun d => { d with handovers := d.handovers ++ [⟨t, t.detachment⟩] }
    match t.detachment with
    | .error e => throw (.diagnosis e)
    | .ok f =>
      lift (Lowering.emit (.call f.root))
      if t.context = .scalar then return some ⟨.scalar, ← answer .pop (Lowering.emitBox .pop)⟩
      else return none

/-- The code of an operator with two operands, by the operators that have code. -/
def pair (t : Term) (c : Operator) (left right : GuardM Draft (Option Emitted)) :
    GuardM Draft (Option Emitted) :=
  match c with
  | .add | .subtract | .multiply | .divide => binary c t.isAssigning left right
  | .assign => assignment left right
  | _ => handOver t

/-- Lower a term, with all guards. -/
def term (scope : Scope) : Term → GuardM Draft (Option Emitted)
  | .leaf _ (.constant c) => constant c
  | .leaf _ (.lexical d) => variableBox scope d false
  | .leaf _ (.declaration d) => variableBox scope d true
  | .op a c b [l, r] =>
    let t := Term.op a c b [l, r]
    if t.isCompilable scope then pair t c (term scope l) (term scope r) else handOver t
  | .op a c b [k] =>
    let t := Term.op a c b [k]
    if t.isCompilable scope && c = .negate then negation (term scope k) else handOver t
  | t => handOver t

/-- The box of the value, or a temporary if it is not boxed. -/
def plain : Emitted → Lowering.Destination
  | ⟨.scalar, b⟩ => .itself b
  | _ => .temp

/-- Where the value of a term goes, by its representation. -/
def destination (t : Term) (v : Emitted) : Except Diagnosis Lowering.Destination :=
  match t with
  | .op a c _ _ =>
    if c = .assign then .ok (plain v)
    else match c.kind, a.origin.bind Origin.targ, v with
      | .binary, some slot, _ => .ok (.pad slot)
      | .binary, none, ⟨.scalar, b⟩ => .ok (.itself b)
      | .binary, none, _ => .error .missingBinaryTarget
      | .unary, some slot, _ => .ok (.pad slot)
      | .unary, none, _ => .error .missingUnaryTarget
      | _, _, v => .ok (plain v)
  | _ => .ok (plain v)

def pushValue (t : Term) (v : Emitted) : GuardM Draft Unit := do
  match destination t v with
  | .error e => throw (.diagnosis e)
  | .ok (.itself b) => lift (Lowering.emit (.push b))
  | .ok (.pad slot) =>
    let b ← padBox slot
    store b v
    lift (Lowering.emit (.push b))
  | .ok .temp =>
    let b ← answer .temp (Lowering.emitBox .temp)
    store b v
    lift (Lowering.emit (.push b))

def deliver (t : Term) (v : Option Emitted) : GuardM Draft Unit :=
  match t.context with
  | .caller => throw (.diagnosis (.unimplementedContext .caller))
  | .unresolved => throw (.diagnosis .unresolvedContext)
  | .void | .list => return ()
  | .scalar =>
    match v with
    | none => throw (.diagnosis .missingScalar)
    | some v => pushValue t v

mutual

def root (scope : Scope) : Term → GuardM Draft Unit
  | .statement _ t => root scope t
  | .sequence _ ts => roots scope ts
  | t => do deliver t (← term scope t)

def roots (scope : Scope) : List Term → GuardM Draft Unit
  | [] => return ()
  | t :: ts => do
    root scope t
    roots scope ts

end

/-- The end of a unit, which asks for the op to go on with. -/
def finish : GuardM Draft Unit :=
  if Helper.answers .next then return () else throw (.answerless .next)

def codeOf (scope : Scope) (run : List Term) : Except Failure (List Instr) :=
  match (roots scope run >>= fun _ => finish) {} with
  | .ok _ d => .ok d.code
  | .error e _ => .error e

def handoversOf (scope : Scope) (run : List Term) : List Handover :=
  match (roots scope run >>= fun _ => finish) {} with
  | .ok _ d => d.handovers
  | .error _ d => d.handovers

/-! ### The guarded lowering is the plain one -/

section Lift

variable {σ α β : Type}

theorem lift_bind (x : EStateM Diagnosis σ α) (f : α → EStateM Diagnosis σ β) :
    lift (x >>= f) = lift x >>= fun a => lift (f a) := Effect.adapt_bind _ x f

theorem lift_map (f : α → β) (x : EStateM Diagnosis σ α) : lift (f <$> x) = f <$> lift x :=
  Effect.adapt_map _ f x

theorem lift_mapM (f : α → EStateM Diagnosis σ β) (l : List α) :
    lift (l.mapM f) = l.mapM fun a => lift (f a) := Effect.adapt_mapM _ f l

theorem lift_eq_ok {x : EStateM Diagnosis σ α} {s s' : σ} {a : α} :
    lift x s = .ok a s' ↔ x s = .ok a s' := by
  unfold lift EStateM.adaptExcept
  cases x s <;> simp

/-- A lifted step fails with diagnoses only. -/
theorem lift_eq_error {x : EStateM Diagnosis σ α} {s s' : σ} {e : Failure} :
    lift x s = .error e s' ↔ ∃ d, x s = .error d s' ∧ e = .diagnosis d := by
  unfold lift EStateM.adaptExcept
  cases x s with
  | ok a s₁ => simp
  | error d s₁ =>
    constructor
    · intro h
      cases h
      exact ⟨d, rfl, rfl⟩
    · rintro ⟨d', h, rfl⟩
      cases h
      rfl

end Lift

/-- The value of a plain step, with its representation. -/
def represent (x : LowerM (Option Operand)) : GuardM Draft (Option Emitted) :=
  Option.map Operand.emitted <$> lift x

theorem represent_eq_ok {x : LowerM (Option Operand)} {d d' : Draft} {v : Option Emitted} :
    represent x d = .ok v d' ↔ ∃ w, x d = .ok w d' ∧ w.map Operand.emitted = v := by
  simp only [represent, Effect.map_eq_ok, lift_eq_ok]

theorem represent_bind {α : Type} (x : LowerM α)
    (f : α → LowerM (Option Operand)) :
    represent (x >>= f) = lift x >>= fun a => represent (f a) := by
  simp only [represent, lift_bind, map_bind]

theorem bind_represent {α : Type} (x : LowerM (Option Operand))
    (f : Option Emitted → GuardM Draft α) :
    represent x >>= f = lift x >>= fun v => f (v.map Operand.emitted) := by
  simp only [represent, bind_map_left]

theorem toFloat_eq (v : Option Operand) :
    toFloat (v.map Operand.emitted) = lift (Lowering.toFloat v) := by
  rcases v with - | (r | i | u | b) <;> rfl

theorem toTarget_eq (v : Option Operand) :
    toTarget (v.map Operand.emitted) = lift (Lowering.toTarget v) := by
  rcases v with - | (r | i | u | b) <;> rfl

theorem store_eq (b : Nat) (v : Operand) : store b v.emitted = lift (Lowering.store b v) := by
  cases v <;> rfl

theorem constant_eq (c : Constant) : constant c = represent (Lowering.constant c) := by
  cases c <;> rfl

theorem variableBox_eq (scope : Scope) (d : DeclId) (declares : Bool) :
    variableBox scope d declares = represent (Lowering.variableBox scope d declares) := by
  unfold variableBox Lowering.variableBox
  cases scope.get? d with
  | none => rfl
  | some v => cases declares <;> rfl

theorem negation_eq (x : LowerM (Option Operand)) :
    negation (represent x) = represent (Lowering.negation x) := by
  simp only [negation, Lowering.negation, bind_represent, represent_bind, toFloat_eq]
  rfl

theorem assignment_eq (x y : LowerM (Option Operand)) :
    assignment (represent x) (represent y) = represent (Lowering.assignment x y) := by
  simp only [assignment, Lowering.assignment, bind_represent, represent_bind, toTarget_eq]
  refine bind_congr fun l => bind_congr fun dst => bind_congr fun r => ?_
  cases r with
  | none => rfl
  | some v =>
    simp only [Option.map_some, store_eq, represent_bind]
    rfl

/-- The operator is looked at again, and is the same. -/
theorem binary_eq {c : Operator} {f : FloatOp} (hf : c.floatOp? = some f) (assigning : Bool)
    (x y : LowerM (Option Operand)) : binary c assigning (represent x) (represent y) =
      represent (Lowering.binary f assigning x y) := by
  simp only [binary, Lowering.binary, hf, bind_represent, represent_bind, toFloat_eq]
  cases assigning with
  | false => rfl
  | true =>
    simp only [if_true, represent_bind, toTarget_eq]
    rfl

theorem handOver_eq (t : Term) : handOver t = represent (Lowering.handOver t) := by
  unfold handOver Lowering.handOver
  split
  · rfl
  · rw [represent_bind]
    refine bind_congr fun _ => ?_
    cases t.detachment with
    | error e => rfl
    | ok f =>
      dsimp only
      split <;> rfl

theorem pair_of_floatOp {c : Operator} {f : FloatOp} (hf : c.floatOp? = some f) (t : Term)
    (x y : GuardM Draft (Option Emitted)) : pair t c x y = binary c t.isAssigning x y := by
  cases c
  case add | subtract | multiply | divide => rfl
  all_goals cases hf

theorem pair_of_other {c : Operator} (hf : c.floatOp? = none) (hc : c ≠ .assign) (t : Term)
    (x y : GuardM Draft (Option Emitted)) : pair t c x y = handOver t := by
  cases c
  case add | subtract | multiply | divide => cases hf
  case assign => exact absurd rfl hc
  all_goals rfl

/-- **The guarded lowering of a term is the plain one**, and says how its value is represented.

Along the recursion of the plain lowering; each guarded step has an equation of its own. -/
theorem term_eq (scope : Scope) (t : Term) : term scope t = represent (Lowering.term scope t) := by
  fun_induction Lowering.term scope t with
  | case1 a c => rw [term, constant_eq]
  | case2 a d => rw [term, variableBox_eq]
  | case3 a d => rw [term, variableBox_eq]
  | case4 a c b l r t hc f hf ihl ihr =>
    rw [term, if_pos hc, pair_of_floatOp hf, ihl, ihr, binary_eq hf]
  | case5 a b l r t hc hf ihl ihr =>
    rw [term, if_pos hc, pair, ihl, ihr, assignment_eq]
  | case6 a c b l r t hc hf assign => rw [term, if_pos hc, pair_of_other hf assign, handOver_eq]
  | case7 a c b l r t hc => rw [term, if_neg hc, handOver_eq]
  | case8 a c b k t hc ih => rw [term, if_pos hc, ih, negation_eq]
  | case9 a c b k t hc => rw [term, if_neg hc, handOver_eq]
  | case10 t => rw [term, handOver_eq] <;> assumption

theorem destination_eq (t : Term) (v : Operand) :
    destination t v.emitted = Lowering.destination t v := by
  have same : plain v.emitted = Lowering.Destination.plain v := by cases v <;> rfl
  cases t
  case op a c b ts =>
    unfold destination Lowering.destination
    by_cases hc : c = .assign
    · simp only [if_pos hc, same]
    · simp only [if_neg hc]
      cases c.kind <;> cases a.origin.bind Origin.targ <;> cases v <;> rfl
  all_goals exact congrArg Except.ok same

theorem pushValue_eq (t : Term) (v : Operand) :
    pushValue t v.emitted = lift (Lowering.pushValue t v) := by
  unfold pushValue Lowering.pushValue
  rw [destination_eq]
  rcases Lowering.destination t v with e | (b | slot | -)
  · rfl
  · rfl
  · simp only [lift_bind, ← store_eq]
    rfl
  · simp only [lift_bind, ← store_eq]
    rfl

theorem deliver_eq (t : Term) (v : Option Operand) :
    deliver t (v.map Operand.emitted) = lift (Lowering.deliver t v) := by
  unfold deliver Lowering.deliver
  cases t.context
  case scalar =>
    cases v with
    | none => rfl
    | some v => exact pushValue_eq t v
  all_goals rfl

theorem leave_eq (scope : Scope) (t : Term) : (term scope t >>= deliver t) =
    lift (Lowering.term scope t >>= Lowering.deliver t) := by
  rw [term_eq, bind_represent, lift_bind]
  exact bind_congr fun v => deliver_eq t v

mutual

theorem root_eq (scope : Scope) : ∀ t : Term, root scope t = lift (Lowering.root scope t)
  | .statement _ t => by rw [root, Lowering.root, root_eq scope t]
  | .sequence _ ts => by rw [root, Lowering.root, roots_eq scope ts]
  | .leaf a l => by rw [root, Lowering.root, leave_eq] <;> simp
  | .op a c b ts => by rw [root, Lowering.root, leave_eq] <;> simp
  | .control a f ts => by rw [root, Lowering.root, leave_eq] <;> simp

theorem roots_eq (scope : Scope) : ∀ ts : List Term, roots scope ts = lift (Lowering.roots scope ts)
  | [] => by rw [roots, Lowering.roots]; rfl
  | t :: ts => by
    rw [roots, Lowering.roots, lift_bind, root_eq scope t, roots_eq scope ts]

end

/-- The helper that is asked at the end of a unit has an answer. -/
theorem unit_eq (scope : Scope) (run : List Term) :
    (roots scope run >>= fun _ => finish) = lift (Lowering.roots scope run) := by
  rw [roots_eq]
  exact bind_pure _

theorem codeOf_eq (scope : Scope) (run : List Term) :
    codeOf scope run = (Lowering.codeOf scope run).mapError .diagnosis := by
  unfold codeOf Lowering.codeOf
  rw [unit_eq, lift, EStateM.adaptExcept]
  cases Lowering.roots scope run {} <;> rfl

theorem handoversOf_eq (scope : Scope) (run : List Term) :
    handoversOf scope run = Lowering.handoversOf scope run := by
  unfold handoversOf Lowering.handoversOf
  rw [unit_eq, lift, EStateM.adaptExcept]
  cases Lowering.roots scope run {} <;> rfl

/-! ### The guarded compiler -/

variable (job : Job)

def ofExcept {α : Type} : Except Failure α → GuardM Nat α
  | .ok a => return a
  | .error e => throw e

def handoverEdits (h : Handover) (below : GuardM Nat (List Edit)) :
    GuardM Nat (OpId × List Edit) := do
  let nested ← below
  let d ← lift (Job.ofExcept h.detachment)
  return (d.root, nested ++ [job.detachEdit d])

/-- Compile a run to a batch of edits, with all guards. -/
def compileRun (run : List Term)
    (below : (h : Handover) → h ∈ handoversOf job.scope run → GuardM Nat (List Edit)) :
    GuardM Nat (List Edit) := do
  let (first, last) ← lift (Job.ofExcept (Job.span run))
  let n ← lift Job.newUnit
  let parts ← (handoversOf job.scope run).attach.mapM fun h =>
    handoverEdits job h.1 (below h.1 h.2)
  let code ← ofExcept (codeOf job.scope run)
  return (parts.flatMap Prod.snd) ++
    [job.replaceEdit first last ⟨Job.unitName n, code, parts.map Prod.fst⟩]

/-- Compile the runs of a list of terms, with all guards. -/
def compileTerms (roots : List Term) : GuardM Nat (List Edit) := do
  let batches ← (Region.partition job.scope roots).attach.mapM fun
    | ⟨.interpreted _, _⟩ => return []
    | ⟨.compiled run, _hrun⟩ =>
      job.tolerate (compileRun job run fun h _hh => compileTerms h.term.kids)
  return batches.flatten
termination_by Term.weight roots
decreasing_by
  rw [Region.partition_eq_ofTerms] at _hrun
  exact (Job.below_handover _hrun (handoversOf_eq _ _ ▸ _hh)).2

/-- Compile a program, with all guards. -/
def compile (c : Compiler) (scope : Scope) (owner : OwnerId) (roots : List Term) :
    Except Failure (List Edit) × Compiler :=
  match compileTerms ⟨scope, owner, c.options.strict⟩ roots c.nextUnit with
  | .ok edits n => (.ok edits, { c with nextUnit := n })
  | .error e n => (.error e, { c with nextUnit := n })

/-- The edits of a run, with those of what is below the terms that it hands over. -/
def runEdits (run : List Term) : GuardM Nat (List Edit) :=
  compileRun job run fun h _ => compileTerms job h.term.kids

def regionEdits : Region → GuardM Nat (List Edit)
  | .interpreted _ => return []
  | .compiled run => job.tolerate (runEdits job run)

theorem compileTerms_eq (roots : List Term) : compileTerms job roots =
    List.flatten <$> (Region.ofTerms job.scope roots).mapM (regionEdits job) := by
  rw [compileTerms, ← Region.partition_eq_ofTerms, ← mapM_attach _ (regionEdits job),
    map_eq_pure_bind]
  congr 2
  funext ⟨r, hr⟩
  cases r <;> rfl

/-! ### The guarded compiler is the plain one -/

theorem ofExcept_mapError {α : Type} (x : Except Diagnosis α) :
    ofExcept (x.mapError .diagnosis) = lift (Job.ofExcept x) := by
  cases x <;> rfl

variable {job}

theorem handoverEdits_eq (h : Handover) (x : CompileM (List Edit)) :
    handoverEdits job h (lift x) = lift (job.handoverEdits h x) := by
  simp only [handoverEdits, Job.handoverEdits, lift_bind]
  rfl

theorem runEdits_lift {run : List Term} (below : ∀ h ∈ Lowering.handoversOf job.scope run,
      compileTerms job h.term.kids = lift (job.compileTerms h.term.kids)) :
    runEdits job run = lift (job.runEdits run) := by
  unfold runEdits compileRun
  rw [mapM_attach (handoversOf job.scope run)
    (fun h => handoverEdits job h (compileTerms job h.term.kids)), Job.runEdits_eq, handoversOf_eq,
    mapM_congr fun h hh => (congrArg (handoverEdits job h) (below h hh)).trans
      (handoverEdits_eq h (job.compileTerms h.term.kids)), ← lift_mapM, codeOf_eq,
    ofExcept_mapError, lift_bind]
  refine bind_congr fun ends => ?_
  obtain ⟨first, last⟩ := ends
  simp only [lift_bind]
  rfl

/-- **The guarded compiler does what the plain one does**, run by run. -/
theorem compileTerms_lift (roots : List Term) :
    compileTerms job roots = lift (job.compileTerms roots) := by
  -- by induction on the size: what is below a handed-over term is smaller
  induction hw : Term.weight roots using Nat.strongRecOn generalizing roots with
  | _ w ih =>
    subst hw
    rw [compileTerms_eq, Job.compileTerms_eq, lift_map, lift_mapM]
    refine congrArg (List.flatten <$> ·) (mapM_congr fun r hr => ?_)
    cases r with
    | interpreted t => rfl
    | compiled run =>
      have run_lift := runEdits_lift fun h hh => ih _ (Job.below_handover hr hh).2 _ rfl
      rw [regionEdits, Job.regionEdits, run_lift]
      exact Job.tolerate_adapt _ _

theorem compile_lift (c : Compiler) (scope : Scope) (owner : OwnerId) (roots : List Term) :
    compile c scope owner roots =
      ((c.compile scope owner roots).1.mapError .diagnosis, (c.compile scope owner roots).2) := by
  unfold compile Compiler.compile
  rw [compileTerms_lift, lift, EStateM.adaptExcept]
  cases Job.compileTerms ⟨scope, owner, c.options.strict⟩ roots c.nextUnit <;> rfl

end Guarded

end Graft
