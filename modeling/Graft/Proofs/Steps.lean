import Graft.Machine.Dispatch
import Graft.Proofs.HostTree

/-! # Single ops

What executing one op can do to the run.  `Machine.step` is an op executed for itself:
whether it goes on with its branch is its answer, where the branch leads is not its
concern.  An op that is interpreted throws its fault (`Machine.steady_step`); the
instructions of a unit record theirs and run on, and the unit throws the first at its end
(`Machine.Steady.runUnit`).

So a recorded fault is never left behind by an op that has succeeded.  That is the invariant
which lets all later proofs look at faults in one place: a machine between two ops has none,
and an op that fails says which.  For units it is carried through the list of instructions,
where the first fault stays and later instructions cannot replace it; code that does not end
early goes on after the op that the unit stands for (`Machine.runCode_eq`).
-/

namespace Graft

/-- The instructions of a compiled unit. -/
def OpKind.code : OpKind → List Instr
  | native unit => unit.code
  | _ => []

namespace Machine

/-- Execute an op for itself; the answer is whether it goes on with its branch. -/
def step (id : OpId) (f : Face) : MachineM Bool :=
  Option.isSome <$> exec id { kind := f.kind, other := some id, targ := f.targ, stacked := f.stacked }

/-- Instructions in order; `callBack` runs a fragment. -/
def performAll (callBack : OpId → MachineM Unit) : List Instr → Registers → MachineM Registers
  | [], r => return r
  | .call root :: code, r => do
    callBack root
    performAll callBack code r
  | i :: code, r => do
    performAll callBack code (← perform r i)

/-- Do something unless a fault is recorded. -/
def unlessFailed (x : MachineM Unit) : MachineM Unit := do
  if (← get).fault.isSome then return () else x

/-- Run a fragment above floors of its own. -/
def above (x : MachineM Unit) : MachineM Unit := do
  let frame ← modifyGet enter
  unlessFailed x
  modify fun m => m.leave frame

/-- Throw the fault that is recorded. -/
def raise : MachineM Unit := do
  match (← get).fault with
  | some f => throw (.fault f)
  | none => return ()

/-- Execute the op of a unit: its instructions run on after a fault, which then counts as
the op's. -/
def runUnit (id : OpId) (code : List Instr) (callBack : OpId → MachineM Unit) : MachineM Unit := do
  modify fun m => { m with current := some id }
  let _ ← performAll callBack code {}
  raise

/-! ### Single ops -/

theorem exec_eq_step {id : OpId} {op : Op} :
    exec id op = (fun b => if b then op.other else op.next) <$> step id op.face := by
  unfold step exec
  cases h : op.kind
  case arith => cases hs : op.stacked <;> simp [Op.face, h, targetOf, hs]
  case native => simp only [Op.face, h]; rfl
  all_goals simp [Op.face, h, apply_ite]

/-- Only `and`, `or` and conditionals go on with a branch. -/
theorem step_eq_false {id : OpId} {f : Face} {m m' : Machine} {b : Bool}
    (h : step id f m = .ok b m') (hs : f.kind.shape ≠ .short) (hc : f.kind.shape ≠ .choice) :
    b = false := by
  have stays : step id f = (fun _ => false) <$> step id f := by
    unfold step exec
    cases hk : f.kind <;> simp only [hk, OpKind.shape, ne_eq, not_true_eq_false] at hs hc ⊢
    case arith => simp [targetOf]
    case native => rfl
    all_goals simp
  rw [stays] at h
  obtain ⟨-, -, hb⟩ := Effect.map_eq_ok.mp h
  exact hb.symm

/-! ### Recorded and thrown faults -/

/-- A computation that starts and ends without a recorded fault, or halts: not for want of
fuel, and a fault that it throws is the first one. -/
def Steady {α : Type} (x : MachineM α) : Prop := ∀ m, m.fault = none →
  match x m with
  | .ok _ m' => m'.fault = none
  | .error h m' => h ≠ .outOfFuel ∧ ∀ f, h = .fault f → (m'.fail f).fault = some f

/-- A computation that records its faults and does not throw them. -/
def Recording {α : Type} (x : MachineM α) : Prop := ∀ m h m', x m = .error h m' → h = .overflow

section

variable {α β : Type}

theorem Steady.bind {x : MachineM α} {k : α → MachineM β} (hx : Steady x) (hk : ∀ a, Steady (k a)) :
    Steady (x >>= k) := by
  intro m hm
  have h := hx m hm
  cases hxm : x m with
  | ok a m' =>
    rw [hxm] at h
    rw [Effect.bind_ok hxm]
    exact hk a m' h
  | error e m' =>
    rw [hxm] at h
    rw [Effect.bind_error hxm]
    exact h

theorem Steady.pure (a : α) : Steady (pure a) := fun _ hm => hm

theorem Steady.map {x : MachineM α} (k : α → β) (hx : Steady x) : Steady (k <$> x) := by
  rw [← bind_pure_comp]
  exact hx.bind fun a => .pure (k a)

theorem Steady.throw_fault (α : Type) (f : Fault) : Steady (throw (.fault f) : MachineM α) := by
  intro m hm
  refine ⟨by simp, fun f' hf => ?_⟩
  cases hf
  simp [fail, hm]

theorem Steady.modify {k : Machine → Machine} (hk : ∀ m, (k m).fault = m.fault) :
    Steady (modify k) := fun m hm => (hk m).trans hm

theorem Steady.get : Steady get := fun _ hm => hm

theorem Steady.pop (id : OpId) : Steady (pop id) := by
  intro m hm
  unfold Machine.pop
  rw [Effect.get_bind]
  unfold pop?
  cases m.top? with
  | some r => exact hm
  | none => exact Steady.throw_fault Ref _ m hm

theorem Steady.peek (id : OpId) : Steady (peek id) := by
  intro m hm
  unfold Machine.peek
  rw [Effect.get_bind]
  cases m.top? with
  | some r => exact hm
  | none => exact Steady.throw_fault Ref _ m hm

theorem Steady.padRef (slot : Slot) : Steady (padRef slot) := by
  intro m hm
  unfold Machine.padRef
  rw [Effect.get_bind]
  cases m.padRef? slot with
  | some r => exact hm
  | none => exact Steady.throw_fault Ref _ m hm

theorem Steady.introduceIf (intro_ : Bool) (slot : Slot) : Steady (introduceIf intro_ slot) := by
  cases intro_
  · exact .pure ()
  intro m hm
  unfold Machine.introduceIf introduce
  rw [if_pos rfl, Effect.get_bind]
  unfold introduce?
  cases m.padValue? slot with
  | some v => exact hm
  | none => exact Steady.throw_fault Unit _ m hm

theorem Steady.target (slot : Option Slot) : Steady (target slot) := by
  cases slot with
  | none => exact fun m hm => hm
  | some slot => exact .padRef slot

theorem Steady.calculate (a : Arithmetic) (x y : Float) : Steady (calculate a x y) := by
  unfold Machine.calculate
  cases a.apply x y with
  | ok z => exact .pure z
  | error e =>
    cases e with
    | zeroModulus => exact .throw_fault _ _
    | overflow => exact fun m hm => ⟨by simp [ArithmeticError.halt], fun f hf => nomatch hf⟩

theorem fault_write (m : Machine) (r : Ref) (v : Scalar) : (m.write r v).fault = m.fault := by
  cases r <;> rfl

theorem fault_copy (m : Machine) (r s : Ref) : (m.copy r s).fault = m.fault := by
  unfold copy
  split
  · rfl
  · exact fault_write m r _

theorem Steady.yield (dst : Ref) (x : Float) : Steady (yield dst x) :=
  .bind (.modify fun m => fault_write m dst _) fun _ => .modify fun _ => rfl

/-- **An op records no fault**: it throws it. -/
theorem steady_step (id : OpId) (f : Face) : Steady (step id f) := by
  refine .map _ ?_
  unfold exec
  cases f.kind <;> dsimp only
  case const v => exact .bind (fun m hm => hm) fun _ => .bind (.modify fun _ => rfl) fun _ => .pure _
  case lexical slot new =>
    exact .bind (.introduceIf new slot) fun _ => .bind (.padRef slot) fun _ =>
      .bind (.modify fun _ => rfl) fun _ => .pure _
  case arith a =>
    refine .bind (.pop id) fun r => .bind (.pop id) fun l => .bind .get fun m =>
      .bind (.calculate a _ _) fun x => .bind ?_ fun dst => .bind (.yield dst x) fun _ => .pure _
    unfold targetOf
    split
    · exact .pure l
    · exact .target _
  case negate =>
    exact .bind (.pop id) fun b => .bind .get fun m => .bind (.target _) fun dst =>
      .bind (.yield dst _) fun _ => .pure _
  case assign =>
    exact .bind (.pop id) fun src => .bind (.pop id) fun dst =>
      .bind (.modify fun m => fault_copy m dst src) fun _ => .bind (.modify fun _ => rfl) fun _ => .pure _
  case and =>
    refine .bind (.peek id) fun b => .bind .get fun m => ?_
    split
    · exact .bind (.map _ (.pop id)) fun _ => .pure _
    · exact .pure _
  case or =>
    refine .bind (.peek id) fun b => .bind .get fun m => ?_
    split
    · exact .pure _
    · exact .bind (.map _ (.pop id)) fun _ => .pure _
  case cond => exact .bind (.pop id) fun b => .bind .get fun m => .pure _
  case mark => exact .bind (.modify fun _ => rfl) fun _ => .pure _
  case statements => exact .pure _
  case stub => exact .pure _
  case native unit => exact .throw_fault _ _

theorem steady_exec (id : OpId) (op : Op) : Steady (exec id op) := by
  rw [exec_eq_step]
  exact .map _ (steady_step id op.face)

theorem Recording.bind {x : MachineM α} {k : α → MachineM β} (hx : Recording x)
    (hk : ∀ a, Recording (k a)) : Recording (x >>= k) := by
  intro m h m' hxk
  cases hxm : x m with
  | ok a m₁ => exact hk a m₁ h m' (by rwa [Effect.bind_ok hxm] at hxk)
  | error e m₁ =>
    rw [Effect.bind_error hxm] at hxk
    cases hxk
    exact hx m _ _ hxm

theorem Recording.perform (r : Registers) (i : Instr) : Recording (perform r i) := by
  intro m h m' hm
  have orFail : ∀ f o, Recording (orFail f o) := by
    intro f o m h m' ho
    cases o <;> cases ho
  cases i
  case pad slot =>
    exact (Recording.bind (k := fun b => pure (r.withBox b)) (orFail _ _)
      fun _ _ _ _ h => nomatch h) m h m' hm
  case pop =>
    exact (Recording.bind (k := fun b => pure (r.withBox b)) (orFail _ _)
      fun _ _ _ _ h => nomatch h) m h m' hm
  all_goals cases hm

theorem Recording.performAll {callBack : OpId → MachineM Unit} (hc : ∀ root, Recording (callBack root))
    (code : List Instr) (r : Registers) : Recording (performAll callBack code r) := by
  induction code generalizing r with
  | nil => exact fun m h m' hm => nomatch hm
  | cons i code ih =>
    cases i
    case call root => exact .bind (hc root) fun _ => ih r
    all_goals exact .bind (.perform r _) fun r' => ih r'

theorem Steady.runUnit (id : OpId) (code : List Instr) {callBack : OpId → MachineM Unit}
    (hc : ∀ root, Recording (callBack root)) : Steady (runUnit id code callBack) := by
  intro m hm
  have hrec := Recording.performAll hc code {}
  unfold Machine.runUnit
  rw [Effect.modify_bind]
  cases hp : Machine.performAll callBack code {} { m with current := some id } with
  | ok r m' =>
    rw [Effect.bind_ok hp]
    unfold raise
    rw [Effect.get_bind]
    cases hf : m'.fault with
    | none => exact hf
    | some f =>
      refine ⟨by simp, fun f' h => ?_⟩
      cases h
      simp [fail, hf]
  | error h m' =>
    rw [Effect.bind_error hp]
    obtain rfl := hrec _ _ _ hp
    exact ⟨by simp, fun f hf => nomatch hf⟩

/-! ### Instructions -/

theorem current_write (m : Machine) (r : Ref) (v : Scalar) : (m.write r v).current = m.current := by
  cases r <;> rfl

theorem current_copy (m : Machine) (r s : Ref) : (m.copy r s).current = m.current := by
  unfold copy
  split
  · rfl
  · exact current_write m r _

/-- An instruction does not change which unit is being executed. -/
theorem current_perform {r r' : Registers} {i : Instr} {m m' : Machine}
    (h : perform r i m = .ok r' m') : m'.current = m.current := by
  have orFail : ∀ {f : Fault} {o : Option (Ref × Machine)} {b : Ref} {m₁ : Machine},
      (∀ b' m', o = some (b', m') → m'.current = m.current) →
      orFail f o m = .ok b m₁ → m₁.current = m.current := by
    intro f o b m₁ ho h
    cases o with
    | some p => cases h; exact ho _ _ rfl
    | none => cases h; rfl
  unfold perform at h
  cases i <;> dsimp only at h
  case pad slot =>
    rw [Effect.get_bind] at h
    obtain ⟨b, m₁, hb, h⟩ := Effect.bind_eq_ok.mp h
    cases h
    refine orFail (fun b' m' ho => ?_) hb
    obtain ⟨b₀, -, he⟩ := Option.map_eq_some_iff.mp ho
    cases he
    rfl
  case pop =>
    rw [Effect.get_bind] at h
    obtain ⟨b, m₁, hb, h⟩ := Effect.bind_eq_ok.mp h
    cases h
    refine orFail (fun b' m' ho => ?_) hb
    unfold pop? at ho
    cases htop : m.top? <;> rw [htop] at ho <;> cases ho
    rfl
  case clear slot =>
    cases h
    unfold introduce?
    cases m.padValue? slot <;> rfl
  case storeNum b i => cases h; exact current_write m _ _
  case storeInt b i => cases h; exact current_write m _ _
  case storeUInt b i => cases h; exact current_write m _ _
  case copy b c => cases h; exact current_copy m _ _
  all_goals cases h; rfl

/-- **Code that does not end early** goes on after the op that it stands for. -/
theorem runCode_eq {g : Graph} {callBack : OpId → MachineM Unit} {code : List Instr}
    (hret : ∀ next, .ret next ∉ code) (r : Registers) :
    runCode g callBack code r = (do
      let _ ← performAll callBack code r
      return (← get).successor g) := by
  induction code generalizing r with
  | nil => simp [runCode, performAll]
  | cons i code ih =>
    have rest := ih fun next h => hret next (List.mem_cons_of_mem i h)
    cases i
    case ret next => exact absurd List.mem_cons_self (hret next)
    all_goals simp only [runCode, performAll, rest, bind_assoc]

theorem performAll_congr {callBack callBack' : OpId → MachineM Unit} {code : List Instr}
    (h : ∀ root, .call root ∈ code → callBack root = callBack' root) (r : Registers) :
    performAll callBack code r = performAll callBack' code r := by
  induction code generalizing r with
  | nil => rfl
  | cons i code ih =>
    have rest := ih fun root hr => h root (List.mem_cons_of_mem i hr)
    cases i
    case call root => simp only [performAll, rest, h root List.mem_cons_self]
    all_goals simp only [performAll, rest]

theorem performAll_append (callBack : OpId → MachineM Unit) (c c' : List Instr) (r : Registers) :
    performAll callBack (c ++ c') r =
      (do performAll callBack c' (← performAll callBack c r)) := by
  induction c generalizing r with
  | nil => simp [performAll]
  | cons i c ih => cases i <;> simp [performAll, ih]

theorem current_performAll {callBack : OpId → MachineM Unit}
    (hc : ∀ root m m', callBack root m = .ok () m' → m'.current = m.current)
    {code : List Instr} {r r' : Registers} {m m' : Machine}
    (h : performAll callBack code r m = .ok r' m') : m'.current = m.current := by
  induction code generalizing r m with
  | nil => cases h; rfl
  | cons i code ih =>
    cases i
    case call root =>
      obtain ⟨_, m₁, h₁, h⟩ := Effect.bind_eq_ok.mp h
      exact (ih h).trans (hc root m m₁ h₁)
    all_goals
      obtain ⟨r₁, m₁, h₁, h⟩ := Effect.bind_eq_ok.mp h
      exact (ih h).trans (current_perform h₁)

/-- The first fault of a run is the one that counts. -/
theorem fail_of_fault {m : Machine} {f f' : Fault} (h : m.fault = some f) : m.fail f' = m := by
  cases m
  simp only at h
  subst h
  rfl

theorem current_above {x : MachineM Unit} {m m' : Machine} (h : above x m = .ok () m') :
    m'.current = m.current := by
  obtain ⟨frame, m₁, hin, hrest⟩ := Effect.bind_eq_ok.mp h
  obtain ⟨_, m₂, -, hout⟩ := Effect.bind_eq_ok.mp hrest
  cases hin
  cases hout
  rfl

end

end Machine

end Graft
