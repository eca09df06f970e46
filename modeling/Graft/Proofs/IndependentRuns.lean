import Graft.Proofs.Configurations
import Graft.Proofs.Succession

/-! # Runs do not leak into each other

A run clears the stack, the temporaries, the floors and the recorded fault before it starts.  Three
things it leaves as the last run left them: the values that were saved, the op of the unit that was
last executed, and the log.  They lie *under* what the run does (`Machine.atop`).  It adds to the
saved values and takes away what it has added; it reads the op of a unit only in a unit, which has
set it; and it never reads the log.  So a run on top of such a past is the run of a machine that has
none, on top of the same past, step by step (`Machine.dispatch_atop`) and as a whole
(`Machine.exists_run_eq`).  Two machines with the same pad therefore have the same runs.

`Blind` says of a computation that it does the same on top of any past.  It is closed under sequence
and choice, so ops are blind because what they are made of is.  Units are not blind by themselves:
the op that a unit stands for is a thing of the past until the unit sets it, and so their lemma is
about machines in which it has been set.

A graph without an entry is a special case.  Nothing is run, so nothing is cleared, and the machine
is left with what it had; there the statement is about machines that the graph can have
(`Serves`).
-/

namespace Graft

open Effect (stateOf outcomeOf)

namespace Machine

/-- **What a run finds and does not clear.** -/
structure Past where
  saves : List (Slot × Scalar)
  current : Option OpId
  log : List Float

/-- The machine with a past under what it has done itself. -/
def atop (p : Past) (m : Machine) : Machine :=
  { m with saves := m.saves ++ p.saves, current := m.current <|> p.current, log := m.log ++ p.log }

/-- What a computation leaves, with a past under it. -/
def atopResult {α : Type} (p : Past) : EStateM.Result Halt Machine α → EStateM.Result Halt Machine α
  | .ok a m => .ok a (m.atop p)
  | .error h m => .error h (m.atop p)

/-- **The computation does not see the past.** -/
def Blind {α : Type} (p : Past) (x : MachineM α) : Prop := ∀ m, x (m.atop p) = atopResult p (x m)

variable {α β : Type} {p : Past} {m : Machine}

/-! ### Machines -/

theorem atop_of_current {id : OpId} (h : m.current = some id) : (m.atop p).current = some id := by
  rw [atop, h]
  rfl

theorem atop_write (m : Machine) (r : Ref) (v : Scalar) :
    (m.atop p).write r v = (m.write r v).atop p := by
  cases r <;> rfl

theorem atop_copy (m : Machine) (r s : Ref) : (m.atop p).copy r s = (m.copy r s).atop p := by
  unfold copy
  split
  · rfl
  · exact atop_write m r _

theorem atop_pop? (m : Machine) :
    (m.atop p).pop? = m.pop?.map fun (r, m') => (r, m'.atop p) := by
  unfold pop?
  have same : (m.atop p).top? = m.top? := rfl
  rw [same]
  cases m.top? <;> rfl

theorem atop_introduce? (m : Machine) (slot : Slot) :
    (m.atop p).introduce? slot = (m.introduce? slot).map fun m' => m'.atop p := by
  unfold introduce?
  have same : (m.atop p).padValue? slot = m.padValue? slot := rfl
  rw [same]
  cases m.padValue? slot <;> rfl

theorem atop_leave (m : Machine) {frame : Frame} {id : OpId} (h : frame.current = some id) :
    (m.atop p).leave frame = (m.leave frame).atop p := by
  simp [leave, atop, h]

theorem atop_foldl_write (undone : List (Slot × Scalar)) (m : Machine) :
    undone.foldl (fun (m : Machine) s => m.write (.pad s.1) s.2) (m.atop p) =
      (undone.foldl (fun (m : Machine) s => m.write (.pad s.1) s.2) m).atop p := by
  induction undone generalizing m with
  | nil => rfl
  | cons s undone ih => exact ih (m.write (.pad s.1) s.2)

/-- A machine puts back what it has saved itself, and what was saved before stays. -/
theorem atop_unwind (m : Machine) : (m.atop p).unwind p.saves.length = (m.unwind 0).atop p := by
  have saves : (m.atop p).saves = m.saves ++ p.saves := rfl
  unfold unwind
  rw [saves, List.length_append, Nat.add_sub_cancel, List.take_left, List.drop_left, Nat.sub_zero,
    List.take_length, List.drop_length]
  dsimp only
  rw [atop_foldl_write]
  rfl

theorem atop_forget (m : Machine) : (m.atop p).forget p.saves.length = (m.forget 0).atop p := by
  have saves : (m.atop p).saves = m.saves ++ p.saves := rfl
  unfold forget
  rw [saves, List.length_append, Nat.add_sub_cancel, List.drop_left, Nat.sub_zero, List.drop_length]
  rfl

/-! ### Interpreted ops -/

namespace Blind

theorem pure (a : α) : Blind p (pure a) := fun _ => rfl

theorem throw (h : Halt) : Blind p (throw h : MachineM α) := fun _ => rfl

theorem modify {f : Machine → Machine} (h : ∀ m, f (m.atop p) = (f m).atop p) :
    Blind p (modify f) := by
  intro m
  show EStateM.Result.ok PUnit.unit (f (m.atop p)) = .ok PUnit.unit ((f m).atop p)
  rw [h]

theorem bind {x : MachineM α} {k : α → MachineM β} (hx : Blind p x) (hk : ∀ a, Blind p (k a)) :
    Blind p (x >>= k) := by
  intro m
  have first := hx m
  cases h : x m with
  | ok a m' =>
    rw [h] at first
    rw [Effect.bind_ok first, Effect.bind_ok h]
    exact hk a m'
  | error e m' =>
    rw [h] at first
    rw [Effect.bind_error first, Effect.bind_error h]
    rfl

theorem map {x : MachineM α} (k : α → β) (hx : Blind p x) : Blind p (k <$> x) := by
  rw [← bind_pure_comp]
  exact hx.bind fun a => .pure (k a)

/-- What is read of a machine must be the same with the past under it. -/
theorem get_bind {k : Machine → MachineM α} (same : ∀ m, k (m.atop p) = k m)
    (hk : ∀ m, Blind p (k m)) : Blind p (get >>= k) := by
  intro m
  rw [Effect.get_bind, Effect.get_bind, same]
  exact hk m m

theorem pop (id : OpId) : Blind p (pop id) := by
  intro m
  unfold Machine.pop
  rw [Effect.get_bind, Effect.get_bind, atop_pop?]
  cases m.pop? <;> rfl

theorem introduce (slot : Slot) : Blind p (introduce slot) := by
  intro m
  unfold Machine.introduce
  rw [Effect.get_bind, Effect.get_bind, atop_introduce?]
  cases m.introduce? slot <;> rfl

theorem peek (id : OpId) : Blind p (peek id) := by
  refine .get_bind (fun _ => rfl) fun m => ?_
  split
  · exact .pure _
  · exact .throw _

theorem padRef (slot : Slot) : Blind p (padRef slot) := by
  refine .get_bind (fun _ => rfl) fun m => ?_
  split
  · exact .pure _
  · exact .throw _

theorem temp (v : Scalar) : Blind p (temp v) := fun _ => rfl

theorem pushRef (r : Ref) : Blind p (pushRef r) := fun _ => rfl

theorem target (slot : Option Slot) : Blind p (target slot) := by
  cases slot with
  | none => exact .temp _
  | some slot => exact .padRef slot

theorem yield (dst : Ref) (x : Float) : Blind p (yield dst x) :=
  .bind (.modify fun m => atop_write m dst _) fun _ => .pushRef dst

theorem calculate (a : Arithmetic) (x y : Float) : Blind p (calculate a x y) := by
  unfold Machine.calculate
  split
  · exact .pure _
  · exact .throw _

end Blind

/-- **An op that is interpreted does not see the past.** -/
theorem blind_exec (id : OpId) (op : Op) : Blind p (exec id op) := by
  unfold exec
  cases op.kind <;> dsimp only
  case const v => exact .bind (.temp v) fun _ => .bind (.pushRef _) fun _ => .pure _
  case lexical slot new =>
    refine .bind ?_ fun _ => .bind (.padRef slot) fun _ => .bind (.pushRef _) fun _ => .pure _
    unfold introduceIf
    split
    · exact .introduce slot
    · exact .pure _
  case arith a =>
    refine .bind (.pop id) fun right => .bind (.pop id) fun left =>
      .get_bind (fun _ => rfl) fun m => .bind (.calculate a _ _) fun x => .bind ?_ fun dst =>
        .bind (.yield dst x) fun _ => .pure _
    unfold targetOf
    split
    · exact .pure _
    · exact .target _
  case negate =>
    exact .bind (.pop id) fun box => .get_bind (fun _ => rfl) fun m => .bind (.target _) fun dst =>
      .bind (.yield dst _) fun _ => .pure _
  case assign =>
    exact .bind (.pop id) fun source => .bind (.pop id) fun dst =>
      .bind (.modify fun m => atop_copy m dst source) fun _ => .bind (.pushRef dst) fun _ => .pure _
  case and =>
    refine .bind (.peek id) fun box => .get_bind (fun _ => rfl) fun m => ?_
    split
    · exact .bind (.map _ (.pop id)) fun _ => .pure _
    · exact .pure _
  case or =>
    refine .bind (.peek id) fun box => .get_bind (fun _ => rfl) fun m => ?_
    split
    · exact .pure _
    · exact .bind (.map _ (.pop id)) fun _ => .pure _
  case cond => exact .bind (.pop id) fun box => .get_bind (fun _ => rfl) fun m => .pure _
  case mark => exact .bind (.modify fun _ => rfl) fun _ => .pure _
  case statements => exact .pure _
  case stub => exact .pure _
  case native unit => exact .throw _

/-! ### Units

A unit asks which op it stands for, so the past is out of its sight only because the op has been
set. -/

variable {id : OpId}

/-- **An instruction does not see the past.** -/
theorem atop_perform (hm : m.current = some id) (r : Registers) (i : Instr) :
    perform r i (m.atop p) = atopResult p (perform r i m) := by
  have boxed : ∀ f o, (do return r.withBox (← orFail f (o.map fun (b, m') => (b, m'.atop p))) :
      MachineM Registers) (m.atop p) =
        atopResult p ((do return r.withBox (← orFail f o) : MachineM Registers) m) := by
    intro f o
    cases o <;> rfl
  have here : (m.atop p).here = m.here := by rw [Machine.here, atop_of_current hm, Machine.here, hm]
  unfold perform
  cases i <;> dsimp only
  case pad slot =>
    rw [Effect.get_bind, Effect.get_bind, ← boxed, Option.map_map]
    rfl
  case clear slot =>
    rw [Effect.get_bind, Effect.get_bind, atop_introduce?]
    cases m.introduce? slot <;> rfl
  case pop => rw [Effect.get_bind, Effect.get_bind, here, atop_pop?, boxed]
  case number b logged => cases logged <;> rfl
  case storeNum b x => exact (Blind.bind (.modify fun m => atop_write m _ _) fun _ => .pure _) m
  case storeInt b x => exact (Blind.bind (.modify fun m => atop_write m _ _) fun _ => .pure _) m
  case storeUInt b x => exact (Blind.bind (.modify fun m => atop_write m _ _) fun _ => .pure _) m
  case copy b c => exact (Blind.bind (.modify fun m => atop_copy m _ _) fun _ => .pure _) m
  all_goals rfl

theorem atop_successor (hm : m.current = some id) (g : Graph) :
    (m.atop p).successor g = m.successor g := by
  rw [successor, atop_of_current hm, successor, hm]

theorem atop_bind {x : MachineM α} {k : α → MachineM β}
    (hx : x (m.atop p) = atopResult p (x m))
    (hk : ∀ a m', x m = .ok a m' → k a (m'.atop p) = atopResult p (k a m')) :
    (x >>= k) (m.atop p) = atopResult p ((x >>= k) m) := by
  cases h : x m with
  | ok a m' =>
    rw [h] at hx
    rw [Effect.bind_ok hx, Effect.bind_ok h]
    exact hk a m' h
  | error e m' =>
    rw [h] at hx
    rw [Effect.bind_error hx, Effect.bind_error h]
    rfl

/-- **The instructions of a unit do not see the past**, if the fragments that it calls do not. -/
theorem atop_runCode {g : Graph} {callBack : OpId → MachineM Unit}
    (hcall : ∀ root m, m.current = some id →
      callBack root (m.atop p) = atopResult p (callBack root m))
    (hcurrent : ∀ root m m', callBack root m = .ok () m' → m'.current = m.current)
    (code : List Instr) (r : Registers) (hm : m.current = some id) :
    runCode g callBack code r (m.atop p) = atopResult p (runCode g callBack code r m) := by
  induction code generalizing r m with
  | nil =>
    rw [runCode, Effect.get_bind, Effect.get_bind, atop_successor hm]
    rfl
  | cons i code ih =>
    by_cases hi : i.IsPlain
    · rw [Config.runCode_plain hi]
      exact atop_bind (atop_perform hm r i) fun r' m' h => ih r' ((current_perform h).trans hm)
    · cases i
      case ret succ => rfl
      case call root =>
        rw [runCode]
        exact atop_bind (hcall root m hm) fun _ m' h => ih r ((hcurrent root m m' h).trans hm)
      all_goals exact absurd trivial hi

/-- A unit is executed again when the fragment that it has called is at its end. -/
theorem current_callFragment {g : Graph} {loop : Option OpId → MachineM Unit} {root : OpId}
    {m' : Machine} (h : callFragment g loop root m = .ok () m') : m'.current = m.current := by
  unfold callFragment at h
  cases ho : g.op? root with
  | none =>
    rw [ho] at h
    cases h
    rfl
  | some op =>
    rw [ho] at h
    obtain ⟨frame, m₁, henter, hrest⟩ := Effect.bind_eq_ok.mp h
    obtain ⟨_, m₂, -, hleave⟩ := Effect.bind_eq_ok.mp hrest
    cases henter
    cases hleave
    rfl

theorem atop_callFragment {g : Graph} {loop : Option OpId → MachineM Unit}
    (hloop : ∀ cur, Blind p (loop cur)) (root : OpId) (hm : m.current = some id) :
    callFragment g loop root (m.atop p) = atopResult p (callFragment g loop root m) := by
  unfold callFragment
  cases g.op? root with
  | none => rfl
  | some op =>
    have entered : (modifyGet enter : MachineM Frame) (m.atop p) =
        atopResult p ((modifyGet enter : MachineM Frame) m) := by
      show EStateM.Result.ok (m.atop p).enter.1 (m.atop p).enter.2 =
        .ok m.enter.1 (m.enter.2.atop p)
      have frame : (m.atop p).enter.1 = m.enter.1 := by
        simp [enter, atop_of_current hm, hm]
        exact ⟨rfl, rfl⟩
      rw [frame]
      rfl
    refine atop_bind entered fun frame m₁ henter => ?_
    cases henter
    refine (Blind.bind (hloop _) fun _ => ?_) _
    exact .modify fun m => atop_leave m hm

/-! ### Loops and runs -/

/-- **A loop does not see the past.**

Ops do not, and a unit does not because its op has been set by then; what a unit calls is a loop
with one round less. -/
theorem dispatch_atop (g : Graph) (n : Nat) (cur : Option OpId) : Blind p (dispatch g n cur) := by
  -- by induction on the bound: what comes after an op, and the loops inside it, have one less
  induction n generalizing cur with
  | zero =>
    cases cur with
    | none => exact .pure ()
    | some id => exact .throw _
  | succ n ih =>
    cases cur with
    | none => exact .pure ()
    | some id =>
      intro m
      by_cases hf : m.fault = none
      · have hf' : (m.atop p).fault = none := hf
        cases ho : g.op? id with
        | none =>
          have unknown : ∀ m : Machine, m.fault = none →
              dispatch g (n + 1) (some id) m = .ok () (m.fail (.unknownOp id)) := by
            intro m hf
            rw [dispatch, Effect.get_bind, if_neg (by simp [hf]), ho]
            rfl
          rw [unknown m hf, unknown _ hf']
          rfl
        | some op =>
          cases hk : op.kind.unit? with
          | some unit =>
            rw [Config.dispatch_enter hf' ho hk, Config.dispatch_enter hf ho hk]
            refine atop_bind (m := { m with current := some id }) ?_ fun succ m' _ => ih succ m'
            exact atop_runCode (fun root m hm => atop_callFragment ih root hm)
              (fun root m m' => current_callFragment) unit.code {} rfl
          | none =>
            rw [Config.dispatch_interpret hf' ho hk, Config.dispatch_interpret hf ho hk,
              blind_exec id op m]
            cases exec id op m with
            | ok succ m' => exact ih succ m'
            | error h m' => cases h <;> rfl
      · have stops : ∀ m : Machine, m.fault ≠ none → dispatch g (n + 1) (some id) m = .ok () m := by
          intro m hf
          rw [dispatch, Effect.get_bind, if_pos (Option.isSome_iff_ne_none.mpr hf)]
          rfl
        rw [stops m hf, stops (m.atop p) hf]
        rfl

/-- **A run is that of a machine without a past**, on top of some past. -/
theorem exists_run_eq {g : Graph} {entry : OpId} (hentry : g.entry = some entry) (n : Nat)
    (m : Machine) : ∃ p, run g n m = atopResult p (run g n { pad := m.pad }) := by
  let p : Past := ⟨m.saves, m.current, m.log⟩
  let past : Past := { p with current := none }
  have start : m.fresh = ({ pad := m.pad } : Machine).fresh.atop p := rfl
  have loop := dispatch_atop (p := p) g n (some entry) ({ pad := m.pad } : Machine).fresh
  rw [← start] at loop
  have cleared : ∀ m' : Machine, { m'.atop p with current := none } =
      { m' with current := none }.atop past := fun _ => rfl
  cases h : dispatch g n (some entry) ({ pad := m.pad } : Machine).fresh with
  | error e m' =>
    rw [h] at loop
    exact ⟨p, by rw [Config.run_of_halt hentry loop, Config.run_of_halt hentry h]; rfl⟩
  | ok u m' =>
    rw [h] at loop
    cases hf : m'.fault with
    | none =>
      refine ⟨past, ?_⟩
      rw [Config.run_of_dispatch hentry loop hf, Config.run_of_dispatch hentry h hf, cleared]
      exact congrArg _ (atop_forget _)
    | some f =>
      refine ⟨past, ?_⟩
      rw [Config.run_of_dispatch_fault hentry loop hf, Config.run_of_dispatch_fault hentry h hf,
        cleared]
      have unwound : ({ m' with current := none }.atop past).unwind m.saves.length = _ :=
        atop_unwind _
      rw [unwound]
      rfl

/-- **A machine that has been made for a graph**, and what has become of it: variables were set from
outside, the graph was edited, and it was run, with whatever outcome. -/
inductive Serves : Graph → Machine → Prop where
  | start (g : Graph) (slots : Nat) : Serves g (ofSize slots)
  | set {g : Graph} {m m' : Machine} (slot : Slot) (v : Scalar) :
      Serves g m → m.setPad slot v = .ok m' → Serves g m'
  | edit {g : Graph} {m : Machine} (edits : List Edit) :
      Serves g m → Serves (stateOf (Graph.applyEdits edits g)) m
  | clearLog {g : Graph} {m : Machine} : Serves g m → Serves g { m with log := [] }
  | run {g : Graph} {m : Machine} (fuel : Nat) : Serves g m → Serves g (stateOf (run g fuel m))

theorem run_of_unlinked {g : Graph} (h : g.entry = none) (n : Nat) (m : Machine) :
    run g n m = .error (.fault .notLinked) m := by
  rw [run, h]
  rfl

/-- A graph without an entry has never had one, so nothing has been put on the stack. -/
theorem Serves.stack_eq_nil {g : Graph} (h : Serves g m) (hg : g.entry = none) : m.stack = [] := by
  induction h with
  | start g slots => rfl
  | set slot v _ hset ih =>
    unfold setPad at hset
    split at hset
    · cases hset
      exact ih hg
    · cases hset
  | @edit g m edits _ ih =>
    refine ih ?_
    by_contra linked
    have still := Graph.maintains_entry edits g (Option.isSome_iff_ne_none.mpr linked)
    exact Option.isSome_iff_ne_none.mp still hg
  | clearLog _ ih => exact ih hg
  | @run g m fuel _ ih =>
    rw [run_of_unlinked hg]
    exact ih hg

/-- **Runs do not leak into each other.**  Whatever two machines hold besides the same pad, a run
has the same outcome on both, and leaves the same pad and the same values on the stack.  A graph
without an entry is not run, and its machine is left alone; there the machines are ones that the
graph can have.

A run is that of a machine with the same pad and nothing else, on top of what the run does not
clear.  So two machines with one pad have the same run, on top of different pasts, and neither the
outcome nor the pad nor the stack is part of a past. -/
theorem run_forgets {g : Graph} {m₁ m₂ : Machine} (pads : m₁.pad = m₂.pad)
    (unlinked : g.entry = none → Serves g m₁ ∧ Serves g m₂) (fuel : Nat) :
    outcomeOf (run g fuel m₁) = outcomeOf (run g fuel m₂) ∧
      (stateOf (run g fuel m₁)).pad = (stateOf (run g fuel m₂)).pad ∧
      (stateOf (run g fuel m₁)).stackValues = (stateOf (run g fuel m₂)).stackValues := by
  cases hentry : g.entry with
  | none =>
    obtain ⟨serves₁, serves₂⟩ := unlinked hentry
    rw [run_of_unlinked hentry, run_of_unlinked hentry]
    refine ⟨rfl, pads, ?_⟩
    show m₁.stackValues = m₂.stackValues
    rw [stackValues, serves₁.stack_eq_nil hentry, stackValues, serves₂.stack_eq_nil hentry]
    rfl
  | some entry =>
    obtain ⟨p₁, run₁⟩ := exists_run_eq hentry fuel m₁
    obtain ⟨p₂, run₂⟩ := exists_run_eq hentry fuel m₂
    rw [run₁, run₂, pads]
    cases run g fuel { pad := m₂.pad } with
    | ok u m => exact ⟨rfl, rfl, rfl⟩
    | error e m => exact ⟨rfl, rfl, rfl⟩

/-! ### A unit that looks for what was left

It declares a variable and takes a box from the stack, on which an earlier run has left one. -/

def searchingGraph : Graph where
  owner := ⟨0⟩
  ops := #[{ kind := .native ⟨"searching", [.clear ⟨0⟩, .pop, .push 0], []⟩ }]
  root := some ⟨0⟩
  entry := some ⟨0⟩

/-- A machine that was left in the middle of a run. -/
def litteredMachine : Machine where
  pad := #[.int 5]
  stack := [.pad ⟨0⟩, .temp 0]
  temps := #[.int 7]
  saves := [(⟨0⟩, .int 3)]
  stackFloor := 1
  tempFloor := 1
  current := some ⟨4⟩
  fault := some .illegalModulus

theorem run_forgets_littered :
    outcomeOf (run searchingGraph 3 litteredMachine) =
      .error (.fault (.stackUnderflow ⟨0⟩)) ∧
    (stateOf (run searchingGraph 3 litteredMachine)).pad = #[.int 5] ∧
    (stateOf (run searchingGraph 3 litteredMachine)).stackValues = [.undefined] := by
  have pads : litteredMachine.pad = ({ pad := #[.int 5] } : Machine).pad := rfl
  have linked : searchingGraph.entry ≠ none := by simp [searchingGraph]
  obtain ⟨outcome, pad, stack⟩ := run_forgets pads (fun h => absurd h linked) 3
  exact ⟨outcome, pad, stack⟩

end Machine

end Graft
