import Graft.Machine.Dispatch
import Graft.Proofs.Access

/-! # Executions with a trace

`Traced` computations act on a machine and list the ops that they execute.  `loop` is the
dispatch loop with such a list: without the list it is `Machine.dispatch`
(`Traced.erase_loop`).  A loop lists the ops that it executes itself; a unit that runs a
fragment does so in a loop of its own.

The program keeps no such list.  It is added here because the claim that two runs execute the
same ops cannot be read off the machines that they leave; and erasing it again shows that
nothing else was added.
-/

namespace Graft

/-- A computation on a machine that also lists the ops that it executes, in order. -/
def Traced (α : Type) : Type := Machine → List OpId × EStateM.Result Halt Machine α

namespace Traced

variable {α β : Type}

/-- A computation that executes no ops. -/
def lift (x : MachineM α) : Traced α := fun m => ([], x m)

/-- List an op as executed. -/
def note (id : OpId) : Traced Unit := fun m => ([id], .ok () m)

/-- The computation without its list. -/
def erase (x : Traced α) : MachineM α := fun m => (x m).2

/-- Go on after a computation, if it has not halted. -/
def andThen (x : Traced α) (f : α → Traced β) : Traced β := fun m =>
  match x m with
  | (l, .ok a m') => (l ++ (f a m').1, (f a m').2)
  | (l, .error h m') => (l, .error h m')

instance : Monad Traced where
  pure a := lift (pure a)
  bind := andThen

theorem bind_ok {x : Traced α} {f : α → Traced β} {m m' : Machine} {l : List OpId} {a : α}
    (h : x m = (l, .ok a m')) : (x >>= f) m = (l ++ (f a m').1, (f a m').2) := by
  show andThen x f m = _
  unfold andThen
  rw [h]

theorem bind_error {x : Traced α} {f : α → Traced β} {m m' : Machine} {l : List OpId} {e : Halt}
    (h : x m = (l, .error e m')) : (x >>= f) m = (l, .error e m') := by
  show andThen x f m = _
  unfold andThen
  rw [h]

theorem pure_apply (a : α) (m : Machine) : (pure a : Traced α) m = ([], .ok a m) := rfl

instance : LawfulMonad Traced := LawfulMonad.mk' Traced
  (by
    intro α x
    funext m
    show (x >>= pure) m = x m
    rcases h : x m with ⟨l, r⟩
    cases r with
    | ok a m' => rw [bind_ok h, pure_apply, List.append_nil]
    | error e m' => rw [bind_error h])
  (by
    intro α β a f
    funext m
    rw [bind_ok (pure_apply a m), List.nil_append])
  (by
    intro α β γ x f k
    funext m
    rcases h : x m with ⟨l, r⟩
    cases r with
    | error e m' => rw [bind_error (bind_error h), bind_error h]
    | ok a m' =>
      rcases hf : f a m' with ⟨l', r'⟩
      have hx : (x >>= f) m = (l ++ l', r') := by rw [bind_ok h, hf]
      cases r' with
      | ok b m'' => rw [bind_ok hx, bind_ok h, bind_ok hf, List.append_assoc]
      | error e m'' => rw [bind_error hx, bind_ok h, bind_error hf])

@[simp]
theorem erase_lift (x : MachineM α) : (lift x).erase = x := rfl

@[simp]
theorem erase_note (id : OpId) : (note id).erase = pure () := rfl

@[simp]
theorem erase_pure (a : α) : (pure a : Traced α).erase = pure a := rfl

@[simp]
theorem erase_bind (x : Traced α) (f : α → Traced β) :
    (x >>= f).erase = x.erase >>= fun a => (f a).erase := by
  funext m
  show ((x >>= f) m).2 = EStateM.bind x.erase (fun a => (f a).erase) m
  unfold EStateM.bind
  rcases h : x m with ⟨l, r⟩
  have he : x.erase m = r := congrArg Prod.snd h
  cases r with
  | ok a m' => rw [bind_ok h, he]; rfl
  | error e m' => rw [bind_error h, he]

theorem lift_bind_apply (x : MachineM α) (f : α → Traced β) (m : Machine) :
    (lift x >>= f) m =
      match x m with
      | .ok a m' => f a m'
      | .error e m' => ([], .error e m') := by
  cases h : x m with
  | ok a m' =>
    rw [bind_ok (congrArg (Prod.mk []) h)]
    rfl
  | error e m' => rw [bind_error (congrArg (Prod.mk []) h)]

theorem get_bind_apply (f : Machine → Traced β) (m : Machine) : (lift get >>= f) m = f m m := by
  rw [lift_bind_apply]
  rfl

/-! ### The dispatch loop -/

/-- The dispatch loop with its list of executed ops. -/
def loop (g : Graph) : Nat → Option OpId → Traced Unit
  | _, none => pure ()
  | 0, some _ => lift (throw .outOfFuel)
  | n + 1, some id => do
    if (← lift get).fault.isSome then return ()
    else match g.op? id with
      | none => lift (modify fun m => m.fail (.unknownOp id))
      | some op =>
        note id
        match op.kind with
        | .native unit =>
          lift (modify fun m => { m with current := some id })
          let code := Machine.runCode g (Machine.callFragment g (Machine.dispatch g n)) unit.code {}
          loop g n (← lift code)
        | _ =>
          match ← lift (Machine.observe (Machine.exec id op)) with
          | .ok next => loop g n next
          | .error f => lift (modify fun m => m.fail f)

/-- **Without its list the loop is the dispatch loop.** -/
theorem erase_loop (g : Graph) (n : Nat) (cur : Option OpId) :
    (loop g n cur).erase = Machine.dispatch g n cur := by
  induction n generalizing cur with
  | zero => cases cur <;> simp [loop, Machine.dispatch]
  | succ n ih =>
    cases cur with
    | none => simp [loop, Machine.dispatch]
    | some id =>
      rw [loop, Machine.dispatch, erase_bind, erase_lift]
      refine bind_congr fun m => ?_
      split
      · simp
      · cases g.op? id with
        | none => simp
        | some op =>
          simp only [erase_bind, erase_note, pure_bind]
          cases op.kind
          case native unit =>
            simp only [erase_bind, erase_lift]
            exact bind_congr fun _ => bind_congr fun next => ih next
          all_goals
            simp only [erase_bind, erase_lift]
            refine bind_congr fun r => ?_
            cases r with
            | ok next => exact ih next
            | error f => simp

/-- The same computation, a fault recorded and not thrown. -/
def settle (x : Traced Unit) : Traced Unit := fun m =>
  match x m with
  | (l, .error (.fault f) m') => (l, .ok () (m'.fail f))
  | r => r

@[simp]
theorem fst_settle (x : Traced Unit) (m : Machine) : (settle x m).1 = (x m).1 := by
  unfold settle
  split <;> simp_all

theorem settle_of_ok {x : Traced Unit} {m m' : Machine} {l : List OpId}
    (h : x m = (l, .ok () m')) : settle x m = (l, .ok () m') := by
  unfold settle
  rw [h]

theorem settle_of_fault {x : Traced Unit} {m m' : Machine} {l : List OpId} {f : Fault}
    (h : x m = (l, .error (.fault f) m')) : settle x m = (l, .ok () (m'.fail f)) := by
  unfold settle
  rw [h]

/-- Faults are recorded after the first part as before it. -/
theorem settle_bind_ok {x : Traced α} {k : α → Traced Unit} {m m' : Machine} {l : List OpId} {a : α}
    (h : x m = (l, .ok a m')) :
    settle (x >>= k) m = (l ++ (settle (k a) m').1, (settle (k a) m').2) := by
  unfold settle
  rw [bind_ok h]
  rcases k a m' with ⟨l', r⟩
  rcases r with _ | ⟨_ | _ | _, _⟩ <;> rfl

end Traced

end Graft
