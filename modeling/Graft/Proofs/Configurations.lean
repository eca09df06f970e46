import Graft.Proofs.TreeRun

/-! # Runs, step by step

`Machine.dispatch` runs a loop to its end, with all the loops inside it.  To speak of what holds
*during* a run, this module cuts it into steps.  A `Config` is a state in the middle of a run: the
machine, what the innermost loop or unit is doing, and the units that wait for fragments which
they have called, the latest first.  `Config.next` does what happens next: one op is interpreted, a
unit carries out one instruction, or control passes on.

The steps are those of the dispatch loop (`Config.dispatch_follows`): whatever the loop leaves,
the steps come to, and a loop that is cut off after so many ops has taken at least so many steps.
So a run that ends after some number of steps is not cut off by a larger bound, and has the
outcome that the steps come to (`Config.run_of_faulted`).

The loop is recursive in two ways, from op to op and from a unit into the fragments that it calls,
and its bound counts ops over both.  The induction is on the bound, and its statement is about any
units that wait: the steps from a state in which a loop begins come to the state in which the loop
has left its machine and the same units wait (`Config.Follows`).  The three ways for a loop to end,
well, with a halt, or at the bound, are kept apart in it, since only the first two are ends of the
steps.

What later modules use is `Config.Step`, the list of all steps with what each does, and
`Config.stateAt_induction`: to show that something holds throughout a run, one shows that it holds
at the beginning and that no step breaks it.
-/

namespace Graft

/-- The unit that an op stands for. -/
def OpKind.unit? : OpKind → Option CompiledUnit
  | native unit => some unit
  | _ => none

/-- An instruction that neither ends the unit nor runs a fragment. -/
def Instr.IsPlain : Instr → Prop
  | .call _ | .ret _ => False
  | _ => True

namespace Machine

/-- A unit that waits for a fragment to come to its end: what it gets back then, and what it has
still to do. -/
structure Waiting where
  frame : Frame
  code : List Instr
  registers : Registers

/-- What is being done. -/
inductive Phase where
  /-- A loop is about to execute an op, or is at its end. -/
  | loop (cur : Option OpId)
  /-- A unit is about to carry out the first of some instructions. -/
  | unit (code : List Instr) (registers : Registers)
  /-- The outermost loop has come to its end. -/
  | ended
  /-- The run has halted, for something that nothing catches. -/
  | halted (h : Halt)

/-- **A state in the middle of a run**, with the units that wait, the latest first. -/
structure Config where
  machine : Machine
  phase : Phase
  waiting : List Waiting

/-- What a step does. -/
inductive Action where
  /-- An op is interpreted. -/
  | interpret (id : OpId) (op : Op)
  /-- A unit carries out an instruction. -/
  | perform (i : Instr)
  /-- Control passes on, to a unit, back to one, or to a loop. -/
  | pass

namespace Config

/-- A loop has come to its end: the unit that waits for it goes on. -/
def resume (m : Machine) : List Waiting → Config
  | [] => ⟨m, .ended, []⟩
  | w :: ws => ⟨m.leave w.frame, .unit w.code w.registers, ws⟩

/-- What an op that was interpreted leaves. -/
def settled (ws : List Waiting) : EStateM.Result Halt Machine (Option OpId) → Config
  | .ok succ m => ⟨m, .loop succ, ws⟩
  | .error (.fault f) m => ⟨m.fail f, .loop none, ws⟩
  | .error h m => ⟨m, .halted h, ws⟩

/-- A loop executes the op `id`. -/
def visit (g : Graph) (m : Machine) (ws : List Waiting) (id : OpId) : Action × Config :=
  match g.op? id with
  | none => (.pass, ⟨m.fail (.unknownOp id), .loop none, ws⟩)
  | some op =>
    match op.kind.unit? with
    | some unit => (.pass, ⟨{ m with current := some id }, .unit unit.code {}, ws⟩)
    | none => (.interpret id op, settled ws (exec id op m))

/-- A unit calls the fragment below `root`. -/
def call (g : Graph) (m : Machine) (ws : List Waiting) (root : OpId) (code : List Instr)
    (r : Registers) : Config :=
  match g.op? root with
  | none => ⟨m.fail (.unknownOp root), .unit code r, ws⟩
  | some _ => ⟨m.enter.2, .loop (some (g.startOf root)), ⟨m.enter.1, code, r⟩ :: ws⟩

/-- What an instruction that was carried out leaves. -/
def performed (ws : List Waiting) (code : List Instr) : EStateM.Result Halt Machine Registers → Config
  | .ok r m => ⟨m, .unit code r, ws⟩
  | .error h m => ⟨m, .halted h, ws⟩

/-- A unit carries out its first instruction. -/
def advance (g : Graph) (m : Machine) (ws : List Waiting) : List Instr → Registers → Action × Config
  | [], _ => (.pass, ⟨m, .loop (m.successor g), ws⟩)
  | .ret succ :: _, _ => (.perform (.ret succ), ⟨m, .loop succ, ws⟩)
  | .call root :: code, r => (.perform (.call root), call g m ws root code r)
  | i :: code, r => (.perform i, performed ws code (perform r i m))

/-- **What happens next**, and the state after it.  A loop stops where a fault is recorded. -/
def next (g : Graph) (c : Config) : Option (Action × Config) :=
  match c.phase with
  | .loop none => some (.pass, resume c.machine c.waiting)
  | .loop (some id) =>
    if c.machine.fault.isSome then some (.pass, resume c.machine c.waiting)
    else some (visit g c.machine c.waiting id)
  | .unit code r => some (advance g c.machine c.waiting code r)
  | .ended | .halted _ => none

/-- The state so many steps later, if there are so many. -/
def after (g : Graph) : Nat → Config → Option Config
  | 0, c => some c
  | n + 1, c => (next g c).bind fun s => after g n s.2

/-- **The state of the run of `g` on `m` after so many steps.** -/
def stateAt (g : Graph) (m : Machine) (n : Nat) : Option Config :=
  g.entry.bind fun entry => after g n ⟨m.fresh, .loop (some entry), []⟩

variable {g : Graph} {m m' : Machine} {ws : List Waiting} {c c' c'' : Config} {i j n : Nat}

/-! ### Counting steps -/

theorem after_add (g : Graph) (i j : Nat) (c : Config) :
    after g (i + j) c = (after g i c).bind (after g j) := by
  induction i generalizing c with
  | zero => simp [after]
  | succ i ih =>
    rw [Nat.succ_add, after, after]
    cases next g c with
    | none => rfl
    | some s => exact ih s.2

theorem after_trans (h : after g i c = some c') (h' : after g j c' = some c'') :
    after g (i + j) c = some c'' := by
  rw [after_add, h, Option.bind_some, h']

theorem after_one {a : Action} (h : next g c = some (a, c')) : after g 1 c = some c' := by
  simp [after, h]

/-- The last step before a state. -/
theorem after_succ (h : after g (n + 1) c = some c') :
    ∃ d a, after g n c = some d ∧ next g d = some (a, c') := by
  rw [after_add] at h
  obtain ⟨d, hd, h⟩ := Option.bind_eq_some_iff.mp h
  rw [after] at h
  obtain ⟨⟨a, e⟩, hs, he⟩ := Option.bind_eq_some_iff.mp h
  cases he
  exact ⟨d, a, hd, hs⟩

/-- There is no state after the last one. -/
theorem le_of_last (h : after g i c = some c') (hlast : next g c' = none)
    (h' : after g j c = some c'') : j ≤ i := by
  apply Nat.le_of_not_lt
  intro hij
  obtain ⟨k, rfl⟩ := Nat.exists_eq_add_of_lt hij
  rw [Nat.add_assoc, after_add, h, Option.bind_some, after, hlast] at h'
  cases h'

/-- A run has one last state. -/
theorem last_unique (h : after g i c = some c') (hlast : next g c' = none)
    (h' : after g j c = some c'') (hlast' : next g c'' = none) : c' = c'' := by
  have hij : i = j := by
    have := le_of_last h hlast h'
    have := le_of_last h' hlast' h
    omega
  subst hij
  exact Option.some.inj (h.symm.trans h')

theorem stateAt_eq_after {entry : OpId} (h : g.entry = some entry) (n : Nat) :
    stateAt g m n = after g n ⟨m.fresh, .loop (some entry), []⟩ := by
  rw [stateAt, h, Option.bind_some]

theorem stateAt_add (g : Graph) (m : Machine) (i j : Nat) :
    stateAt g m (i + j) = (stateAt g m i).bind (after g j) := by
  unfold stateAt
  cases g.entry with
  | none => rfl
  | some entry => exact after_add g i j _

theorem stateAt_next {a : Action} (h : stateAt g m n = some c) (hs : next g c = some (a, c')) :
    stateAt g m (n + 1) = some c' := by
  rw [stateAt_add, h, Option.bind_some, after_one hs]

theorem stateAt_succ (h : stateAt g m (n + 1) = some c) :
    ∃ d a, stateAt g m n = some d ∧ next g d = some (a, c) := by
  obtain ⟨entry, hentry, h⟩ := Option.bind_eq_some_iff.mp h
  obtain ⟨d, a, hd, hs⟩ := after_succ h
  exact ⟨d, a, Option.bind_eq_some_iff.mpr ⟨entry, hentry, hd⟩, hs⟩

/-- **An invariant of the steps holds throughout a run.** -/
theorem stateAt_induction {P : Config → Prop}
    (hstart : ∀ entry, g.entry = some entry → P ⟨m.fresh, .loop (some entry), []⟩)
    (hnext : ∀ c a c', P c → next g c = some (a, c') → P c') (h : stateAt g m n = some c) : P c := by
  induction n generalizing c with
  | zero =>
    obtain ⟨entry, hentry, h⟩ := Option.bind_eq_some_iff.mp h
    cases h
    exact hstart entry hentry
  | succ n ih =>
    obtain ⟨d, a, hd, hs⟩ := stateAt_succ h
    exact hnext d a c (ih hd) hs

/-! ### What a step can do -/

/-- An instruction is always carried out. -/
theorem exists_perform (r : Registers) (i : Instr) (m : Machine) :
    ∃ r' m', perform r i m = .ok r' m' := by
  have orFail : ∀ f o, ∃ b m', Machine.orFail f o m = .ok b m' := by
    intro f o
    cases o with
    | none => exact ⟨_, _, rfl⟩
    | some p => exact ⟨_, _, rfl⟩
  cases i
  case pad slot =>
    obtain ⟨b, m', hb⟩ := orFail (.badSlot slot) ((m.padRef? slot).map fun b => (b, m))
    refine ⟨r.withBox b, m', ?_⟩
    rw [perform, Effect.get_bind, Effect.bind_ok hb]
    rfl
  case pop =>
    obtain ⟨b, m', hb⟩ := orFail (.stackUnderflow m.here) m.pop?
    refine ⟨r.withBox b, m', ?_⟩
    rw [perform, Effect.get_bind, Effect.bind_ok hb]
    rfl
  all_goals exact ⟨_, _, rfl⟩

theorem advance_plain {i : Instr} (hi : i.IsPlain) (g : Graph) (m : Machine) (ws : List Waiting)
    (code : List Instr) (r : Registers) :
    advance g m ws (i :: code) r = (.perform i, performed ws code (perform r i m)) := by
  cases i
  case call => exact hi.elim
  case ret => exact hi.elim
  all_goals rfl

theorem runCode_plain {i : Instr} (hi : i.IsPlain) (g : Graph) (callBack : OpId → MachineM Unit)
    (code : List Instr) (r : Registers) :
    runCode g callBack (i :: code) r = (do runCode g callBack code (← perform r i)) := by
  cases i
  case call => exact hi.elim
  case ret => exact hi.elim
  all_goals rfl

/-- **The steps**, one by one. -/
inductive Step (g : Graph) : Config → Action → Config → Prop where
  /-- A loop is at its end, or stops because of a fault. -/
  | back {m : Machine} {cur : Option OpId} {ws : List Waiting} :
      cur = none ∨ m.fault.isSome → Step g ⟨m, .loop cur, ws⟩ .pass (resume m ws)
  | unknown {m : Machine} {id : OpId} {ws : List Waiting} :
      m.fault = none → g.op? id = none →
      Step g ⟨m, .loop (some id), ws⟩ .pass ⟨m.fail (.unknownOp id), .loop none, ws⟩
  | enter {m : Machine} {id : OpId} {op : Op} {unit : CompiledUnit} {ws : List Waiting} :
      m.fault = none → g.op? id = some op → op.kind.unit? = some unit →
      Step g ⟨m, .loop (some id), ws⟩ .pass ⟨{ m with current := some id }, .unit unit.code {}, ws⟩
  | interpret {m : Machine} {id : OpId} {op : Op} {ws : List Waiting} :
      m.fault = none → g.op? id = some op → op.kind.unit? = none →
      Step g ⟨m, .loop (some id), ws⟩ (.interpret id op) (settled ws (exec id op m))
  /-- A unit is at its end. -/
  | done {m : Machine} {r : Registers} {ws : List Waiting} :
      Step g ⟨m, .unit [] r, ws⟩ .pass ⟨m, .loop (m.successor g), ws⟩
  | ret {m : Machine} {succ : Option OpId} {code : List Instr} {r : Registers} {ws : List Waiting} :
      Step g ⟨m, .unit (.ret succ :: code) r, ws⟩ (.perform (.ret succ)) ⟨m, .loop succ, ws⟩
  /-- A unit calls a fragment that there is not. -/
  | miss {m : Machine} {root : OpId} {code : List Instr} {r : Registers} {ws : List Waiting} :
      g.op? root = none →
      Step g ⟨m, .unit (.call root :: code) r, ws⟩ (.perform (.call root))
        ⟨m.fail (.unknownOp root), .unit code r, ws⟩
  | call {m : Machine} {root : OpId} {op : Op} {code : List Instr} {r : Registers}
      {ws : List Waiting} : g.op? root = some op →
      Step g ⟨m, .unit (.call root :: code) r, ws⟩ (.perform (.call root))
        ⟨m.enter.2, .loop (some (g.startOf root)), ⟨m.enter.1, code, r⟩ :: ws⟩
  | perform {m m' : Machine} {i : Instr} {code : List Instr} {r r' : Registers}
      {ws : List Waiting} : i.IsPlain → Machine.perform r i m = .ok r' m' →
      Step g ⟨m, .unit (i :: code) r, ws⟩ (.perform i) ⟨m', .unit code r', ws⟩

theorem next_loop_of_fault {id : OpId} (h : m.fault.isSome) :
    next g ⟨m, .loop (some id), ws⟩ = some (.pass, resume m ws) := if_pos h

theorem next_loop {id : OpId} (h : m.fault = none) :
    next g ⟨m, .loop (some id), ws⟩ = some (visit g m ws id) := if_neg (by simp [h])

theorem next_unit (g : Graph) (m : Machine) (ws : List Waiting) (code : List Instr) (r : Registers) :
    next g ⟨m, .unit code r, ws⟩ = some (advance g m ws code r) := rfl

/-- Every step is what happens next. -/
theorem Step.next_eq {a : Action} (h : Step g c a c') : next g c = some (a, c') := by
  cases h with
  | @back m cur ws h =>
    cases cur with
    | none => rfl
    | some id => exact next_loop_of_fault (h.resolve_left (by simp))
  | unknown hf ho => simp [next_loop hf, visit, ho]
  | enter hf ho hk => simp [next_loop hf, visit, ho, hk]
  | interpret hf ho hk => simp [next_loop hf, visit, ho, hk]
  | done => rfl
  | ret => rfl
  | miss ho => simp [next_unit, advance, Config.call, ho]
  | call ho => simp [next_unit, advance, Config.call, ho]
  | perform hi hp => simp [next_unit, advance_plain hi, performed, hp]

/-- **What happens next is one of the steps.** -/
theorem step_of_next {a : Action} (h : next g c = some (a, c')) : Step g c a c' := by
  -- it is enough that there is a step: what happens next is determined
  suffices ∃ a' c'', Step g c a' c'' by
    obtain ⟨a', c'', hs⟩ := this
    cases hs.next_eq.symm.trans h
    exact hs
  obtain ⟨m, phase, ws⟩ := c
  cases phase with
  | ended => cases h
  | halted e => cases h
  | loop cur =>
    by_cases hstop : cur = none ∨ m.fault.isSome
    · exact ⟨_, _, .back hstop⟩
    · obtain ⟨hcur, hf⟩ := not_or.mp hstop
      obtain ⟨id, rfl⟩ := Option.ne_none_iff_exists'.mp hcur
      have hf : m.fault = none := by simpa using hf
      cases ho : g.op? id with
      | none => exact ⟨_, _, .unknown hf ho⟩
      | some op =>
        cases hk : op.kind.unit? with
        | some unit => exact ⟨_, _, .enter hf ho hk⟩
        | none => exact ⟨_, _, .interpret hf ho hk⟩
  | unit code r =>
    cases code with
    | nil => exact ⟨_, _, .done⟩
    | cons i code =>
      by_cases hi : i.IsPlain
      · obtain ⟨r', m', hp⟩ := exists_perform r i m
        exact ⟨_, _, .perform hi hp⟩
      · cases i
        case ret succ => exact ⟨_, _, .ret⟩
        case call root =>
          cases ho : g.op? root with
          | none => exact ⟨_, _, .miss ho⟩
          | some op => exact ⟨_, _, .call ho⟩
        all_goals exact absurd trivial hi

/-! ### The steps of a loop -/

/-- **The steps from `c` come to what a computation leaves**: to the state `goal` says, to a halt,
or, where the bound `n` was reached, at least so far. -/
def Follows {α : Type} (g : Graph) (n : Nat) (c : Config) (goal : α → Machine → Config) :
    EStateM.Result Halt Machine α → Prop
  | .ok a m => ∃ i, after g i c = some (goal a m)
  | .error h m => ∃ i c', after g i c = some c' ∧ c'.machine = m ∧
      (h = .outOfFuel ∧ n ≤ i ∧ (next g c').isSome ∨ c'.phase = .halted h)

namespace Follows

variable {α β : Type} {goal : α → Machine → Config} {goal' : β → Machine → Config}

theorem mono {r : EStateM.Result Halt Machine α} (h : Follows g n c goal r) (hn : i ≤ n) :
    Follows g i c goal r := by
  cases r with
  | ok a m => exact h
  | error e m =>
    obtain ⟨k, c', hk, hm, ⟨he, hle, hs⟩ | hp⟩ := h
    · exact ⟨k, c', hk, hm, .inl ⟨he, by omega, hs⟩⟩
    · exact ⟨k, c', hk, hm, .inr hp⟩

/-- A step before. -/
theorem head {a : Action} {r : EStateM.Result Halt Machine α} (h : Follows g n c' goal r)
    (hs : Step g c a c') : Follows g (n + 1) c goal r := by
  have first := after_one hs.next_eq
  cases r with
  | ok a m =>
    obtain ⟨k, hk⟩ := h
    exact ⟨1 + k, after_trans first hk⟩
  | error e m =>
    obtain ⟨k, c', hk, hm, ⟨he, hle, hs⟩ | hp⟩ := h
    · exact ⟨1 + k, c', after_trans first hk, hm, .inl ⟨he, by omega, hs⟩⟩
    · exact ⟨1 + k, c', after_trans first hk, hm, .inr hp⟩

/-- **One computation after the other.** -/
theorem bind {x : MachineM α} {f : α → MachineM β} (hx : Follows g n c goal (x m))
    (hf : ∀ a m', Follows g n (goal a m') goal' (f a m')) :
    Follows g n c goal' ((x >>= f) m) := by
  cases hxm : x m with
  | error e m' =>
    rw [Effect.bind_error hxm]
    rw [hxm] at hx
    exact hx
  | ok a m' =>
    rw [Effect.bind_ok hxm]
    rw [hxm] at hx
    obtain ⟨k, hk⟩ := hx
    have rest := hf a m'
    cases hfm : f a m' with
    | ok b m'' =>
      rw [hfm] at rest
      obtain ⟨l, hl⟩ := rest
      exact ⟨k + l, after_trans hk hl⟩
    | error e m'' =>
      rw [hfm] at rest
      obtain ⟨l, c', hl, hm, ⟨he, hle, hs⟩ | hp⟩ := rest
      · exact ⟨k + l, c', after_trans hk hl, hm, .inl ⟨he, by omega, hs⟩⟩
      · exact ⟨k + l, c', after_trans hk hl, hm, .inr hp⟩

end Follows

/-- The steps of a unit's instructions, if those of the fragments that it calls are known. -/
theorem runCode_follows
    (hloop : ∀ cur m ws, Follows g n ⟨m, .loop cur, ws⟩ (fun _ m' => resume m' ws)
      (dispatch g n cur m)) (code : List Instr) (r : Registers) (m : Machine) (ws : List Waiting) :
    Follows g n ⟨m, .unit code r, ws⟩ (fun succ m' => ⟨m', .loop succ, ws⟩)
      (runCode g (callFragment g (dispatch g n)) code r m) := by
  induction code generalizing r m with
  | nil => exact ⟨1, rfl⟩
  | cons i code ih =>
    by_cases hi : i.IsPlain
    · obtain ⟨r', m', hp⟩ := exists_perform r i m
      rw [runCode_plain hi, Effect.bind_ok hp]
      exact ((ih r' m').head (.perform hi hp)).mono (Nat.le_succ n)
    · cases i
      case ret succ => exact ⟨1, rfl⟩
      case call root =>
        rw [runCode]
        have called : Follows g n ⟨m, .unit (.call root :: code) r, ws⟩
            (fun _ m' => ⟨m', .unit code r, ws⟩) (callFragment g (dispatch g n) root m) := by
          unfold callFragment
          cases ho : g.op? root with
          | none => exact ⟨1, after_one (Step.miss ho).next_eq⟩
          | some op =>
            refine ((Follows.bind (hloop _ _ _) fun _ m' => ?_).head (.call ho)).mono (Nat.le_succ n)
            exact ⟨0, rfl⟩
        exact called.bind fun _ m' => ih r m'
      all_goals exact absurd trivial hi

theorem dispatch_enter {id : OpId} {op : Op} {unit : CompiledUnit} (hf : m.fault = none)
    (ho : g.op? id = some op) (hk : op.kind.unit? = some unit) :
    dispatch g (n + 1) (some id) m = (do
      let succ ← runCode g (callFragment g (dispatch g n)) unit.code {}
      dispatch g n succ : MachineM Unit) { m with current := some id } := by
  rw [dispatch, Effect.get_bind, if_neg (by simp [hf]), ho]
  dsimp only
  cases hop : op.kind
  case native unit =>
    rw [hop] at hk
    cases hk
    rfl
  all_goals
    rw [hop] at hk
    cases hk

/-- An op that is not a unit is interpreted, and its fault is recorded. -/
theorem dispatch_observe {id : OpId} {op : Op} (hf : m.fault = none) (ho : g.op? id = some op)
    (hk : op.kind.unit? = none) : dispatch g (n + 1) (some id) m = (do
      match ← observe (exec id op) with
      | .ok succ => dispatch g n succ
      | .error f => modify fun m => m.fail f : MachineM Unit) m := by
  rw [dispatch, Effect.get_bind, if_neg (by simp [hf]), ho]
  dsimp only
  cases hop : op.kind
  case native unit =>
    rw [hop] at hk
    cases hk
  all_goals rfl

theorem dispatch_interpret {id : OpId} {op : Op} (hf : m.fault = none) (ho : g.op? id = some op)
    (hk : op.kind.unit? = none) :
    dispatch g (n + 1) (some id) m =
      match exec id op m with
      | .ok succ m' => dispatch g n succ m'
      | .error (.fault f) m' => .ok () (m'.fail f)
      | .error h m' => .error h m' := by
  rw [dispatch_observe hf ho hk]
  cases he : exec id op m with
  | ok succ m' =>
    have here : observe (exec id op) m = .ok (.ok succ) m' := by rw [observe, he]
    rw [Effect.bind_ok here]
  | error h m' =>
    cases h with
    | fault f =>
      have here : observe (exec id op) m = .ok (.error f) m' := by rw [observe, he]
      rw [Effect.bind_ok here]
      rfl
    | overflow =>
      have here : observe (exec id op) m = .error .overflow m' := by rw [observe, he]
      rw [Effect.bind_error here]
    | outOfFuel =>
      have here : observe (exec id op) m = .error .outOfFuel m' := by rw [observe, he]
      rw [Effect.bind_error here]

/-- **The steps are those of the dispatch loop.**

A unit is entered, its code is followed with the bound that is left (`runCode_follows`), and then
the loop goes on; an op that is interpreted is one step. -/
theorem dispatch_follows (g : Graph) (n : Nat) (cur : Option OpId) (m : Machine) (ws : List Waiting) :
    Follows g n ⟨m, .loop cur, ws⟩ (fun _ m' => resume m' ws) (dispatch g n cur m) := by
  -- by induction on the bound: what comes after an op, and the loops inside it, have one less
  induction n generalizing cur m ws with
  | zero =>
    cases cur with
    | none => exact ⟨1, rfl⟩
    | some id =>
      refine ⟨0, _, rfl, rfl, .inl ⟨rfl, Nat.le_refl 0, ?_⟩⟩
      unfold next
      dsimp only
      split <;> rfl
  | succ n ih =>
    by_cases hstop : cur = none ∨ m.fault.isSome
    · have stops : dispatch g (n + 1) cur m = .ok () m := by
        cases cur with
        | none => rfl
        | some id =>
          rw [dispatch, Effect.get_bind, if_pos (hstop.resolve_left (by simp))]
          rfl
      rw [stops]
      exact ⟨1, after_one (Step.back hstop).next_eq⟩
    · obtain ⟨hcur, hf⟩ := not_or.mp hstop
      obtain ⟨id, rfl⟩ := Option.ne_none_iff_exists'.mp hcur
      have hf : m.fault = none := by simpa using hf
      cases ho : g.op? id with
      | none =>
        rw [dispatch, Effect.get_bind, if_neg (by simp [hf]), ho]
        exact ⟨1 + 1, after_trans (after_one (Step.unknown hf ho).next_eq) rfl⟩
      | some op =>
        cases hk : op.kind.unit? with
        | some unit =>
          rw [dispatch_enter hf ho hk]
          exact (Follows.bind (runCode_follows ih unit.code {} _ ws) fun succ m' =>
            ih succ m' ws).head (.enter hf ho hk)
        | none =>
          have here : Step g ⟨m, .loop (some id), ws⟩ _ _ := .interpret hf ho hk
          rw [dispatch_interpret hf ho hk]
          cases he : exec id op m with
          | ok succ m' =>
            rw [he] at here
            exact (ih succ m' ws).head here
          | error h m' =>
            rw [he] at here
            cases h with
            | fault f => exact ⟨1 + 1, after_trans (after_one here.next_eq) rfl⟩
            | overflow => exact ⟨1, _, after_one here.next_eq, rfl, .inr rfl⟩
            | outOfFuel => exact ⟨1, _, after_one here.next_eq, rfl, .inr rfl⟩

/-! ### Whole runs -/

/-- Nothing happens after the end or a halt, and only then. -/
theorem next_eq_none_iff : next g c = none ↔ c.phase = .ended ∨ ∃ e, c.phase = .halted e := by
  obtain ⟨m, phase, ws⟩ := c
  cases phase with
  | ended => simp [next]
  | halted e => simp [next]
  | unit code r => simp [next]
  | loop cur =>
    cases cur with
    | none => simp [next]
    | some id => cases hf : m.fault <;> simp [next, hf]

/-- What a loop leaves, also where it halts or is cut off, is the machine of one of the states. -/
theorem exists_stateAt_dispatch {entry : OpId} (hentry : g.entry = some entry) (n : Nat) :
    ∃ i c, stateAt g m i = some c ∧ (dispatch g n (some entry) m.fresh = .ok () c.machine ∨
      ∃ e, dispatch g n (some entry) m.fresh = .error e c.machine) := by
  have follows := dispatch_follows g n (some entry) m.fresh []
  cases hd : dispatch g n (some entry) m.fresh with
  | ok u m' =>
    rw [hd] at follows
    obtain ⟨i, hi⟩ := follows
    exact ⟨i, _, (stateAt_eq_after hentry i).trans hi, .inl rfl⟩
  | error e m' =>
    rw [hd] at follows
    obtain ⟨i, c, hi, rfl, -⟩ := follows
    exact ⟨i, c, (stateAt_eq_after hentry i).trans hi, .inr ⟨e, rfl⟩⟩

/-- A loop whose steps come to a last state: it ends or halts there, unless it is cut off before. -/
theorem dispatch_of_last {cur : Option OpId} (h : after g i ⟨m, .loop cur, []⟩ = some c)
    (hlast : next g c = none) (n : Nat) :
    (c.phase = .ended ∧ dispatch g n cur m = .ok () c.machine) ∨
    (∃ e, c.phase = .halted e ∧ dispatch g n cur m = .error e c.machine) ∨
    (n ≤ i ∧ ∃ m', dispatch g n cur m = .error .outOfFuel m') := by
  have follows := dispatch_follows g n cur m []
  cases hd : dispatch g n cur m with
  | ok u m' =>
    rw [hd] at follows
    obtain ⟨k, hk⟩ := follows
    rw [last_unique h hlast hk rfl]
    exact .inl ⟨rfl, rfl⟩
  | error e m' =>
    rw [hd] at follows
    obtain ⟨k, c', hk, rfl, ⟨rfl, hle, -⟩ | hhalt⟩ := follows
    · exact .inr (.inr ⟨Nat.le_trans hle (le_of_last h hlast hk), _, rfl⟩)
    · rw [last_unique h hlast hk (next_eq_none_iff.mpr (.inr ⟨e, hhalt⟩))]
      exact .inr (.inl ⟨e, hhalt, rfl⟩)

/-- **A loop whose steps come to an end is not cut off by a larger bound.** -/
theorem dispatch_of_ended {cur : Option OpId} (h : after g i ⟨m, .loop cur, []⟩ = some c)
    (hp : c.phase = .ended) (hn : i < n) : dispatch g n cur m = .ok () c.machine := by
  obtain ⟨-, hd⟩ | ⟨e, hhalt, -⟩ | ⟨hle, -⟩ :=
    dispatch_of_last h (next_eq_none_iff.mpr (.inl hp)) n
  · exact hd
  · rw [hp] at hhalt
    cases hhalt
  · omega

/-- A loop that comes to its end without a fault: the run forgets what it has saved. -/
theorem run_of_dispatch {entry : OpId} (hentry : g.entry = some entry)
    (h : dispatch g n (some entry) m.fresh = .ok () m') (hf : m'.fault = none) :
    run g n m = .ok () ({ m' with current := none }.forget m.saves.length) := by
  rw [run_eq_whole hentry]
  unfold whole
  simp only [Effect.modify_bind, Effect.get_bind]
  rw [Effect.bind_ok h]
  simp only [Effect.modify_bind, Effect.get_bind, hf]
  rfl

/-- A loop that comes to its end with a fault: the run puts back what it has saved, and throws the
fault. -/
theorem run_of_dispatch_fault {entry : OpId} {f : Fault} (hentry : g.entry = some entry)
    (h : dispatch g n (some entry) m.fresh = .ok () m') (hf : m'.fault = some f) :
    run g n m = .error (.fault f)
      { { m' with current := none }.unwind m.saves.length with fault := none } := by
  rw [run_eq_whole hentry]
  unfold whole
  simp only [Effect.modify_bind, Effect.get_bind]
  rw [Effect.bind_ok h]
  simp only [Effect.modify_bind, Effect.get_bind, hf]
  rfl

theorem run_of_halt {entry : OpId} {e : Halt} (hentry : g.entry = some entry)
    (h : dispatch g n (some entry) m.fresh = .error e m') : run g n m = .error e m' := by
  rw [run_eq_whole hentry]
  unfold whole
  simp only [Effect.modify_bind, Effect.get_bind]
  rw [Effect.bind_error h]

/-- **A run whose steps come to an end with a fault** throws it, within any larger bound. -/
theorem run_of_faulted {f : Fault} (h : stateAt g m i = some c) (hp : c.phase = .ended)
    (hf : c.machine.fault = some f) (hn : i < n) :
    run g n m = .error (.fault f)
      { { c.machine with current := none }.unwind m.saves.length with fault := none } := by
  obtain ⟨entry, hentry, h⟩ := Option.bind_eq_some_iff.mp h
  exact run_of_dispatch_fault hentry (dispatch_of_ended h hp hn) hf

end Config

end Machine

end Graft
