import Graft.Proofs.Configurations
import Graft.Proofs.Meaning

/-! # What one step can touch

An interpreted op, and an instruction of a unit, may take what lies on the stack above the floor,
put boxes there that the machine has, make temporaries, store values, and declare a variable.
`Machine.Changed` says so once for both: nothing else of the machine is different afterwards.
Three things stand apart.  The end of a statement frees temporaries; an instruction may record a
fault, while an op throws it; and an instruction may put any box of its registers on the stack.

What holds throughout a run is derived from this, step by step, without looking at single ops.
There are some twenty ops and sixteen instructions, and several invariants of runs; this module is
where the cases are gone through, and it is done for the strongest thing that they have in common.
`Changed` is transitive, and so an op that takes two operands, computes and stores is followed
primitive by primitive (`ensures_exec`).
-/

namespace Graft

/-- The reference is to one of so many slots, or to one of so many temporaries. -/
def Ref.Under (slots temps : Nat) : Ref → Prop
  | .pad slot => slot.index < slots
  | .temp i => i < temps
  | .null => False

theorem Ref.Under.mono {r : Ref} {slots temps temps' : Nat} (h : r.Under slots temps)
    (ht : temps ≤ temps') : r.Under slots temps' := by
  cases r with
  | pad slot => exact h
  | temp i => exact Nat.lt_of_lt_of_le h ht
  | null => exact h

/-- The slot of the variable that an op declares. -/
def OpKind.declared? : OpKind → Option Slot
  | lexical slot true => some slot
  | _ => none

namespace Machine

/-- The slot of the variable that a step declares. -/
def Action.declared? : Action → Option Slot
  | .interpret _ op => op.kind.declared?
  | .perform (.clear slot) => some slot
  | _ => none

/-- What a step saves. -/
def Action.saved (a : Action) (m : Machine) : List (Slot × Scalar) :=
  (a.declared?.bind fun slot => (m.padValue? slot).map fun v => (slot, v)).toList

/-- The reference is to a box of the machine. -/
def Has (m : Machine) (r : Ref) : Prop := r.Under m.pad.size m.temps.size

/-- What lies on the stack below the floor. -/
def base (m : Machine) : List Ref := m.stack.drop (m.stack.length - m.stackFloor)

/-- The reference was on the stack of `m₀`, was given, or is to a box of `m`. -/
def Known (given : List Ref) (m₀ m : Machine) (r : Ref) : Prop :=
  r ∈ m₀.stack ∨ r ∈ given ∨ m.Has r

/-- **What a step leaves**: a machine like the one before, but for the values in its boxes, what
lies above the floors, and values that were saved. -/
structure Changed (given : List Ref) (saved : List (Slot × Scalar)) (m₀ m : Machine) : Prop where
  slots : m.pad.size = m₀.pad.size
  saves : m.saves = saved ++ m₀.saves
  fault : m.fault = m₀.fault
  stackFloor : m.stackFloor = m₀.stackFloor
  tempFloor : m.tempFloor = m₀.tempFloor
  temps : m₀.temps.size ≤ m.temps.size
  base : m₀.base <:+ m.stack
  refs : ∀ r ∈ m.stack, Known given m₀ m r

variable {m m₀ m' : Machine} {given : List Ref} {saved : List (Slot × Scalar)} {r : Ref}

theorem length_base_le (m : Machine) : m.base.length ≤ m.stackFloor := by
  rw [base, List.length_drop]
  omega

theorem has_write (s : Ref) (v : Scalar) : (m.write s v).Has r ↔ m.Has r := by
  rw [Has, Has, sizes_write.1, sizes_write.2]

namespace Known

theorem write (h : Known given m₀ m r) (s : Ref) (v : Scalar) : Known given m₀ (m.write s v) r :=
  h.imp_right fun h => h.imp_right (has_write s v).mpr

theorem copy (h : Known given m₀ m r) (s t : Ref) : Known given m₀ (m.copy s t) r := by
  unfold Machine.copy
  split
  · exact h
  · exact h.write s _

/-- The box of a variable is one of the machine's. -/
theorem pad {slot : Slot} (h : m.padRef? slot = some r) : Known given m₀ m r := by
  unfold padRef? at h
  split at h
  · cases h
    exact .inr (.inr ‹_›)
  · cases h

end Known

namespace Changed

theorem refl (given : List Ref) (m : Machine) : Changed given [] m m where
  slots := rfl
  saves := rfl
  fault := rfl
  stackFloor := rfl
  tempFloor := rfl
  temps := Nat.le_refl _
  base := List.drop_suffix _ _
  refs _ hr := .inl hr

theorem write (h : Changed given saved m₀ m) (s : Ref) (v : Scalar) :
    Changed given saved m₀ (m.write s v) where
  slots := sizes_write.1.trans h.slots
  saves := saves_write.trans h.saves
  fault := (fault_write m s v).trans h.fault
  stackFloor := floors_write.1.trans h.stackFloor
  tempFloor := floors_write.2.trans h.tempFloor
  temps := by rw [sizes_write.2]; exact h.temps
  base := by rw [stack_write]; exact h.base
  refs r hr := by
    rw [stack_write] at hr
    exact (h.refs r hr).write s v

theorem copy (h : Changed given saved m₀ m) (s t : Ref) : Changed given saved m₀ (m.copy s t) := by
  unfold Machine.copy
  split
  · exact h
  · exact h.write s _

theorem push (h : Changed given saved m₀ m) (hr : Known given m₀ m r) :
    Changed given saved m₀ (m.push r) where
  slots := h.slots
  saves := h.saves
  fault := h.fault
  stackFloor := h.stackFloor
  tempFloor := h.tempFloor
  temps := h.temps
  base := h.base.trans (List.suffix_cons r m.stack)
  refs s hs := (List.mem_cons.mp hs).elim (fun he => he ▸ hr) (h.refs s)

/-- What is taken from the stack lies above the floor. -/
theorem pop (h : Changed given saved m₀ m) (hp : m.pop? = some (r, m')) :
    Changed given saved m₀ m' ∧ Known given m₀ m' r := by
  unfold pop? top? at hp
  by_cases hfloor : m.stack.length ≤ m.stackFloor
  · simp [hfloor] at hp
  · cases hs : m.stack with
    | nil => simp [hs] at hfloor
    | cons s rest =>
      simp only [hs, if_neg (hs ▸ hfloor), List.head?_cons, List.tail_cons, Option.some.injEq,
        Prod.mk.injEq] at hp
      obtain ⟨rfl, rfl⟩ := hp
      have known : ∀ t ∈ s :: rest, Known given m₀ m t := hs ▸ h.refs
      have below : m₀.base <:+ rest := by
        rcases List.suffix_cons_iff.mp (hs ▸ h.base) with he | hsuf
        · have := congrArg List.length he
          have := length_base_le m₀
          have := h.stackFloor
          rw [hs] at hfloor
          omega
        · exact hsuf
      exact ⟨{ h with base := below, refs := fun t ht => known t (List.mem_cons_of_mem s ht) },
        known s List.mem_cons_self⟩

theorem newTemp (h : Changed given saved m₀ m) (v : Scalar) :
    Changed given saved m₀ (m.newTemp v).2 ∧ Known given m₀ (m.newTemp v).2 (m.newTemp v).1 := by
  have grown : m.temps.size < (m.newTemp v).2.temps.size := by simp [Machine.newTemp]
  refine ⟨{ h with temps := Nat.le_trans h.temps (Nat.le_of_lt grown), refs := fun r hr => ?_ },
    .inr (.inr grown)⟩
  exact (h.refs r hr).imp_right fun hr => hr.imp_right fun hr => hr.mono (Nat.le_of_lt grown)

/-- Declaring a variable saves its value, if there is such a variable. -/
theorem introduce (given : List Ref) (m : Machine) (slot : Slot) :
    Changed given ((m.padValue? slot).map fun v => (slot, v)).toList m
      ((m.introduce? slot).getD m) := by
  unfold introduce?
  cases m.padValue? slot with
  | none => exact .refl given m
  | some v => exact { ((refl given m).write (.pad slot) .undefined) with saves := rfl }

end Changed

/-! ### Ops -/

section

variable {α β : Type}

/-- From machines with `P` a computation comes to machines with `Q`, or halts at machines with
`E`. -/
def Ensures (P : Machine → Prop) (x : MachineM α) (Q : α → Machine → Prop) (E : Machine → Prop) :
    Prop := ∀ m, P m →
  match x m with
  | .ok a m' => Q a m'
  | .error _ m' => E m'

variable {P E : Machine → Prop}

theorem Ensures.bind {x : MachineM α} {k : α → MachineM β} {R : α → Machine → Prop}
    {Q : β → Machine → Prop} (hx : Ensures P x R E) (hk : ∀ a, Ensures (R a) (k a) Q E) :
    Ensures P (x >>= k) Q E := by
  intro m hm
  have h := hx m hm
  cases hxm : x m with
  | ok a m' =>
    rw [hxm] at h
    rw [Effect.bind_ok hxm]
    exact hk a m' h
  | error e m' =>
    rw [hxm] at h
    rw [Effect.bind_error hxm]
    exact h

theorem Ensures.pre {x : MachineM α} {P' : Machine → Prop} {Q : α → Machine → Prop}
    (hx : Ensures P x Q E) (hp : ∀ m, P' m → P m) : Ensures P' x Q E := fun m hm => hx m (hp m hm)

theorem Ensures.pure {Q : α → Machine → Prop} (a : α) (h : ∀ m, P m → Q a m) :
    Ensures P (pure a) Q E := h

theorem Ensures.get : Ensures P get (fun _ => P) E := fun _ hm => hm

theorem Ensures.modify {k : Machine → Machine} {Q : Machine → Prop} (h : ∀ m, P m → Q (k m)) :
    Ensures P (modify k) (fun _ => Q) E := h

theorem Ensures.calculate (h : ∀ m, P m → E m) (a : Arithmetic) (x y : Float) :
    Ensures P (calculate a x y) (fun _ => P) E := by
  intro m hm
  unfold Machine.calculate
  cases a.apply x y with
  | ok z => exact hm
  | error e => exact h m hm

/-- The op has come to a box that it may put on the stack. -/
def Got (saved : List (Slot × Scalar)) (m₀ : Machine) (r : Ref) (m : Machine) : Prop :=
  Changed [] saved m₀ m ∧ Known [] m₀ m r

theorem Ensures.pop (id : OpId) :
    Ensures (Changed [] saved m₀) (pop id) (Got saved m₀) (Changed [] saved m₀) := by
  intro m hm
  unfold Machine.pop
  rw [Effect.get_bind]
  cases hp : m.pop? with
  | some p => exact hm.pop hp
  | none => exact hm

theorem Ensures.peek (id : OpId) :
    Ensures (Changed [] saved m₀) (peek id) (fun _ => Changed [] saved m₀) (Changed [] saved m₀) := by
  intro m hm
  unfold Machine.peek
  rw [Effect.get_bind]
  cases m.top? with
  | some r => exact hm
  | none => exact hm

theorem Ensures.padRef (slot : Slot) :
    Ensures (Changed [] saved m₀) (padRef slot) (Got saved m₀) (Changed [] saved m₀) := by
  intro m hm
  unfold Machine.padRef
  rw [Effect.get_bind]
  cases hp : m.padRef? slot with
  | some r => exact ⟨hm, Known.pad hp⟩
  | none => exact hm

theorem Ensures.temp (v : Scalar) :
    Ensures (Changed [] saved m₀) (temp v) (Got saved m₀) (Changed [] saved m₀) :=
  fun _ hm => hm.newTemp v

theorem Ensures.target (slot : Option Slot) :
    Ensures (Changed [] saved m₀) (target slot) (Got saved m₀) (Changed [] saved m₀) := by
  cases slot with
  | none => exact .temp .undefined
  | some slot => exact .padRef slot

theorem Ensures.targetOf (op : Op) (left : Ref) :
    Ensures (Got saved m₀ left) (targetOf op left) (Got saved m₀) (Changed [] saved m₀) := by
  unfold Machine.targetOf
  split
  · exact .pure left fun _ hm => hm
  · exact (Ensures.target op.targ).pre fun _ hm => hm.1

theorem Ensures.pushRef (r : Ref) :
    Ensures (Got saved m₀ r) (pushRef r) (fun _ => Changed [] saved m₀) (Changed [] saved m₀) :=
  fun _ hm => hm.1.push hm.2

theorem Ensures.yield (dst : Ref) (x : Float) :
    Ensures (Got saved m₀ dst) (yield dst x) (fun _ => Changed [] saved m₀) (Changed [] saved m₀) := by
  refine .bind (.modify fun m hm => ?_) fun _ => .pushRef dst
  exact ⟨hm.1.write dst _, hm.2.write dst _⟩

/-- **An op that neither ends a statement nor declares a variable.** -/
theorem ensures_exec (id : OpId) {op : Op} (hmark : op.kind ≠ .mark) (hdecl : op.kind.declared? = none) :
    Ensures (Changed [] saved m₀) (exec id op) (fun _ => Changed [] saved m₀)
      (Changed [] saved m₀) := by
  have weaken : ∀ r m, Got saved m₀ r m → Changed [] saved m₀ m := fun _ _ hm => hm.1
  have stay : ∀ a : Option OpId, Ensures (Changed [] saved m₀) (Pure.pure a : MachineM (Option OpId))
      (fun _ => Changed [] saved m₀) (Changed [] saved m₀) := fun a => .pure a fun _ hm => hm
  have drop : ∀ a : Option OpId, Ensures (Changed [] saved m₀) (do discard (Machine.pop id); return a)
      (fun _ => Changed [] saved m₀) (Changed [] saved m₀) := fun a =>
    .bind (.bind (.pop id) fun r => .pure () (weaken r)) fun _ => stay a
  unfold exec
  cases hk : op.kind <;> rw [hk] at hdecl hmark <;> dsimp only
  case const v => exact .bind (.temp v) fun r => .bind (.pushRef r) fun _ => stay _
  case lexical slot new =>
    cases new with
    | true => cases hdecl
    | false =>
      exact .bind (.pure () fun _ hm => hm) fun _ => .bind (.padRef slot) fun r =>
        .bind (.pushRef r) fun _ => stay _
  case arith a =>
    exact .bind (.pop id) fun r => .bind ((Ensures.pop id).pre (weaken r)) fun l => .bind .get fun m =>
      .bind (.calculate (weaken l) a _ _) fun x => .bind (.targetOf op l) fun dst =>
      .bind (.yield dst x) fun _ => stay _
  case negate =>
    exact .bind (.pop id) fun b => .bind .get fun m =>
      .bind ((Ensures.target _).pre (weaken b)) fun dst => .bind (.yield dst _) fun _ => stay _
  case assign =>
    refine .bind (.pop id) fun src => .bind ((Ensures.pop id).pre (weaken src)) fun dst =>
      .bind (.modify fun m hm => ?_) fun _ => .bind (.pushRef dst) fun _ => stay _
    exact ⟨hm.1.copy dst src, hm.2.copy dst src⟩
  case and =>
    refine .bind (.peek id) fun b => .bind .get fun m => ?_
    split
    · exact drop _
    · exact stay _
  case or =>
    refine .bind (.peek id) fun b => .bind .get fun m => ?_
    split
    · exact stay _
    · exact drop _
  case cond => exact .bind (.pop id) fun b => .bind .get fun m => .pure _ (weaken b)
  case mark => exact absurd rfl hmark
  case statements => exact stay _
  case stub => exact stay _
  case native unit => exact fun _ hm => hm

/-- What a declaration of the variable in `slot` saves. -/
theorem Ensures.introduce (slot : Slot) (m : Machine) :
    Ensures (· = m) (introduce slot)
      (fun _ => Changed [] ((m.padValue? slot).map fun v => (slot, v)).toList m)
      (Changed [] ((m.padValue? slot).map fun v => (slot, v)).toList m) := by
  intro m' hm
  have changed := Changed.introduce [] m slot
  subst hm
  unfold Machine.introduce
  rw [Effect.get_bind]
  cases hi : m'.introduce? slot with
  | some m₁ =>
    rw [hi] at changed
    exact changed
  | none =>
    rw [hi] at changed
    exact changed

/-- **An op that does not end a statement**: if it declares a variable, the value is saved. -/
theorem exec_changed (id : OpId) {op : Op} (hmark : op.kind ≠ .mark) (m : Machine) :
    Ensures (· = m) (exec id op) (fun _ => Changed [] ((Action.interpret id op).saved m) m)
      (Changed [] ((Action.interpret id op).saved m) m) := by
  unfold Action.saved Action.declared?
  dsimp only
  cases hdecl : op.kind.declared? with
  | none => exact (ensures_exec id hmark hdecl).pre fun _ hm => hm ▸ .refl [] m
  | some slot =>
    obtain hk : op.kind = .lexical slot true := by
      unfold OpKind.declared? at hdecl
      split at hdecl
      · cases hdecl
        assumption
      · cases hdecl
    unfold exec
    rw [hk]
    exact .bind (.introduce slot m) fun _ => .bind (.padRef slot) fun r => .bind (.pushRef r) fun _ =>
      .pure _ fun _ hm => hm

theorem exec_mark (id : OpId) {op : Op} (h : op.kind = .mark) (m : Machine) :
    exec id op m = .ok op.next m.endStatement := by
  unfold exec
  rw [h]
  rfl

end

/-! ### Instructions -/

/-- The box that an instruction puts on the stack. -/
def pushed (r : Registers) : Instr → List Ref
  | .push b => [r.box b]
  | _ => []

/-- A fault may have been recorded. -/
def Recorded (m m' : Machine) : Prop := m' = m ∨ ∃ f, m' = m.fail f

/-- What an instruction appends to the boxes of a unit, with `m` before it and `m'` after it. -/
def Appended (i : Instr) (m m' : Machine) (r r' : Registers) : Prop :=
  match i with
  | .pad _ | .temp | .pop => ∃ b, r'.boxes = r.boxes.push b ∧ Known [] m m' b
  | .null => r'.boxes = r.boxes.push .null
  | _ => r'.boxes = r.boxes

/-- A box that may be missing is replaced by a temporary. -/
theorem orFail_changed {f : Fault} {o : Option (Ref × Machine)} {b : Ref} {m m' : Machine}
    (h : orFail f o m = .ok b m')
    (ho : ∀ b₁ m₁, o = some (b₁, m₁) → Changed [] [] m m₁ ∧ Known [] m m₁ b₁) :
    ∃ m₁, Changed [] [] m m₁ ∧ Recorded m₁ m' ∧ Known [] m m₁ b := by
  cases o with
  | some p =>
    cases h
    obtain ⟨changed, known⟩ := ho _ _ rfl
    exact ⟨_, changed, .inl rfl, known⟩
  | none =>
    cases h
    obtain ⟨changed, known⟩ := (Changed.refl [] m).newTemp .undefined
    exact ⟨_, changed, .inr ⟨f, rfl⟩, known⟩

/-- **An instruction**: up to the recording of a fault. -/
theorem perform_changed {r r' : Registers} {i : Instr} (h : perform r i m = .ok r' m') :
    ∃ m₁, Changed (pushed r i) ((Action.perform i).saved m) m m₁ ∧ Recorded m₁ m' ∧
      Appended i m m₁ r r' := by
  unfold perform at h
  cases i <;> dsimp only at h
  case pad slot =>
    rw [Effect.get_bind] at h
    obtain ⟨b, m₂, hb, h⟩ := Effect.bind_eq_ok.mp h
    cases h
    obtain ⟨m₁, changed, recorded, known⟩ := orFail_changed hb fun b₁ m₁ ho => by
      obtain ⟨b₀, hp, he⟩ := Option.map_eq_some_iff.mp ho
      cases he
      exact ⟨.refl [] m, .pad hp⟩
    exact ⟨m₁, changed, recorded, b, rfl, known⟩
  case pop =>
    rw [Effect.get_bind] at h
    obtain ⟨b, m₂, hb, h⟩ := Effect.bind_eq_ok.mp h
    cases h
    obtain ⟨m₁, changed, recorded, known⟩ := orFail_changed hb fun b₁ m₁ ho =>
      (Changed.refl [] m).pop ho
    exact ⟨m₁, changed, recorded, b, rfl, known⟩
  case clear slot =>
    cases h
    refine ⟨_, Changed.introduce [] m slot, ?_, rfl⟩
    cases m.introduce? slot with
    | some m₁ => exact .inl rfl
    | none => exact .inr ⟨_, rfl⟩
  case temp =>
    cases h
    obtain ⟨changed, known⟩ := (Changed.refl [] m).newTemp .undefined
    exact ⟨_, changed, .inl rfl, _, rfl, known⟩
  case push b =>
    cases h
    exact ⟨_, (Changed.refl [r.box b] m).push (.inr (.inl (List.mem_singleton.mpr rfl))), .inl rfl, rfl⟩
  case storeNum b i => cases h; exact ⟨_, (Changed.refl [] m).write _ _, .inl rfl, rfl⟩
  case storeInt b i => cases h; exact ⟨_, (Changed.refl [] m).write _ _, .inl rfl, rfl⟩
  case storeUInt b i => cases h; exact ⟨_, (Changed.refl [] m).write _ _, .inl rfl, rfl⟩
  case copy b c => cases h; exact ⟨_, (Changed.refl [] m).copy _ _, .inl rfl, rfl⟩
  case number b logged =>
    cases h
    refine ⟨_, ?_, .inl rfl, rfl⟩
    exact { Changed.refl [] m with }
  all_goals cases h; exact ⟨m, .refl [] m, .inl rfl, rfl⟩

/-! ### Steps -/

namespace Config

/-- What the step of an op comes to: to a loop, which may be about to stop because of a fault, or
to a halt. -/
theorem settled_cases {x : MachineM (Option OpId)} {C : Machine → Prop}
    (h : Ensures (· = m) x (fun _ => C) C) (ws : List Waiting) :
    ∃ m', C m' ∧ ((∃ succ, settled ws (x m) = ⟨m', .loop succ, ws⟩) ∨
      (∃ f, settled ws (x m) = ⟨m'.fail f, .loop none, ws⟩) ∨
      ∃ e, x m = .error e m' ∧ (∀ f, e ≠ .fault f) ∧ settled ws (x m) = ⟨m', .halted e, ws⟩) := by
  have left := h m rfl
  cases hx : x m with
  | ok succ m' =>
    rw [hx] at left
    exact ⟨m', left, .inl ⟨succ, rfl⟩⟩
  | error e m' =>
    rw [hx] at left
    refine ⟨m', left, .inr ?_⟩
    cases e with
    | fault f => exact .inl ⟨f, rfl⟩
    | overflow => exact .inr ⟨.overflow, rfl, by simp, rfl⟩
    | outOfFuel => exact .inr ⟨.outOfFuel, rfl, by simp, rfl⟩

end Config

end Machine

end Graft
