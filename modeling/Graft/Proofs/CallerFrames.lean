import Graft.Proofs.Footprints

/-! # A call keeps the frame of its caller

A unit that runs a fragment may have boxes on the stack and hold temporaries.  The fragment works
above floors that the call has raised over all of them.  It takes nothing from below its floor, the
end of its statements frees nothing below the other one, and it can come by no reference to a
temporary of the caller, so it does not even write to one.

`Machine.Shelters S T` says this of a machine, for the stack `S` and the temporaries `T` of the
caller.  One op and one instruction keep it, and so does every step of the call, with the fragments
that are called inside it and whether there are faults or not (`Config.Step.sheltered`).

That a temporary of the caller keeps its contents is the hard part.  Floors alone do not give it: a
fragment could write through a reference that it has been handed.  But all that it is handed lies on
the stack above its floor, which is empty when it starts; and what it comes by later are slots of
the pad and temporaries that it has made itself.  So the invariant is about references, of what was
put on the stack since and of the registers of all units that wait inside the call, and the contents
follow.

A fragment may fault, and units inside the call then run on to their ends.  Nothing in the argument
asks whether there is a fault, since the steps are the same; only the last state is left by another
way.
-/

namespace Graft

/-- The reference is not to one of the first so many temporaries. -/
def Ref.Above (temps : Nat) : Ref → Prop
  | .temp i => temps ≤ i
  | .pad _ | .null => True

namespace Machine

/-- **The machine still has what was there at a call**, the stack at the bottom and the temporaries
first, both below the floors, and nothing that was put on the stack since refers to these
temporaries. -/
structure Shelters (S : List Ref) (T : Array Scalar) (m : Machine) : Prop where
  stack : ∃ upper, m.stack = upper ++ S ∧ ∀ r ∈ upper, r.Above T.size
  temps : T.toList <+: m.temps.toList
  stackFloor : S.length ≤ m.stackFloor
  tempFloor : T.size ≤ m.tempFloor

variable {S : List Ref} {T : Array Scalar} {m m' : Machine} {r : Ref}

namespace Shelters

theorem size_le (h : Shelters S T m) : T.size ≤ m.temps.size := by
  simpa using h.temps.length_le

theorem suffix (h : Shelters S T m) : S <:+ m.stack := by
  obtain ⟨upper, hs, -⟩ := h.stack
  exact ⟨upper, hs.symm⟩

/-! ### What is done to a machine -/

theorem write (h : Shelters S T m) (hr : r.Above T.size) (v : Scalar) : Shelters S T (m.write r v) := by
  refine ⟨?_, ?_, ?_, ?_⟩
  · rw [stack_write]
    exact h.stack
  · cases r with
    | pad slot => exact h.temps
    | null => exact h.temps
    | temp i =>
      have beyond : T.size ≤ i := hr
      obtain ⟨rest, hrest⟩ := h.temps
      refine ⟨rest.set (i - T.size) v, ?_⟩
      show _ = (m.temps.setIfInBounds i v).toList
      rw [Array.toList_setIfInBounds, ← hrest, List.set_append_right _ _ (by simpa using beyond)]
      simp
  · rw [floors_write.1]
    exact h.stackFloor
  · rw [floors_write.2]
    exact h.tempFloor

theorem copy (h : Shelters S T m) (hr : r.Above T.size) (source : Ref) :
    Shelters S T (m.copy r source) := by
  unfold Machine.copy
  split
  · exact h
  · exact h.write hr _

theorem push (h : Shelters S T m) (hr : r.Above T.size) : Shelters S T (m.push r) := by
  obtain ⟨upper, hs, habove⟩ := h.stack
  refine { h with stack := ⟨r :: upper, ?_, ?_⟩ }
  · rw [Machine.push, hs, List.cons_append]
  · exact List.forall_mem_cons.mpr ⟨hr, habove⟩

/-- What is taken from the stack was put there since the call. -/
theorem pop (h : Shelters S T m) (hp : m.pop? = some (r, m')) : Shelters S T m' ∧ r.Above T.size := by
  obtain ⟨upper, hs, habove⟩ := h.stack
  have hfloor : ¬m.stack.length ≤ m.stackFloor := by
    intro hle
    simp [pop?, top?, hle] at hp
  cases upper with
  | nil =>
    have := h.stackFloor
    rw [hs, List.nil_append] at hfloor
    exact absurd this hfloor
  | cons t upper =>
    obtain ⟨first, rest⟩ := List.forall_mem_cons.mp habove
    rw [pop?, top?, if_neg hfloor, hs] at hp
    cases hp
    exact ⟨{ h with stack := ⟨upper, rfl, rest⟩ }, first⟩

theorem newTemp (h : Shelters S T m) (v : Scalar) :
    Shelters S T (m.newTemp v).2 ∧ (m.newTemp v).1.Above T.size := by
  refine ⟨{ h with temps := ?_ }, h.size_le⟩
  show _ <+: (m.temps.push v).toList
  rw [Array.toList_push]
  exact h.temps.trans (List.prefix_append _ _)

theorem introduce (h : Shelters S T m) {slot : Slot} (hi : m.introduce? slot = some m') :
    Shelters S T m' := by
  unfold introduce? at hi
  cases hv : m.padValue? slot with
  | none => simp [hv] at hi
  | some v =>
    simp only [hv, Option.some.injEq] at hi
    subst hi
    exact { h.write (r := .pad slot) trivial .undefined with }

/-- The end of a statement drops only what lies above the floors. -/
theorem endStatement (h : Shelters S T m) : Shelters S T m.endStatement := by
  obtain ⟨upper, hs, habove⟩ := h.stack
  have hstack := h.stackFloor
  have htemps := h.tempFloor
  refine { h with stack := ⟨upper.drop (m.stack.length - m.stackFloor), ?_, ?_⟩, temps := ?_ }
  · have within : m.stack.length - m.stackFloor ≤ upper.length := by
      rw [hs, List.length_append]
      omega
    rw [← List.drop_append_of_le_length within, ← hs]
    rfl
  · intro t ht
    exact habove t (List.mem_of_mem_drop ht)
  · show _ <+: (m.temps.take m.tempFloor).toList
    rw [Array.take_eq_extract, Array.toList_extract]
    exact List.prefix_take_iff.mpr ⟨h.temps, by simpa using htemps⟩

theorem fail (h : Shelters S T m) (f : Fault) : Shelters S T (m.fail f) := { h with }

/-- A call inside the call raises the floors. -/
theorem enter (h : Shelters S T m) : Shelters S T m.enter.2 :=
  { h with stackFloor := h.suffix.length_le, tempFloor := h.size_le }

/-- Floors that are lowered again must not be below what was there at the call. -/
theorem leave (h : Shelters S T m) {frame : Frame} (hs : S.length ≤ frame.stackFloor)
    (ht : T.size ≤ frame.tempFloor) : Shelters S T (m.leave frame) :=
  { h with stackFloor := hs, tempFloor := ht }

/-- At the call itself. -/
theorem start (m : Machine) : Shelters m.stack m.temps m.enter.2 where
  stack := ⟨[], rfl, by simp⟩
  temps := List.prefix_refl _
  stackFloor := Nat.le_refl _
  tempFloor := Nat.le_refl _

end Shelters

/-! ### Ops -/

/-- The op has come to a box that it may write to and put on the stack. -/
def Fetched (S : List Ref) (T : Array Scalar) (r : Ref) (m : Machine) : Prop :=
  Shelters S T m ∧ r.Above T.size

theorem padRef?_above {slot : Slot} {n : Nat} (h : m.padRef? slot = some r) : r.Above n := by
  unfold padRef? at h
  split at h
  · cases h
    trivial
  · cases h

theorem pop_sheltered (id : OpId) :
    Ensures (Shelters S T) (pop id) (Fetched S T) (Shelters S T) := by
  intro m hm
  unfold Machine.pop
  rw [Effect.get_bind]
  cases hp : m.pop? with
  | some p => exact hm.pop hp
  | none => exact hm

theorem peek_sheltered (id : OpId) :
    Ensures (Shelters S T) (peek id) (fun _ => Shelters S T) (Shelters S T) := by
  intro m hm
  unfold Machine.peek
  rw [Effect.get_bind]
  cases m.top? with
  | some r => exact hm
  | none => exact hm

theorem padRef_sheltered (slot : Slot) :
    Ensures (Shelters S T) (padRef slot) (Fetched S T) (Shelters S T) := by
  intro m hm
  unfold Machine.padRef
  rw [Effect.get_bind]
  cases hp : m.padRef? slot with
  | some r => exact ⟨hm, padRef?_above hp⟩
  | none => exact hm

theorem temp_sheltered (v : Scalar) :
    Ensures (Shelters S T) (temp v) (Fetched S T) (Shelters S T) := fun _ hm => hm.newTemp v

theorem introduceIf_sheltered (new : Bool) (slot : Slot) :
    Ensures (Shelters S T) (introduceIf new slot) (fun _ => Shelters S T) (Shelters S T) := by
  intro m hm
  cases new with
  | false => exact hm
  | true =>
    unfold introduceIf Machine.introduce
    rw [if_pos rfl, Effect.get_bind]
    cases hi : m.introduce? slot with
    | some m' => exact hm.introduce hi
    | none => exact hm

theorem target_sheltered (slot : Option Slot) :
    Ensures (Shelters S T) (target slot) (Fetched S T) (Shelters S T) := by
  cases slot with
  | none => exact temp_sheltered .undefined
  | some slot => exact padRef_sheltered slot

theorem targetOf_sheltered (op : Op) (left : Ref) :
    Ensures (Fetched S T left) (targetOf op left) (Fetched S T) (Shelters S T) := by
  unfold targetOf
  split
  · exact .pure left fun _ hm => hm
  · exact (target_sheltered op.targ).pre fun _ hm => hm.1

theorem pushRef_sheltered (r : Ref) :
    Ensures (Fetched S T r) (pushRef r) (fun _ => Shelters S T) (Shelters S T) :=
  fun _ hm => hm.1.push hm.2

theorem yield_sheltered (dst : Ref) (x : Float) :
    Ensures (Fetched S T dst) (yield dst x) (fun _ => Shelters S T) (Shelters S T) :=
  .bind (.modify fun _ hm => ⟨hm.1.write hm.2 _, hm.2⟩) fun _ => pushRef_sheltered dst

/-- **An op keeps the caller's frame**, whether it ends well or not. -/
theorem exec_sheltered (id : OpId) (op : Op) :
    Ensures (Shelters S T) (exec id op) (fun _ => Shelters S T) (Shelters S T) := by
  have weaken : ∀ r m, Fetched S T r m → Shelters S T m := fun _ _ hm => hm.1
  have stay : ∀ a : Option OpId, Ensures (Shelters S T) (Pure.pure a : MachineM (Option OpId))
      (fun _ => Shelters S T) (Shelters S T) := fun a => .pure a fun _ hm => hm
  have drop : ∀ a : Option OpId, Ensures (Shelters S T) (do discard (Machine.pop id); return a)
      (fun _ => Shelters S T) (Shelters S T) := fun a =>
    .bind (.bind (pop_sheltered id) fun r => .pure () (weaken r)) fun _ => stay a
  unfold exec
  cases op.kind <;> dsimp only
  case const v => exact .bind (temp_sheltered v) fun r => .bind (pushRef_sheltered r) fun _ => stay _
  case lexical slot new =>
    exact .bind (introduceIf_sheltered new slot) fun _ => .bind (padRef_sheltered slot) fun r =>
      .bind (pushRef_sheltered r) fun _ => stay _
  case arith a =>
    exact .bind (pop_sheltered id) fun r => .bind ((pop_sheltered id).pre (weaken r)) fun l =>
      .bind .get fun m => .bind (.calculate (weaken l) a _ _) fun x =>
      .bind (targetOf_sheltered op l) fun dst => .bind (yield_sheltered dst x) fun _ => stay _
  case negate =>
    exact .bind (pop_sheltered id) fun b => .bind .get fun m =>
      .bind ((target_sheltered _).pre (weaken b)) fun dst => .bind (yield_sheltered dst _) fun _ =>
      stay _
  case assign =>
    exact .bind (pop_sheltered id) fun src => .bind ((pop_sheltered id).pre (weaken src)) fun dst =>
      .bind (.modify fun m hm => ⟨hm.1.copy hm.2 src, hm.2⟩) fun _ =>
      .bind (pushRef_sheltered dst) fun _ => stay _
  case and =>
    refine .bind (peek_sheltered id) fun b => .bind .get fun m => ?_
    split
    · exact drop _
    · exact stay _
  case or =>
    refine .bind (peek_sheltered id) fun b => .bind .get fun m => ?_
    split
    · exact stay _
    · exact drop _
  case cond => exact .bind (pop_sheltered id) fun b => .bind .get fun m => .pure _ (weaken b)
  case mark => exact .bind (.modify fun _ hm => hm.endStatement) fun _ => stay _
  case statements => exact stay _
  case stub => exact stay _
  case native unit => exact fun _ hm => hm

/-! ### Instructions -/

/-- No register refers to one of the first so many temporaries. -/
def Registers.Above (temps : Nat) (r : Registers) : Prop := ∀ b ∈ r.boxes, b.Above temps

theorem Registers.Above.box {n : Nat} {r : Registers} (h : r.Above n) (i : Nat) : (r.box i).Above n := by
  unfold Registers.box
  cases hb : r.boxes[i]? with
  | none => trivial
  | some b => exact h b (Array.mem_of_getElem? hb)

theorem Registers.Above.withBox {n : Nat} {r : Registers} {b : Ref} (h : r.Above n) (hb : b.Above n) :
    (r.withBox b).Above n := by
  intro c hc
  rcases Array.mem_push.mp hc with hc | rfl
  · exact h c hc
  · exact hb

/-- A box that may be missing is replaced by a temporary. -/
theorem orFail_sheltered {f : Fault} {o : Option (Ref × Machine)} {b : Ref} (hm : Shelters S T m)
    (ho : ∀ b₁ m₁, o = some (b₁, m₁) → Fetched S T b₁ m₁) (h : orFail f o m = .ok b m') :
    Fetched S T b m' := by
  cases o with
  | some p =>
    cases h
    exact ho _ _ rfl
  | none =>
    cases h
    exact (hm.fail f).newTemp .undefined

/-- **An instruction keeps the caller's frame**, and gives its unit no reference into it. -/
theorem perform_sheltered {r r' : Registers} {i : Instr} (hm : Shelters S T m) (hr : r.Above T.size)
    (h : perform r i m = .ok r' m') : Shelters S T m' ∧ r'.Above T.size := by
  unfold perform at h
  cases i <;> dsimp only at h
  case pad slot =>
    rw [Effect.get_bind] at h
    obtain ⟨b, m₁, hb, h⟩ := Effect.bind_eq_ok.mp h
    cases h
    obtain ⟨kept, above⟩ := orFail_sheltered hm (fun b₁ m₁ ho => by
      obtain ⟨b₀, hp, he⟩ := Option.map_eq_some_iff.mp ho
      cases he
      exact ⟨hm, padRef?_above hp⟩) hb
    exact ⟨kept, hr.withBox above⟩
  case pop =>
    rw [Effect.get_bind] at h
    obtain ⟨b, m₁, hb, h⟩ := Effect.bind_eq_ok.mp h
    cases h
    obtain ⟨kept, above⟩ := orFail_sheltered hm (fun b₁ m₁ ho => hm.pop ho) hb
    exact ⟨kept, hr.withBox above⟩
  case clear slot =>
    cases h
    refine ⟨?_, hr⟩
    cases hi : m.introduce? slot with
    | some m₁ => exact hm.introduce hi
    | none => exact hm.fail _
  case temp =>
    cases h
    obtain ⟨kept, above⟩ := hm.newTemp .undefined
    exact ⟨kept, hr.withBox above⟩
  case null => cases h; exact ⟨hm, hr.withBox trivial⟩
  case push b => cases h; exact ⟨hm.push (hr.box b), hr⟩
  case storeNum b i => cases h; exact ⟨hm.write (hr.box b) _, hr⟩
  case storeInt b i => cases h; exact ⟨hm.write (hr.box b) _, hr⟩
  case storeUInt b i => cases h; exact ⟨hm.write (hr.box b) _, hr⟩
  case copy b c => cases h; exact ⟨hm.copy (hr.box b) _, hr⟩
  case number b logged => cases h; exact ⟨{ hm with }, hr⟩
  all_goals cases h; exact ⟨hm, hr⟩

/-! ### Throughout a call -/

namespace Config

/-- **A state during a call** that keeps what was there before it: also the units that wait inside
the call have floors above that, and none of their registers refers into it. -/
structure Sheltered (S : List Ref) (T : Array Scalar) (c : Config) : Prop where
  machine : Shelters S T c.machine
  waiting : ∀ w ∈ c.waiting, S.length ≤ w.frame.stackFloor ∧ T.size ≤ w.frame.tempFloor ∧
    w.registers.Above T.size
  active : ∀ code r, c.phase = .unit code r → r.Above T.size

variable {g : Graph} {c c' : Config} {a : Action}

theorem Sheltered.resume {cur : Option OpId} {ws : List Waiting}
    (hc : Sheltered S T ⟨m, .loop cur, ws⟩) : (resume m ws).Sheltered S T := by
  cases ws with
  | nil => exact ⟨hc.machine, by simp [Config.resume], by simp [Config.resume]⟩
  | cons w ws =>
    obtain ⟨⟨hstack, htemps, hregs⟩, hws⟩ := List.forall_mem_cons.mp hc.waiting
    refine ⟨hc.machine.leave hstack htemps, hws, ?_⟩
    rintro _ _ ⟨⟩
    exact hregs

theorem Sheltered.interpret {cur : Option OpId} {ws : List Waiting}
    (hc : Sheltered S T ⟨m, .loop cur, ws⟩) (id : OpId) (op : Op) :
    (settled ws (exec id op m)).Sheltered S T := by
  have done : Ensures (· = m) (exec id op) (fun _ => Shelters S T) (Shelters S T) :=
    (exec_sheltered id op).pre fun _ he => he ▸ hc.machine
  obtain ⟨m', kept, ⟨succ, here⟩ | ⟨f, here⟩ | ⟨e, -, -, here⟩⟩ := settled_cases done ws
  · rw [here]
    exact ⟨kept, hc.waiting, by simp⟩
  · rw [here]
    exact ⟨kept.fail f, hc.waiting, by simp⟩
  · rw [here]
    exact ⟨kept, hc.waiting, by simp⟩

/-- **Every step of a call keeps the caller's frame.** -/
theorem Step.sheltered (h : Step g c a c') (hc : c.Sheltered S T) : c'.Sheltered S T := by
  cases h with
  | back => exact hc.resume
  | unknown => exact ⟨hc.machine.fail _, hc.waiting, by simp⟩
  | enter =>
    refine ⟨{ hc.machine with }, hc.waiting, ?_⟩
    rintro _ _ ⟨⟩ b hb
    simp at hb
  | interpret => exact hc.interpret _ _
  | done => exact ⟨hc.machine, hc.waiting, by simp⟩
  | ret => exact ⟨hc.machine, hc.waiting, by simp⟩
  | miss =>
    refine ⟨hc.machine.fail _, hc.waiting, ?_⟩
    rintro _ _ ⟨⟩
    exact hc.active _ _ rfl
  | call =>
    refine ⟨hc.machine.enter, ?_, by simp⟩
    exact List.forall_mem_cons.mpr
      ⟨⟨hc.machine.stackFloor, hc.machine.tempFloor, hc.active _ _ rfl⟩, hc.waiting⟩
  | perform _ hp =>
    obtain ⟨kept, above⟩ := perform_sheltered hc.machine (hc.active _ _ rfl) hp
    refine ⟨kept, hc.waiting, ?_⟩
    rintro _ _ ⟨⟩
    exact above

/-- The state in which a call of the fragment below `root` starts. -/
def ofCall (g : Graph) (root : OpId) (m : Machine) : Config :=
  ⟨m.enter.2, .loop (some (g.startOf root)), []⟩

theorem sheltered_after {root : OpId} {n : Nat} (h : after g n (ofCall g root m) = some c) :
    c.Sheltered m.stack m.temps := by
  induction n generalizing c with
  | zero =>
    cases h
    exact ⟨.start m, by simp [ofCall], by simp [ofCall]⟩
  | succ n ih =>
    obtain ⟨d, a, hd, hs⟩ := after_succ h
    exact (step_of_next hs).sheltered (ih hd)

end Config

open Config

/-- What a call comes to: a fault if there is no such fragment, and else the end of the steps from
its start, with the caller's frame put back. -/
theorem callFragment_eq_ok {g : Graph} {n : Nat} {root : OpId}
    (h : callFragment g (dispatch g n) root m = .ok () m') :
    g.op? root = none ∧ m' = m.fail (.unknownOp root) ∨
      ∃ i c, after g i (ofCall g root m) = some c ∧ c.phase = .ended ∧
        m' = c.machine.leave m.enter.1 := by
  unfold callFragment at h
  cases ho : g.op? root with
  | none =>
    rw [ho] at h
    cases h
    exact .inl ⟨rfl, rfl⟩
  | some op =>
    rw [ho] at h
    change (dispatch g n (some (g.startOf root)) >>= fun _ => modify fun m₁ => m₁.leave m.enter.1)
      m.enter.2 = .ok () m' at h
    obtain ⟨u, m₁, hd, h⟩ := Effect.bind_eq_ok.mp h
    cases h
    have follows := dispatch_follows g n (some (g.startOf root)) m.enter.2 []
    rw [hd] at follows
    obtain ⟨i, hi⟩ := follows
    exact .inr ⟨i, _, hi, rfl, rfl⟩

/-- **A call keeps the frame of its caller.**  Where the run of a fragment comes to its end, with a
fault or without, and whatever is run inside it, the stack ends in what was on it, the temporaries
begin with those that there were, with their contents, and the op of the unit, the floors and the op
to go on with are as before.  Nothing of this is given up meanwhile: the stack and the temporaries
of the caller are there in every state of the call, and the last of these states is the one that the
call leaves, with the caller's frame put back.

A call starts with floors above all that the caller has, so nothing of the caller is in its reach,
and no step changes that.  Leaving the call puts the floors and the ops back and touches nothing
else. -/
theorem call_keeps_frame {g : Graph} {n : Nat} {root : OpId}
    (h : callFragment g (dispatch g n) root m = .ok () m') :
    (m.stack <:+ m'.stack ∧ m.temps.toList <+: m'.temps.toList ∧ m'.current = m.current ∧
      m'.stackFloor = m.stackFloor ∧ m'.tempFloor = m.tempFloor ∧ m'.successor g = m.successor g) ∧
    (∀ i c, after g i (ofCall g root m) = some c →
      m.stack <:+ c.machine.stack ∧ m.temps.toList <+: c.machine.temps.toList) ∧
    (g.op? root = none ∧ m' = m.fail (.unknownOp root) ∨
      ∃ i c, after g i (ofCall g root m) = some c ∧ c.phase = .ended ∧
        m' = c.machine.leave m.enter.1) := by
  have meanwhile : ∀ i c, after g i (ofCall g root m) = some c →
      m.stack <:+ c.machine.stack ∧ m.temps.toList <+: c.machine.temps.toList := by
    intro i c hi
    have kept := (sheltered_after hi).machine
    exact ⟨kept.suffix, kept.temps⟩
  have comes := callFragment_eq_ok h
  refine ⟨?_, meanwhile, comes⟩
  rcases comes with ⟨-, rfl⟩ | ⟨i, c, hi, -, rfl⟩
  · exact ⟨List.suffix_refl _, List.prefix_refl _, rfl, rfl, rfl, rfl⟩
  · obtain ⟨stack, temps⟩ := meanwhile i c hi
    exact ⟨stack, temps, rfl, rfl, rfl, rfl⟩

/-! ### A fragment that reaches too far

Its unit calls a fragment that ends a statement and leaves a box; the unit takes this box and then
wants another one, with one of the caller's on the stack below the floor. -/

def reachingGraph : Graph where
  owner := ⟨0⟩
  ops := #[{ kind := .mark, next := some ⟨1⟩ },
    { kind := .native ⟨"reaching", [.temp, .call ⟨3⟩, .pop, .pop, .storeInt 2 9], [⟨3⟩]⟩,
      next := some ⟨2⟩ },
    { kind := .stub },
    { kind := .mark, next := some ⟨4⟩ },
    { kind := .const (.int 7) }]

def callingMachine : Machine where
  pad := #[.int 1]
  stack := [.temp 0, .pad ⟨0⟩]
  temps := #[.int 5]
  stackFloor := 1
  current := some ⟨3⟩

theorem call_keeps_frame_reaching : ∃ m',
    callFragment reachingGraph (dispatch reachingGraph 5) ⟨0⟩ callingMachine = .ok () m' ∧
    m'.fault = some (.stackUnderflow ⟨1⟩) ∧ m'.temps.size = 4 ∧
    [Ref.temp 0, .pad ⟨0⟩] <:+ m'.stack ∧ [Scalar.int 5] <+: m'.temps.toList ∧
    m'.current = some ⟨3⟩ ∧ m'.stackFloor = 1 ∧ m'.tempFloor = 0 ∧
    m'.successor reachingGraph = some ⟨4⟩ := by
  have run : ∃ m',
      callFragment reachingGraph (dispatch reachingGraph 5) ⟨0⟩ callingMachine = .ok () m' ∧
      m'.fault = some (.stackUnderflow ⟨1⟩) ∧ m'.temps.size = 4 := ⟨_, rfl, rfl, rfl⟩
  obtain ⟨m', h, fault, size⟩ := run
  obtain ⟨⟨stack, temps, current, stackFloor, tempFloor, successor⟩, -, -⟩ := call_keeps_frame h
  exact ⟨m', h, fault, size, stack, temps, current, stackFloor, tempFloor, successor⟩

end Machine

end Graft
