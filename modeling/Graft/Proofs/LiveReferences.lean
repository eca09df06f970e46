import Graft.Proofs.EditBatches
import Graft.Proofs.Footprints

/-! # References and their boxes

The end of a statement drops what lies above the floors, on the stack and of the temporaries, and
fragments end statements while the units that have called them hold boxes.  No reference is left
behind by that: a call raises both floors above all that there is, so what a waiting unit holds
lies below the floor of the temporaries, and what lies on the stack below its floor refers to
nothing above the other one.

`Machine.Tidy` is that for one loop, `Machine.Layered` for the units that wait, from the latest to
the first, and both hold throughout a run (`Config.sound_stateAt`).  Units may come from a
compilation; others must put only boxes on the stack, not the reference to no box.

A unit that waits has its own pair of floors, and they are put back when its call ends.  So the
invariant cannot speak of the floors of the moment alone: it goes down the list of waiting units,
and each of them is tidy with respect to the floors that it will have again.  A step of the
innermost loop changes nothing below the lowest of the present floors, and a call adds one layer to
the list.  That code pushes only boxes is known of compiled units by an invariant of their lowering
(`Lowering.pushesBoxes_of_codeOf`).
-/

namespace Graft

/-- The unit is from a compilation. -/
def CompiledUnit.IsGenerated (unit : CompiledUnit) : Prop :=
  ∃ (c : Compiler) (scope : Scope) (owner : OwnerId) (roots : List Term) (edits : List Edit)
    (c' : Compiler), c.compile scope owner roots = (.ok edits, c') ∧ ∃ e ∈ edits, e.unit? = some unit

/-- A unit from a compilation puts only boxes on the stack. -/
theorem CompiledUnit.IsGenerated.pushesBoxes {unit : CompiledUnit} (h : unit.IsGenerated) :
    pushesBoxes [] unit.code = true := by
  obtain ⟨c, scope, owner, roots, edits, c', hc, e, he, hunit⟩ := h
  obtain ⟨n, hn⟩ := Compiler.compile_eq_ok hc
  obtain ⟨run, hrun⟩ := (Job.outcome_compileTerms hn).codeOf_unit e he unit hunit
  exact Lowering.pushesBoxes_of_codeOf hrun

namespace Machine

variable {m m' : Machine} {given : List Ref} {saved : List (Slot × Scalar)}

/-- **A machine without references that are left behind.** -/
structure Tidy (m : Machine) : Prop where
  stackFloor : m.stackFloor ≤ m.stack.length
  tempFloor : m.tempFloor ≤ m.temps.size
  stack : ∀ r ∈ m.stack, m.Has r
  below : ∀ r ∈ m.base, r.Under m.pad.size m.tempFloor

theorem Tidy.length_base (h : m.Tidy) : m.base.length = m.stackFloor := by
  have := h.stackFloor
  rw [base, List.length_drop]
  omega

/-- What lies below a floor, from what lies below a higher one. -/
theorem drop_eq_of_suffix {l base : List Ref} {floor : Nat} (h : base <:+ l) (hl : base.length = floor) :
    l.drop (l.length - floor) = base := by
  subst hl
  exact (List.suffix_iff_eq_drop.mp h).symm

/-- **A step leaves what lies below the floors**, and references to boxes only, if it was given
such. -/
theorem Changed.tidy (h : Changed given saved m m') (ht : m.Tidy) (hg : ∀ r ∈ given, m.Has r) :
    m'.Tidy ∧ m'.base = m.base := by
  have kept : m'.base = m.base := by
    rw [Machine.base, h.stackFloor]
    exact drop_eq_of_suffix h.base ht.length_base
  have grown : ∀ r, m.Has r → m'.Has r := fun r hr => by
    rw [Has, h.slots]
    exact hr.mono h.temps
  refine ⟨⟨?_, ?_, fun r hr => ?_, ?_⟩, kept⟩
  · rw [h.stackFloor, ← ht.length_base]
    exact h.base.length_le
  · rw [h.tempFloor]
    exact Nat.le_trans ht.tempFloor h.temps
  · rcases h.refs r hr with hr | hr | hr
    · exact grown r (ht.stack r hr)
    · exact grown r (hg r hr)
    · exact hr
  · rw [kept, h.slots, h.tempFloor]
    exact ht.below

theorem tidy_fail (h : m.Tidy) (f : Fault) : (m.fail f).Tidy := { h with }

/-- The end of a statement. -/
theorem tidy_endStatement (h : m.Tidy) : m.endStatement.Tidy ∧ m.endStatement.base = m.base := by
  have freed : m.endStatement.temps.size = m.tempFloor := by
    simp [endStatement, Nat.min_eq_left h.tempFloor]
  have kept : m.endStatement.base = m.base :=
    drop_eq_of_suffix (List.suffix_refl m.base) h.length_base
  refine ⟨⟨Nat.le_of_eq h.length_base.symm, Nat.le_of_eq freed.symm, fun r hr => ?_, ?_⟩, kept⟩
  · rw [Has, freed]
    exact h.below r hr
  · rw [kept]
    exact h.below

/-- A call raises the floors above all that there is. -/
theorem tidy_enter (h : m.Tidy) : m.enter.2.Tidy ∧ m.enter.2.base = m.stack := by
  have all : m.enter.2.base = m.stack := by simp [enter, base]
  refine ⟨⟨Nat.le_refl _, Nat.le_refl _, h.stack, ?_⟩, all⟩
  rw [all]
  exact h.stack

/-! ### Units -/

/-- Each box of the registers is one of the first boxes, or there is none, and then it is not put on
the stack by the code. -/
def Carries (slots temps : Nat) (code : List Instr) (r : Registers) : Prop :=
  ∃ solid, pushesBoxes solid code = true ∧
    List.Forall₂ (fun s b => b.Under slots temps ∨ b = .null ∧ s = false) solid r.boxes.toList

/-- **What waiting units need**, the latest first: `base` lies on the stack below the floor, and
`floor` is that of the temporaries. -/
def Layered (slots : Nat) : List Ref → Nat → List Waiting → Prop
  | _, _, [] => True
  | base, floor, w :: ws => Carries slots floor w.code w.registers ∧ w.frame.tempFloor ≤ floor ∧
      ∃ lower, lower <:+ base ∧ lower.length = w.frame.stackFloor ∧
        (∀ r ∈ lower, r.Under slots w.frame.tempFloor) ∧ Layered slots lower w.frame.tempFloor ws

namespace Carries

variable {slots temps temps' : Nat} {code : List Instr} {r r' : Registers} {solid : List Bool} {b : Ref}

theorem mono (h : Carries slots temps code r) (ht : temps ≤ temps') : Carries slots temps' code r := by
  obtain ⟨solid, hp, hs⟩ := h
  exact ⟨solid, hp, hs.imp fun _ _ => Or.imp_left fun hb => hb.mono ht⟩

/-- The boxes of the unit are there. -/
theorem held (h : Carries slots temps code r) : ∀ b ∈ r.boxes, b ≠ .null → b.Under slots temps := by
  obtain ⟨solid, -, hs⟩ := h
  intro b hb hnull
  obtain ⟨s, -, here⟩ := exists_of_forall₂ hs (Array.mem_toList_iff.mpr hb)
  exact here.resolve_right fun h => hnull h.1

/-- The unit goes on after a call. -/
theorem call {root : OpId} (h : Carries slots temps (.call root :: code) r) :
    Carries slots temps code r := h

/-- The unit goes on with one more box. -/
theorem append {s : Bool} (hp : pushesBoxes (solid ++ [s]) code = true)
    (hs : List.Forall₂ (fun s b => b.Under slots temps ∨ b = .null ∧ s = false) solid r.boxes.toList)
    (hr : r'.boxes = r.boxes.push b) (hb : b.Under slots temps ∨ b = .null ∧ s = false) :
    Carries slots temps code r' := by
  refine ⟨solid ++ [s], hp, ?_⟩
  rw [hr, Array.toList_push]
  exact List.rel_append hs (.cons hb .nil)

/-- A register that certainly holds a box. -/
theorem under_of_solid {i : Nat}
    (hs : List.Forall₂ (fun s b => b.Under slots temps ∨ b = .null ∧ s = false) solid r.boxes.toList)
    (hi : solid.getD i false = true) : (r.box i).Under slots temps := by
  rw [List.getD_eq_getElem?_getD] at hi
  cases hsolid : solid[i]? with
  | none => simp [hsolid] at hi
  | some s =>
    obtain rfl : s = true := by simpa [hsolid] using hi
    obtain ⟨hlt, hget⟩ := List.getElem?_eq_some_iff.mp hsolid
    have hlt' : i < r.boxes.size := by
      rw [← Array.length_toList, ← hs.length_eq]
      exact hlt
    have here := hs.get hlt (by simpa using hlt')
    have box : r.box i = r.boxes[i] := by simp [Registers.box, hlt']
    simpa [hget, box] using here

/-- **Carrying out an instruction**: what is put on the stack is a box, and what the unit gets is
one, or it is not put on the stack later. -/
theorem perform {i : Instr} (h : Carries m.pad.size m.temps.size (i :: code) r) (ht : m.Tidy)
    (hi : i.IsPlain) (hp : Machine.perform r i m = .ok r' m') :
    m'.Tidy ∧ m'.base = m.base ∧ m'.pad.size = m.pad.size ∧ m'.tempFloor = m.tempFloor ∧
      Carries m'.pad.size m'.temps.size code r' := by
  obtain ⟨solid, hcode, hsolid⟩ := h
  obtain ⟨m₁, changed, recorded, appended⟩ := perform_changed hp
  have given : ∀ b ∈ pushed r i, m.Has b := by
    cases i
    case push k =>
      rintro b hb
      obtain rfl := List.mem_singleton.mp hb
      exact under_of_solid hsolid (Bool.and_eq_true_iff.mp hcode).1
    all_goals exact fun b hb => nomatch hb
  obtain ⟨tidy, base⟩ := changed.tidy ht given
  have has : ∀ b, m.Has b → b.Under m₁.pad.size m₁.temps.size := fun b hb => by
    rw [changed.slots]
    exact hb.mono changed.temps
  have held : List.Forall₂ (fun s b => b.Under m₁.pad.size m₁.temps.size ∨ b = .null ∧ s = false) solid
      r.boxes.toList := hsolid.imp fun _ _ => Or.imp_left (has _)
  have got : ∀ b, Known [] m m₁ b → b.Under m₁.pad.size m₁.temps.size := by
    rintro b (hb | hb | hb)
    · exact has b (ht.stack b hb)
    · cases hb
    · exact hb
  have carries : Carries m₁.pad.size m₁.temps.size code r' := by
    cases i
    case pad slot =>
      obtain ⟨b, hb, known⟩ := appended
      exact append hcode held hb (.inl (got b known))
    case temp =>
      obtain ⟨b, hb, known⟩ := appended
      exact append hcode held hb (.inl (got b known))
    case pop =>
      obtain ⟨b, hb, known⟩ := appended
      exact append hcode held hb (.inl (got b known))
    case null => exact append hcode held appended (.inr ⟨rfl, rfl⟩)
    case push k => exact ⟨solid, (Bool.and_eq_true_iff.mp hcode).2, by rw [appended]; exact held⟩
    case ret succ => exact hi.elim
    all_goals exact ⟨solid, hcode, by rw [appended]; exact held⟩
  obtain rfl | ⟨f, rfl⟩ := recorded
  · exact ⟨tidy, base, changed.slots, changed.tempFloor, carries⟩
  · exact ⟨tidy_fail tidy f, base, changed.slots, changed.tempFloor, carries⟩

end Carries

/-- The boxes of waiting units lie below the floor of the temporaries. -/
theorem Layered.held {slots floor : Nat} {base : List Ref} {ws : List Waiting}
    (h : Layered slots base floor ws) :
    ∀ w ∈ ws, ∀ b ∈ w.registers.boxes, b ≠ .null → b.Under slots floor := by
  induction ws generalizing base floor with
  | nil => simp
  | cons w ws ih =>
    obtain ⟨carries, hfloor, lower, -, -, -, rest⟩ := h
    intro w' hw b hb hnull
    rcases List.mem_cons.mp hw with rfl | hw
    · exact carries.held b hb hnull
    · exact (ih rest w' hw b hb hnull).mono hfloor

/-! ### Throughout a run -/

namespace Config

/-- **A state in which no reference is left behind.** -/
structure Sound (c : Config) : Prop where
  tidy : c.machine.Tidy
  layered : Layered c.machine.pad.size c.machine.base c.machine.tempFloor c.waiting
  active : ∀ code r, c.phase = .unit code r → Carries c.machine.pad.size c.machine.temps.size code r

variable {g : Graph} {c c' : Config} {a : Action} {n : Nat}

/-- When a loop is at its end, the floors are lowered to those of the unit that waits for it. -/
theorem Sound.resume {m : Machine} {cur : Option OpId} {ws : List Waiting}
    (hc : Sound ⟨m, .loop cur, ws⟩) : (resume m ws).Sound := by
  cases ws with
  | nil => exact ⟨hc.tidy, trivial, by simp [Config.resume]⟩
  | cons w ws =>
    obtain ⟨carries, floor, lower, hsuffix, hlength, below, layered⟩ := hc.layered
    -- what lay below the floor of the unit is still at the bottom of the stack
    have onStack : lower <:+ m.stack := hsuffix.trans (List.drop_suffix _ _)
    have base : (m.leave w.frame).base = lower := drop_eq_of_suffix onStack hlength
    refine ⟨⟨?_, Nat.le_trans floor hc.tidy.tempFloor, hc.tidy.stack, ?_⟩, ?_, ?_⟩
    · show w.frame.stackFloor ≤ m.stack.length
      rw [← hlength]
      exact onStack.length_le
    · show ∀ r ∈ (m.leave w.frame).base, _
      rw [base]
      exact below
    · show Layered m.pad.size (m.leave w.frame).base w.frame.tempFloor ws
      rw [base]
      exact layered
    · rintro _ _ ⟨⟩
      exact carries.mono hc.tidy.tempFloor

/-- An op that is interpreted leaves what lies below the floors; at the end of a statement that is
all. -/
theorem Sound.interpret {m : Machine} {cur : Option OpId} {ws : List Waiting}
    (hc : Sound ⟨m, .loop cur, ws⟩) (id : OpId) (op : Op) : (settled ws (exec id op m)).Sound := by
  by_cases hmark : op.kind = .mark
  · rw [exec_mark id hmark]
    obtain ⟨tidy, base⟩ := tidy_endStatement hc.tidy
    refine ⟨tidy, ?_, by simp [settled]⟩
    show Layered m.pad.size m.endStatement.base m.tempFloor ws
    rw [base]
    exact hc.layered
  · obtain ⟨m', changed, cases⟩ := settled_cases (exec_changed id hmark m) ws
    obtain ⟨tidy, base⟩ := changed.tidy hc.tidy (by simp)
    have layered : Layered m'.pad.size m'.base m'.tempFloor ws := by
      rw [changed.slots, base, changed.tempFloor]
      exact hc.layered
    obtain ⟨succ, here⟩ | ⟨f, here⟩ | ⟨e, -, -, here⟩ := cases
    · rw [here]
      exact ⟨tidy, layered, by simp⟩
    · rw [here]
      exact ⟨tidy_fail tidy f, layered, by simp⟩
    · rw [here]
      exact ⟨tidy, layered, by simp⟩

/-- **No step leaves a reference behind.** -/
theorem Step.sound (hunits : ∀ id op unit, g.op? id = some op → op.kind.unit? = some unit →
    pushesBoxes [] unit.code = true) (h : Step g c a c') (hc : c.Sound) : c'.Sound := by
  cases h with
  | back => exact hc.resume
  | unknown => exact ⟨tidy_fail hc.tidy _, hc.layered, by simp⟩
  | @enter m id op unit ws hf ho hk =>
    refine ⟨{ hc.tidy with }, hc.layered, ?_⟩
    rintro _ _ ⟨⟩
    exact ⟨[], hunits id op unit ho hk, .nil⟩
  | @interpret m id op ws => exact hc.interpret id op
  | done => exact ⟨hc.tidy, hc.layered, by simp⟩
  | ret => exact ⟨hc.tidy, hc.layered, by simp⟩
  | miss =>
    refine ⟨tidy_fail hc.tidy _, hc.layered, ?_⟩
    rintro _ _ ⟨⟩
    exact (hc.active _ _ rfl).call
  | @call m root op code r ws ho =>
    obtain ⟨tidy, base⟩ := tidy_enter hc.tidy
    refine ⟨tidy, ?_, by simp⟩
    rw [base]
    exact ⟨(hc.active _ _ rfl).call, hc.tidy.tempFloor, m.base, List.drop_suffix _ _, hc.tidy.length_base,
      hc.tidy.below, hc.layered⟩
  | @perform m m' i code r r' ws hi hp =>
    obtain ⟨tidy, base, slots, floor, carries⟩ := (hc.active _ _ rfl).perform hc.tidy hi hp
    refine ⟨tidy, ?_, ?_⟩
    · rw [slots, base, floor]
      exact hc.layered
    · rintro _ _ ⟨⟩
      exact carries

/-- **No reference is left behind during a run.** -/
theorem sound_stateAt {m : Machine} (hunits : ∀ id op unit, g.op? id = some op →
    op.kind.unit? = some unit → pushesBoxes [] unit.code = true) (h : stateAt g m n = some c) :
    c.Sound := by
  refine stateAt_induction ?_ (fun c a c' hc hs => (step_of_next hs).sound hunits hc) h
  intro entry _
  exact ⟨⟨Nat.le_refl 0, Nat.le_refl 0, by simp [fresh], by simp [fresh, base]⟩, trivial, by simp⟩

end Config

open Config

/-- **No reference outlives its box.**  In every state during a run the floors lie on or below what
there is; what is on the stack are slots of the pad and temporaries that there are; what lies below
the floor of the stack are slots and temporaries below the floor of those; and the boxes that units
hold, whether they wait or not, are still there.  What a loop leaves within any bound is the machine
of such a state.

All of it is in one invariant of states (`Config.Sound`), which each step keeps by what it may
touch.  Compiled units are ones that push boxes only, by an invariant of their lowering. -/
theorem references_live {g : Graph} (hunits : ∀ id op unit, g.op? id = some op →
      op.kind.unit? = some unit → unit.IsGenerated ∨ pushesBoxes [] unit.code = true) (m : Machine) :
    (∀ n c, stateAt g m n = some c →
      c.machine.stackFloor ≤ c.machine.stack.length ∧ c.machine.tempFloor ≤ c.machine.temps.size ∧
      (∀ r ∈ c.machine.stack, r.Under c.machine.pad.size c.machine.temps.size) ∧
      (∀ r ∈ c.machine.stack.reverse.take c.machine.stackFloor,
        r.Under c.machine.pad.size c.machine.tempFloor) ∧
      (∀ w ∈ c.waiting, ∀ b ∈ w.registers.boxes, b ≠ .null →
        b.Under c.machine.pad.size c.machine.temps.size) ∧
      ∀ code r, c.phase = .unit code r → ∀ b ∈ r.boxes, b ≠ .null →
        b.Under c.machine.pad.size c.machine.temps.size) ∧
    ∀ entry fuel, g.entry = some entry → ∃ n c, stateAt g m n = some c ∧
      (dispatch g fuel (some entry) m.fresh = .ok () c.machine ∨
        ∃ e, dispatch g fuel (some entry) m.fresh = .error e c.machine) := by
  refine ⟨fun n c h => ?_, fun entry fuel hentry => exists_stateAt_dispatch hentry fuel⟩
  have sound : c.Sound := sound_stateAt (fun id op unit ho hk =>
    (hunits id op unit ho hk).elim CompiledUnit.IsGenerated.pushesBoxes fun hp => hp) h
  refine ⟨sound.tidy.stackFloor, sound.tidy.tempFloor, sound.tidy.stack, fun r hr => ?_,
    fun w hw b hb hnull => ?_, fun code r hp => (sound.active code r hp).held⟩
  · rw [List.take_reverse, List.mem_reverse] at hr
    exact sound.tidy.below r hr
  · exact (sound.layered.held w hw b hb hnull).mono sound.tidy.tempFloor

/-! ### A unit that waits

It holds a temporary while a fragment ends a statement, and puts it on the stack afterwards. -/

def patientGraph : Graph where
  owner := ⟨0⟩
  ops := #[{ kind := .mark, next := some ⟨1⟩, state := .detached, parent := some ⟨2⟩ },
    { kind := .const (.int 5), state := .detached, parent := some ⟨2⟩ },
    { kind := .native ⟨"patient", [.temp, .call ⟨0⟩, .push 0], [⟨0⟩]⟩ }]
  root := some ⟨2⟩
  entry := some ⟨2⟩

theorem references_live_patient : ∃ c, stateAt patientGraph { pad := #[] } 5 = some c ∧
    c.machine.tempFloor = 1 ∧ c.machine.temps.size = 2 ∧ c.waiting.length = 1 ∧
    (∀ r ∈ c.machine.stack, r.Under 0 2) ∧
    ∀ w ∈ c.waiting, ∀ b ∈ w.registers.boxes, b ≠ .null → b.Under 0 2 := by
  have units : ∀ id op unit, patientGraph.op? id = some op → op.kind.unit? = some unit →
      unit.IsGenerated ∨ pushesBoxes [] unit.code = true := by
    rintro ⟨i⟩ op unit ho hk
    right
    match i with
    | 0 | 1 =>
      cases ho
      cases hk
    | 2 =>
      cases ho
      cases hk
      rfl
    | i + 3 => cases ho
  obtain ⟨-, -, stack, -, held, -⟩ := (references_live units { pad := #[] }).1 5 _ rfl
  exact ⟨_, rfl, rfl, rfl, rfl, stack, held⟩

end Machine

end Graft
