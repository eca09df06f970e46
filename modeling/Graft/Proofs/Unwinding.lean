import Graft.Proofs.FaultingRuns
import Graft.Proofs.Footprints
import Mathlib.Algebra.Ring.Nat

/-! # Faults and unwinding

A fault may be recorded anywhere in a run, by an op, by a unit, or in a fragment that a unit runs
while other units wait.  From then on no op is interpreted, but the units go on: they declare
variables, store values, and call fragments whose loops stop at once.  So there are only so many
steps to the end (`Config.Step.faulted`), and what the run throws is the first fault.

The measure is the code that is left to the units, the running one and those that wait: each step
after a fault carries out an instruction of one of them or ends one.  A loop that is called by then
begins and ends without an op, so it adds no more than a fixed number of steps.

Every declaration saves a value, whichever unit or loop makes it, and nothing else touches the
saved values (`Config.Step.saves`).  So the earliest value that a run has saved of a variable is
the one from before its first declaration (`Config.saves_stateAt`), and that one is put back last.
`Machine.run_unwinds` says both, and that a run without a fault puts nothing back.
-/

namespace Graft.Machine

namespace Config

variable {g : Graph} {m : Machine} {c c' : Config} {a : Action} {f : Fault} {n : Nat}

/-! ### After a fault -/

/-- A bound on the steps that a run with a fault has left: every waiting unit goes on for each of
its instructions, and an instruction takes at most three. -/
def weight (c : Config) : Nat :=
  (match c.phase with
    | .loop _ => 1
    | .unit code _ => 3 * code.length + 2
    | .ended | .halted _ => 0) +
  (c.waiting.map fun w => 3 * w.code.length + 3).sum

theorem fault_fail (hf : m.fault = some f) (f' : Fault) : (m.fail f').fault = some f := by
  rw [fail_of_fault hf, hf]

/-- **A step after a fault**: the fault stays, no op is interpreted, and the end comes nearer. -/
theorem Step.faulted (h : Step g c a c') (hf : c.machine.fault = some f) :
    c'.machine.fault = some f ∧ (∀ id op, a ≠ .interpret id op) ∧ (∀ e, c'.phase ≠ .halted e) ∧
      c'.weight < c.weight := by
  cases h with
  | unknown hnone => exact absurd (hnone.symm.trans hf) (by simp)
  | enter hnone => exact absurd (hnone.symm.trans hf) (by simp)
  | interpret hnone => exact absurd (hnone.symm.trans hf) (by simp)
  | @back m cur ws _ =>
    cases ws with
    | nil => exact ⟨hf, by simp, by simp [resume], by simp [weight, resume]⟩
    | cons w ws =>
      refine ⟨hf, by simp, by simp [resume], ?_⟩
      simp only [weight, resume, List.map_cons, List.sum_cons]
      omega
  | done => exact ⟨hf, by simp, by simp, by simp [weight]⟩
  | ret =>
    refine ⟨hf, by simp, by simp, ?_⟩
    simp only [weight, List.length_cons]
    omega
  | miss =>
    refine ⟨fault_fail hf _, by simp, by simp, ?_⟩
    simp only [weight, List.length_cons]
    omega
  | call =>
    refine ⟨hf, by simp, by simp, ?_⟩
    simp only [weight, List.length_cons, List.map_cons, List.sum_cons]
    omega
  | perform hi hp =>
    obtain ⟨m₁, changed, recorded, -⟩ := perform_changed hp
    have hf₁ := changed.fault.trans hf
    refine ⟨?_, by simp, by simp, ?_⟩
    · obtain rfl | ⟨f', rfl⟩ := recorded
      · exact hf₁
      · exact fault_fail hf₁ f'
    · simp only [weight, List.length_cons]
      omega

/-- **A run with a fault comes to its end.**

By induction on the bound that every step with a fault brings down (`Config.weight`). -/
theorem ends_of_fault (c : Config) (hf : c.machine.fault = some f) (hp : ∀ e, c.phase ≠ .halted e) :
    ∃ i d, after g i c = some d ∧ d.phase = .ended ∧ d.machine.fault = some f := by
  -- every step that is taken with a fault makes the state lighter
  induction hw : c.weight using Nat.strongRecOn generalizing c with
  | _ w ih =>
    cases hs : next g c with
    | none =>
      obtain hended | ⟨e, he⟩ := next_eq_none_iff.mp hs
      · exact ⟨0, c, rfl, hended, hf⟩
      · exact absurd he (hp e)
    | some s =>
      obtain ⟨hf', -, hp', hw'⟩ := (step_of_next hs).faulted hf
      obtain ⟨i, d, hi, hd⟩ := ih _ (hw ▸ hw') s.2 hf' hp' rfl
      exact ⟨1 + i, d, after_trans (after_one hs) hi, hd⟩

/-- A fault stays, and no op is interpreted after it. -/
theorem faulted_later {i : Nat} (h : after g i c = some c') (hf : c.machine.fault = some f) :
    c'.machine.fault = some f := by
  induction i generalizing c with
  | zero =>
    cases h
    exact hf
  | succ i ih =>
    obtain ⟨s, hs, h⟩ := Option.bind_eq_some_iff.mp h
    exact ih h ((step_of_next hs).faulted hf).1

/-- A run that has halted has no fault recorded, and has come to a remainder that overflows. -/
theorem halted_stateAt {e : Halt} (h : stateAt g m n = some c) (hp : c.phase = .halted e) :
    e = .overflow ∧ c.machine.fault = none := by
  let P (c : Config) := ∀ e, c.phase = .halted e → e = .overflow ∧ c.machine.fault = none
  refine stateAt_induction (P := P) ?_ ?_ h e hp
  · intro entry _ e he
    cases he
  · intro c a c' _ hs e he
    cases step_of_next hs with
    | @back m cur ws _ => cases ws <;> cases he
    | @interpret m id op ws hf ho hk =>
      by_cases hmark : op.kind = .mark
      · rw [exec_mark id hmark] at he
        cases he
      · obtain ⟨m', changed, ⟨succ, here⟩ | ⟨f, here⟩ | ⟨e', hx, hnf, here⟩⟩ :=
          settled_cases (exec_changed id hmark m) ws
        · rw [here] at he
          cases he
        · rw [here] at he
          cases he
        · rw [here] at he ⊢
          cases he
          have steady := steady_exec id op m hf
          rw [hx] at steady
          refine ⟨?_, changed.fault.trans hf⟩
          cases e with
          | overflow => rfl
          | fault f => exact absurd rfl (hnf f)
          | outOfFuel => exact absurd rfl steady.1
    | _ => cases he

/-! ### Saved values -/

/-- **A step saves the value of the variable that it declares, and nothing else.** -/
theorem Step.saves (h : Step g c a c') :
    c'.machine.saves = a.saved c.machine ++ c.machine.saves ∧
      c'.machine.pad.size = c.machine.pad.size := by
  cases h with
  | @back m cur ws _ => cases ws <;> exact ⟨rfl, rfl⟩
  | @interpret m id op ws hf ho hk =>
    by_cases hmark : op.kind = .mark
    · have nothing : (Action.interpret id op).saved m = [] := by
        simp [Action.saved, Action.declared?, OpKind.declared?, hmark]
      rw [exec_mark id hmark, nothing]
      exact ⟨rfl, rfl⟩
    · obtain ⟨m', changed, ⟨succ, here⟩ | ⟨f, here⟩ | ⟨e, -, -, here⟩⟩ :=
        settled_cases (exec_changed id hmark m) ws
      all_goals
        rw [here]
        exact ⟨changed.saves, changed.slots⟩
  | perform hi hp =>
    obtain ⟨m₁, changed, recorded, -⟩ := perform_changed hp
    obtain rfl | ⟨f, rfl⟩ := recorded
    · exact ⟨changed.saves, changed.slots⟩
    · exact ⟨changed.saves, changed.slots⟩
  | _ => exact ⟨rfl, rfl⟩

/-- **Step `j` of the run declares the variable in `slot`**, which has the value `v` before it. -/
def Declares (g : Graph) (m : Machine) (j : Nat) (slot : Slot) (v : Scalar) : Prop :=
  ∃ c a c', stateAt g m j = some c ∧ next g c = some (a, c') ∧ a.declared? = some slot ∧
    c.machine.padValue? slot = some v

theorem Declares.saved {j : Nat} {slot : Slot} {v : Scalar} (h : Declares g m j slot v)
    (hj : stateAt g m j = some c) (hs : next g c = some (a, c')) :
    a.saved c.machine = [(slot, v)] := by
  obtain ⟨d, b, d', hd, hb, hslot, hv⟩ := h
  cases hd.symm.trans hj
  cases hb.symm.trans hs
  simp [Action.saved, hslot, hv]

/-- What a step saves comes from a declaration. -/
theorem declares_of_saved {j : Nat} {slot : Slot} {v : Scalar} (hj : stateAt g m j = some c)
    (hs : next g c = some (a, c')) (h : (slot, v) ∈ a.saved c.machine) : Declares g m j slot v := by
  unfold Action.saved at h
  obtain ⟨s, hslot, h⟩ := Option.bind_eq_some_iff.mp (Option.mem_toList.mp h)
  obtain ⟨w, hw, he⟩ := Option.map_eq_some_iff.mp h
  cases he
  exact ⟨c, a, c', hj, hs, hslot, hw⟩

/-- **Of what a run has saved of a variable the earliest is what it held before its first
declaration.** -/
theorem saves_stateAt (h : stateAt g m n = some c) : c.machine.pad.size = m.pad.size ∧
    ∃ new, c.machine.saves = new ++ m.saves ∧ ∀ slot,
      ((∀ j < n, ∀ v, ¬ Declares g m j slot v) → new.reverse.lookup slot = none) ∧
      ∀ j < n, ∀ v, Declares g m j slot v → (∀ k < j, ∀ w, ¬ Declares g m k slot w) →
        new.reverse.lookup slot = some v := by
  induction n generalizing c with
  | zero =>
    obtain ⟨entry, hentry, h⟩ := Option.bind_eq_some_iff.mp h
    cases h
    exact ⟨rfl, [], rfl, fun slot => ⟨fun _ => rfl, fun j hj => absurd hj (by omega)⟩⟩
  | succ n ih =>
    obtain ⟨d, a, hd, hs⟩ := stateAt_succ h
    obtain ⟨size, new, saves, first⟩ := ih hd
    obtain ⟨saves', size'⟩ := (step_of_next hs).saves
    refine ⟨size'.trans size, a.saved d.machine ++ new, by rw [saves', saves, List.append_assoc], ?_⟩
    intro slot
    obtain ⟨hnone, hsome⟩ := first slot
    rw [List.reverse_append, List.lookup_append]
    constructor
    · intro never
      rw [hnone fun j hj => never j (by omega), Option.none_or, List.lookup_eq_none_iff]
      intro p hp
      have other : slot ≠ p.1 := by
        rintro rfl
        exact never n (by omega) p.2 (declares_of_saved hd hs (List.mem_reverse.mp hp))
      simp [other]
    · intro j hj v hdecl hfirst
      -- what the last step saves counts only for a variable that was not declared before it
      by_cases hjn : j < n
      · rw [hsome j hjn v hdecl hfirst, Option.some_or]
      · obtain rfl : j = n := by omega
        rw [hnone hfirst, hdecl.saved hd hs, Option.none_or]
        simp

theorem Declares.lt_size {j : Nat} {slot : Slot} {v : Scalar} (h : Declares g m j slot v) :
    slot.index < m.pad.size := by
  obtain ⟨c, a, c', hj, -, -, hv⟩ := h
  rw [← (saves_stateAt hj).1]
  exact (Array.getElem?_eq_some_iff.mp hv).choose

theorem Declares.lt_last {j : Nat} {slot : Slot} {v : Scalar} (h : Declares g m j slot v)
    (hc : stateAt g m n = some c) (hlast : next g c = none) : j < n := by
  obtain ⟨d, a, d', hj, hs, -, -⟩ := h
  obtain ⟨entry, hentry, hc⟩ := Option.bind_eq_some_iff.mp hc
  have hd := stateAt_next hj hs
  rw [stateAt_eq_after hentry] at hd
  exact le_of_last hc hlast hd

/-- What is left of the saved values where those of the run are given up. -/
theorem saves_of_append {saves new base : List (Slot × Scalar)} (h : saves = new ++ base) :
    saves.drop (saves.length - base.length) = base := by
  rw [h, List.length_append, Nat.add_sub_cancel, List.drop_left]

/-- A run that throws a fault has put back what its variables held before they were declared. -/
theorem padValue?_unwound {undone : List (Slot × Scalar)} {slot : Slot} {v : Scalar}
    (hf : c.machine.fault = some f) (hs : c.machine.saves = undone ++ m.saves)
    (hv : undone.reverse.lookup slot = some v) (hslot : slot.index < c.machine.pad.size) :
    padValue? { { c.machine with current := none }.unwind m.saves.length with fault := none } slot =
      some v := by
  have halted := padValue?_halted (f := f) hs hslot
  rwa [fail_of_fault hf, hv, Option.getD_some] at halted

end Config

open Config

/-- **Faults and unwinding.**  If a fault `f` is recorded during a run, then no op is interpreted
from there on, and the run throws `f`; the saved values are those from before the run, and every
variable that was declared holds what it held before its first declaration.  If none is, then the
run comes to its end with the variables as its last step left them, unless it is cut off or comes
to a remainder that overflows.

After a fault each step uses up code of some unit, so the steps end; and the loop does what the
steps do, so with enough rounds it ends as well.  The earliest value that has been saved of a
variable is that from before its first declaration, and it is the last one to be put back. -/
theorem run_unwinds {g : Graph} {entry : OpId} (hentry : g.entry = some entry) (m : Machine) :
    (∀ i c f, stateAt g m i = some c → c.machine.fault = some f →
      (∀ j d id op d', i ≤ j → stateAt g m j = some d → next g d ≠ some (.interpret id op, d')) ∧
      ∃ bound m', (∀ fuel, bound ≤ fuel → run g fuel m = .error (.fault f) m') ∧
        m'.saves = m.saves ∧
        ∀ j slot v, Declares g m j slot v → (∀ k < j, ∀ w, ¬ Declares g m k slot w) →
          m'.padValue? slot = some v) ∧
    ((∀ i c, stateAt g m i = some c → c.machine.fault = none) → ∀ fuel,
      match run g fuel m with
      | .ok _ m' => m'.saves = m.saves ∧
          ∃ i c, stateAt g m i = some c ∧ c.phase = .ended ∧ m'.pad = c.machine.pad
      | .error e _ => e = .overflow ∨ e = .outOfFuel ∧ (stateAt g m fuel).isSome) := by
  refine ⟨fun i c f hi hf => ⟨?_, ?_⟩, fun hnone fuel => ?_⟩
  · intro j d id op d' hij hj hs
    obtain ⟨k, rfl⟩ := Nat.exists_eq_add_of_le hij
    rw [stateAt_add, hi, Option.bind_some] at hj
    exact ((step_of_next hs).faulted (faulted_later hj hf)).2.1 id op rfl
  · have running : ∀ e, c.phase ≠ .halted e := by
      intro e he
      rw [(halted_stateAt hi he).2] at hf
      cases hf
    obtain ⟨k, d, hk, hended, hfault⟩ := ends_of_fault (g := g) c hf running
    have last : stateAt g m (i + k) = some d := by rw [stateAt_add, hi, Option.bind_some, hk]
    obtain ⟨size, new, saves, first⟩ := saves_stateAt last
    refine ⟨i + k + 1, _, fun fuel hfuel => run_of_faulted last hended hfault (by omega), ?_, ?_⟩
    · exact saves_of_append saves
    · intro j slot v hdecl hfirst
      have hjn := hdecl.lt_last last (next_eq_none_iff.mpr (.inl hended))
      exact padValue?_unwound hfault saves ((first slot).2 j hjn v hdecl hfirst)
        (size ▸ hdecl.lt_size)
  · have follows := dispatch_follows g fuel (some entry) m.fresh []
    cases hd : dispatch g fuel (some entry) m.fresh with
    | ok u m' =>
      rw [hd] at follows
      obtain ⟨i, hi⟩ := follows
      rw [← stateAt_eq_after hentry] at hi
      obtain ⟨size, new, saves, -⟩ := saves_stateAt hi
      rw [run_of_dispatch hentry hd (hnone i _ hi)]
      exact ⟨saves_of_append saves, i, _, hi, rfl, rfl⟩
    | error e m' =>
      rw [hd] at follows
      rw [run_of_halt hentry hd]
      obtain ⟨i, c, hi, -, ⟨he, hle, -⟩ | hhalt⟩ := follows
      · rw [← stateAt_eq_after hentry] at hi
        obtain ⟨k, rfl⟩ := Nat.exists_eq_add_of_le hle
        rw [stateAt_add] at hi
        exact .inr ⟨he, Option.isSome_of_mem (Option.bind_eq_some_iff.mp hi).choose_spec.1⟩
      · rw [← stateAt_eq_after hentry] at hi
        exact .inl (halted_stateAt hi hhalt).1

/-! ### A unit that runs on

It declares a variable twice, with a store in between, calls a fragment that finds nothing on the
stack, and goes on to store to the variable. -/

def restlessGraph : Graph where
  owner := ⟨0⟩
  ops := #[{ kind := .negate, state := .detached, parent := some ⟨1⟩ },
    { kind := .native ⟨"restless", [.clear ⟨0⟩, .pad ⟨0⟩, .storeInt 0 7, .clear ⟨0⟩, .call ⟨0⟩,
        .storeInt 0 9], [⟨0⟩]⟩ }]
  root := some ⟨1⟩
  entry := some ⟨1⟩

/-- The run throws the fragment's fault, and the variable is as it was before the run. -/
theorem run_unwinds_restless : ∃ bound m', (∀ fuel, bound ≤ fuel →
    run restlessGraph fuel { pad := #[.int 5] } = .error (.fault (.stackUnderflow ⟨0⟩)) m') ∧
    m'.saves = [] ∧ m'.padValue? ⟨0⟩ = some (.int 5) := by
  obtain ⟨faults, -⟩ := run_unwinds (g := restlessGraph) rfl { pad := #[.int 5] }
  obtain ⟨-, bound, m', throws, saves, first⟩ := faults 7 _ _ rfl rfl
  refine ⟨bound, m', throws, saves, first 1 ⟨0⟩ (.int 5) ⟨_, _, _, rfl, rfl, rfl, rfl⟩ ?_⟩
  intro k hk w hdecl
  obtain rfl : k = 0 := by omega
  obtain ⟨c, a, c', hc, hs, hslot, -⟩ := hdecl
  cases hc
  cases hs
  cases hslot

end Graft.Machine
