import Graft.Lowering.Handovers
import Graft.Proofs.Access

/-! # Emitted code

Two things hold of the code of every unit that the compiler makes, whatever the terms were.  Its
calls are, one by one and in order, the fragments of the terms that it hands over; and it puts
nothing on the stack but boxes that it has got from the machine, never the reference to no box.

Both are invariants of a draft (`Draft.Coherent`).  A draft is coherent after every step that
succeeds: a box that is pushed is one that is there, and a term is listed in the same step in which
its fragment is called.
-/

namespace Graft

/-- The fragment that an instruction calls. -/
def Instr.callee? : Instr → Option OpId
  | .call root => some root
  | _ => none

/-- The fragments that code calls, in order. -/
def callsOf (code : List Instr) : List OpId := code.filterMap Instr.callee?

/-- **The code puts only boxes on the stack.**  Of the registers that it has filled before, `solid`
says which hold a box for certain: those that the machine was asked for. -/
def pushesBoxes (solid : List Bool) : List Instr → Bool
  | [] | .ret _ :: _ => true
  | .push b :: code => solid.getD b false && pushesBoxes solid code
  | .pad _ :: code | .temp :: code | .pop :: code => pushesBoxes (solid ++ [true]) code
  | .null :: code => pushesBoxes (solid ++ [false]) code
  | _ :: code => pushesBoxes solid code

/-- The root of the fragment of a term that is handed over. -/
def Handover.root? (h : Handover) : Option OpId :=
  match h.detachment with
  | .ok d => some d.root
  | .error _ => none

/-- **A draft whose calls are those of its handovers**, and that has put only boxes on the stack. -/
structure Draft.Coherent (d : Draft) : Prop where
  calls : d.handovers.map Handover.root? = (callsOf d.code).map some
  pushes : ∀ rest, pushesBoxes [] (d.code ++ rest) = pushesBoxes (List.replicate d.boxes true) rest

namespace Draft.Coherent

variable {d : Draft} {i : Instr}

theorem callsOf_append {code : List Instr} (h : i.callee? = none) :
    callsOf (code ++ [i]) = callsOf code := by
  simp [callsOf, h]

/-- An instruction that calls nothing and pushes at most a box that is there. -/
theorem append (hd : d.Coherent) (hc : i.callee? = none)
    (hp : ∀ rest, pushesBoxes (List.replicate d.boxes true) (i :: rest) =
      pushesBoxes (List.replicate d.boxes true) rest) (floats : Nat) :
    Draft.Coherent { d with code := d.code ++ [i], floats } where
  calls := by
    rw [callsOf_append hc]
    exact hd.calls
  pushes rest := by
    rw [List.append_assoc, hd.pushes]
    exact hp rest

/-- A register that was filled by the machine holds a box. -/
theorem fetch (hd : d.Coherent) (hc : i.callee? = none)
    (hp : ∀ solid rest, pushesBoxes solid (i :: rest) = pushesBoxes (solid ++ [true]) rest) :
    Draft.Coherent { d with code := d.code ++ [i], boxes := d.boxes + 1 } where
  calls := by
    rw [callsOf_append hc]
    exact hd.calls
  pushes rest := by
    rw [List.append_assoc, hd.pushes, List.singleton_append, hp, List.replicate_succ']

/-- What is handed over is listed, and called. -/
theorem call (hd : d.Coherent) (t : Term) (f : Detachment) : Draft.Coherent { d with
    code := d.code ++ [.call f.root]
    handovers := d.handovers ++ [⟨t, .ok f⟩] } where
  calls := by
    simp [hd.calls, callsOf, Instr.callee?, Handover.root?]
  pushes rest := by
    rw [List.append_assoc, hd.pushes]
    rfl

end Draft.Coherent

namespace Lowering

variable {scope : Scope} {run : List Term} {code : List Instr}

/-- **A draft is coherent after every step that succeeds.**  One that fails may have listed a term
without a fragment to call. -/
theorem coherent_invariant (scope : Scope) (run : List Term) :
    Invariant scope run Draft.Coherent fun _ _ => True where
  inner {d i} hi hd floats := by
    cases i with
    | const _ | number _ _ | combine _ _ _ | negate _ | storeNum _ _ | storeInt _ _
    | storeUInt _ _ | copy _ _ => exact hd.append rfl (fun _ => rfl) floats
    | _ => cases hi
  fetch hi hd := by
    rcases hi with rfl | rfl
    · exact hd.fetch rfl fun _ _ => rfl
    · exact hd.fetch rfl fun _ _ => rfl
  pad _ hd := hd.fetch rfl fun _ _ => rfl
  clear {d _} _ hd := hd.append rfl (fun _ => rfl) d.floats
  push {d _} hb hd := hd.append rfl (fun rest => by simp [pushesBoxes, hb]) d.floats
  call {_ t f} _ _ hd := hd.call t f
  lost _ _ _ := trivial
  stop _ _ := trivial

/-- The draft that the code of a run is taken from. -/
theorem coherent_of_codeOf (h : codeOf scope run = .ok code) :
    ∃ d : Draft, d.Coherent ∧ d.code = code ∧ d.handovers = handoversOf scope run :=
  (coherent_invariant scope run).of_codeOf ⟨rfl, fun _ => rfl⟩ h

/-- **A unit calls the fragments of the terms that it hands over**, one by one and in order. -/
theorem calls_of_codeOf (h : codeOf scope run = .ok code) :
    (handoversOf scope run).map Handover.root? = (callsOf code).map some := by
  obtain ⟨d, hd, rfl, hh⟩ := coherent_of_codeOf h
  rw [← hh]
  exact hd.calls

/-- **A unit puts only boxes on the stack.** -/
theorem pushesBoxes_of_codeOf (h : codeOf scope run = .ok code) : pushesBoxes [] code = true := by
  obtain ⟨d, hd, rfl, -⟩ := coherent_of_codeOf h
  simpa [pushesBoxes] using hd.pushes []

end Lowering

end Graft
