import Graft.Proofs.Steps

/-! # What expressions mean

The meaning of a tree of ops, without a machine: it reads and writes variables, and yields a
*place*.  That is either a variable, whose value is read when it is needed and not before, or a
box that belongs to nobody else, of which only the contents count.  It saves what declared
variables held, keeps a list of the ops that have been executed, and knows which variables wait:
the first operand of an op waits while the second is computed, and if that halts, it waits still.

A machine has more to keep apart.  Boxes are temporaries, or slots that an op of the program
has for its result; no two ops share such a slot, and none is a variable's (`Layout.Suits`).
`Holds` ties the variables to a machine's pad, `Means` a reference on its stack to a place, and
`Keeps` says what a computation may touch.  `Computes` puts them together: a computation on
machines that has the meaning of an expression.  What holds of the machine where both halt is
left open there: interpretation halts with the variables as they should be (`Agrees`), compiled
code may not.  So is what is known of the stack: interpretation has all variables that wait on it,
a unit keeps some of them in registers of its own.  What both have in common is that it is still
known when one more operand waits there (`Accounts`).

Compiled code and interpretation use different boxes for the same values, in another order, and so
neither can be compared with the other on machines.  Both are compared with the meaning instead,
and it is the same for both; that is all that this module is for.  Why places and not values?  An
operand may be a variable that a later operand assigns to, and then the op reads the new value; a
meaning that yields values would say something else than either of them does.
-/

namespace Graft

/-- What meanings work on. -/
structure Store where
  /-- The values of variables. -/
  value : Slot → Scalar
  /-- Values saved by declarations, the latest first. -/
  saves : List (Slot × Scalar)
  /-- The ops that have been executed, in order. -/
  done : List OpId
  /-- The variables that wait as operands while others are computed, the latest first. -/
  held : List Slot

namespace Store

def set (σ : Store) (s : Slot) (v : Scalar) : Store :=
  { σ with value := fun t => if t = s then v else σ.value t }

/-- Save the value of a variable and clear it. -/
def declare (σ : Store) (s : Slot) : Store :=
  { σ.set s .undefined with saves := (s, σ.value s) :: σ.saves }

/-- List an op as executed. -/
def note (σ : Store) (id : OpId) : Store := { σ with done := σ.done ++ [id] }

end Store

/-- What an expression yields. -/
inductive Place where
  /-- A variable. -/
  | var (s : Slot)
  /-- A box of its own, with these contents. -/
  | value (v : Scalar)

/-- A computation on stores. -/
abbrev Meaning := EStateM Halt Store

namespace Place

/-- The variables that wait if the place waits too. -/
def hold (held : List Slot) : Place → List Slot
  | var s => s :: held
  | value _ => held

def read (σ : Store) : Place → Scalar
  | var s => σ.value s
  | value v => v

/-- Store a value in a place. -/
def write (v : Scalar) : Place → Meaning Place
  | var s => do
    modify fun σ => σ.set s v
    return var s
  | value _ => return value v

end Place

/-- Execute an op, on the store that it finds. -/
def Meaning.execute (id : OpId) : Meaning Store := modifyGet fun σ => (σ.note id, σ.note id)

/-- Compute an operand while a place waits.  It waits still if that halts. -/
def Meaning.beside {α : Type} (p : Place) (d : Meaning α) : Meaning α := fun σ =>
  match d { σ with held := p.hold σ.held } with
  | .ok a σ' => .ok a { σ' with held := σ.held }
  | .error e σ' => .error e σ'

theorem Meaning.execute_bind {α : Type} {id : OpId} {k : Store → Meaning α} {σ : Store} :
    (execute id >>= k) σ = k (σ.note id) (σ.note id) := rfl

/-- The result of an operation on numbers. -/
def Arithmetic.meaning (a : Arithmetic) (l r : Float) : Meaning Float :=
  match a.apply l r with
  | .ok x => return x
  | .error e => throw e.halt

open Meaning in
/-- The meaning of an op, from those of its kids. -/
def Face.meaning (id : OpId) (f : Face) (kids : List (Meaning Place)) : Meaning Place :=
  match f.kind, kids with
  | .const v, _ => do
    let _ ← execute id
    return .value v
  | .lexical s new, _ => do
    let _ ← execute id
    modify fun σ => if new then σ.declare s else σ
    return .var s
  | .arith a, [l, r] => do
    let p ← l
    let q ← beside p r
    let σ ← execute id
    let x ← a.meaning (p.read σ).toNum (q.read σ).toNum
    if f.stacked then p.write (.num x) else return .value (.num x)
  | .negate, [k] => do
    let p ← k
    let σ ← execute id
    return .value (.num (-(p.read σ).toNum))
  | .assign, [l, r] => do
    let p ← l
    let q ← beside p r
    let σ ← execute id
    p.write (q.read σ)
  | .and, [l, r] => do
    let p ← l
    let σ ← execute id
    if (p.read σ).isTrue then r else return p
  | .or, [l, r] => do
    let p ← l
    let σ ← execute id
    if (p.read σ).isTrue then return p else r
  | .cond, [c, y, n] => do
    let p ← c
    let σ ← execute id
    if (p.read σ).isTrue then y else n
  | _, _ => do
    let _ ← execute id
    throw .outOfFuel

namespace HostTree

mutual

/-- **The meaning of an expression.** -/
def meaning : HostTree → Meaning Place
  | node id f ks => f.meaning id (meanings ks)

def meanings : List HostTree → List (Meaning Place)
  | [] => []
  | t :: ts => t.meaning :: meanings ts

end

/-- The slots that ops of a tree have for their results. -/
def targets (t : HostTree) : List Slot := t.subtrees.filterMap fun s => s.face.targ

/-- The slots of the variables in a tree. -/
def lexicals (t : HostTree) : List Slot := t.subtrees.filterMap fun s =>
  match s.face.kind with
  | .lexical slot _ => some slot
  | _ => none

end HostTree

/-! ### Layouts -/

/-- Which slots of a pad are variables, and how many slots there are. -/
structure Layout where
  vars : Slot → Prop
  size : Nat

/-- **What a tree uses**: no op is in it twice, no two ops have the same slot for their results,
and none has that of a variable. -/
structure Layout.Suits (L : Layout) (t : HostTree) : Prop where
  ids : t.ids.Nodup
  nodup : t.targets.Nodup
  targets : ∀ s ∈ t.targets, ¬ L.vars s ∧ s.index < L.size
  lexicals : ∀ s ∈ t.lexicals, L.vars s ∧ s.index < L.size

theorem Layout.Suits.subtree {L : Layout} {s t : HostTree} (h : L.Suits t) (hs : s ∈ t.subtrees) :
    L.Suits s where
  ids := HostTree.nodup_of_subtree hs h.ids
  nodup := h.nodup.sublist ((HostTree.subtrees_sublist hs).filterMap _)
  targets x hx := h.targets x (((HostTree.subtrees_sublist hs).filterMap _).subset hx)
  lexicals x hx := h.lexicals x (((HostTree.subtrees_sublist hs).filterMap _).subset hx)

/-! ### Machines and stores -/

/-- The machine has the values of the variables, and what was saved of them. -/
structure Agrees (L : Layout) (σ : Store) (m : Machine) : Prop where
  size : m.pad.size = L.size
  vars : ∀ s, L.vars s → m.read (.pad s) = σ.value s
  saves : m.saves = σ.saves

/-- The machine agrees with a store, and can go on: no fault is recorded. -/
structure Holds (L : Layout) (σ : Store) (m : Machine) : Prop extends Agrees L σ m where
  fault : m.fault = none
  floor : m.stackFloor ≤ m.stack.length

/-- What a computation leaves as it was: all but variables, the slots `ts` and temporaries of its
own. -/
structure Keeps (L : Layout) (ts : List Slot) (m m' : Machine) : Prop where
  stackFloor : m'.stackFloor = m.stackFloor
  tempFloor : m'.tempFloor = m.tempFloor
  pad : ∀ s, ¬ L.vars s → s ∉ ts → m'.read (.pad s) = m.read (.pad s)
  size : m.temps.size ≤ m'.temps.size
  temps : ∀ i < m.temps.size, m'.read (.temp i) = m.read (.temp i)

/-- **What a reference stands for**: a variable, or a box that is one of the slots `ts` or a
temporary from `lo` on. -/
inductive Means (L : Layout) (ts : List Slot) (lo : Nat) (m : Machine) : Ref → Place → Prop where
  | var {s : Slot} : L.vars s → s.index < L.size → Means L ts lo m (.pad s) (.var s)
  | slot {s : Slot} : s ∈ ts → ¬ L.vars s → s.index < L.size →
      Means L ts lo m (.pad s) (.value (m.read (.pad s)))
  | temp {i : Nat} : lo ≤ i → i < m.temps.size →
      Means L ts lo m (.temp i) (.value (m.read (.temp i)))

namespace Machine

variable {m : Machine} {r r' : Ref} {v : Scalar}

theorem stack_write : (m.write r v).stack = m.stack := by cases r <;> rfl

theorem floors_write : (m.write r v).stackFloor = m.stackFloor ∧
    (m.write r v).tempFloor = m.tempFloor := by cases r <;> exact ⟨rfl, rfl⟩

theorem sizes_write : (m.write r v).pad.size = m.pad.size ∧
    (m.write r v).temps.size = m.temps.size := by
  cases r <;> simp [write]

theorem saves_write : (m.write r v).saves = m.saves := by cases r <;> rfl

/-- A store is not seen in other boxes. -/
theorem read_write_of_ne (h : r ≠ r') : (m.write r v).read r' = m.read r' := by
  cases r <;> cases r' <;> simp only [write, read]
  case pad.pad s s' =>
    have other : s.index ≠ s'.index := fun he => h (by cases s; cases s'; simp_all)
    rw [Array.getElem?_setIfInBounds_ne other]
  case temp.temp i j =>
    have other : i ≠ j := fun he => h (by rw [he])
    rw [Array.getElem?_setIfInBounds_ne other]

theorem read_write_pad {s : Slot} (h : s.index < m.pad.size) :
    (m.write (.pad s) v).read (.pad s) = v := by
  simp [write, read, h]

theorem read_write_temp {i : Nat} (h : i < m.temps.size) :
    (m.write (.temp i) v).read (.temp i) = v := by
  simp [write, read, h]

end Machine

section Relations

variable {L : Layout} {σ : Store} {m m' m'' m₀ : Machine} {ts ts' : List Slot} {lo lo' : Nat} {r : Ref}
  {p : Place} {st : List Ref}

namespace Holds

theorem stack (h : Holds L σ m) (hf : m.stackFloor ≤ st.length) : Holds L σ { m with stack := st } :=
  ⟨⟨h.size, h.vars, h.saves⟩, h.fault, hf⟩

theorem newTemp (h : Holds L σ m) (v : Scalar) : Holds L σ (m.newTemp v).2 :=
  ⟨⟨h.size, h.vars, h.saves⟩, h.fault, h.floor⟩

theorem note (h : Holds L σ m) (id : OpId) : Holds L (σ.note id) m :=
  ⟨⟨h.size, h.vars, h.saves⟩, h.fault, h.floor⟩

theorem held (h : Holds L σ m) (held : List Slot) : Holds L { σ with held } m :=
  ⟨⟨h.size, h.vars, h.saves⟩, h.fault, h.floor⟩

end Holds

namespace Keeps

theorem refl (L : Layout) (ts : List Slot) (m : Machine) : Keeps L ts m m :=
  ⟨rfl, rfl, fun _ _ _ => rfl, Nat.le_refl _, fun _ _ => rfl⟩

theorem trans (h : Keeps L ts m m') (h' : Keeps L ts m' m'') : Keeps L ts m m'' where
  stackFloor := h'.stackFloor.trans h.stackFloor
  tempFloor := h'.tempFloor.trans h.tempFloor
  pad s hv hs := (h'.pad s hv hs).trans (h.pad s hv hs)
  size := Nat.le_trans h.size h'.size
  temps i hi := (h'.temps i (Nat.lt_of_lt_of_le hi h.size)).trans (h.temps i hi)

theorem mono (h : Keeps L ts m m') (hts : ts ⊆ ts') : Keeps L ts' m m' :=
  { h with pad := fun s hv hs => h.pad s hv fun hin => hs (hts hin) }

theorem stack (h : Keeps L ts m m') : Keeps L ts m { m' with stack := st } :=
  ⟨h.stackFloor, h.tempFloor, h.pad, h.size, h.temps⟩

theorem newTemp (L : Layout) (ts : List Slot) (m : Machine) (v : Scalar) :
    Keeps L ts m (m.newTemp v).2 := by
  refine ⟨rfl, rfl, fun _ _ _ => rfl, by simp [Machine.newTemp], fun i hi => ?_⟩
  simp only [Machine.newTemp, Machine.read, Array.getElem?_push]
  rw [if_neg (Nat.ne_of_lt hi)]

end Keeps

namespace Means

theorem mono (h : Means L ts lo m r p) (hts : ts ⊆ ts') (hlo : lo' ≤ lo) :
    Means L ts' lo' m r p := by
  cases h with
  | var hv hi => exact .var hv hi
  | slot hs hv hi => exact .slot (hts hs) hv hi
  | temp hl hi => exact .temp (Nat.le_trans hlo hl) hi

theorem stack (h : Means L ts lo m r p) : Means L ts lo { m with stack := st } r p := by
  cases h with
  | var hv hi => exact .var hv hi
  | slot hs hv hi => exact .slot hs hv hi
  | temp hl hi => exact .temp hl hi

/-- **A box is left alone by computations with other slots.** -/
theorem keep (h : Means L ts lo m r p) (hk : Keeps L ts' m m') (hd : ts.Disjoint ts') :
    Means L ts lo m' r p := by
  cases h with
  | var hv hi => exact .var hv hi
  | slot hs hv hi =>
    rw [← hk.pad _ hv (hd hs)]
    exact .slot hs hv hi
  | temp hl hi =>
    rw [← hk.temps _ hi]
    exact .temp hl (Nat.lt_of_lt_of_le hi hk.size)

theorem read (h : Means L ts lo m r p) (hh : Holds L σ m) : m.read r = p.read σ := by
  cases h with
  | var hv hi => exact hh.vars _ hv
  | slot hs hv hi => rfl
  | temp hl hi => rfl

theorem ne_null (h : Means L ts lo m r p) : r ≠ .null := by
  cases h <;> simp

/-- **A store through a reference is one in the place.** -/
theorem write (h : Means L ts lo m r p) (hh : Holds L σ m) (v : Scalar) :
    ∃ p' σ', p.write v σ = .ok p' σ' ∧ Holds L σ' (m.write r v) ∧
      Means L ts lo (m.write r v) r p' := by
  have floor : (m.write r v).stackFloor ≤ (m.write r v).stack.length := by
    rw [Machine.floors_write.1, Machine.stack_write]
    exact hh.floor
  have size : (m.write r v).pad.size = L.size := Machine.sizes_write.1.trans hh.size
  have fault : (m.write r v).fault = none := (Machine.fault_write m r v).trans hh.fault
  have saves : (m.write r v).saves = σ.saves := Machine.saves_write.trans hh.saves
  cases h with
  | @var s hv hi =>
    refine ⟨.var s, σ.set s v, rfl, ⟨⟨size, fun s' hv' => ?_, saves⟩, fault, floor⟩, .var hv hi⟩
    by_cases hs : s' = s
    · subst hs
      rw [Machine.read_write_pad (hh.size ▸ hi)]
      exact (if_pos rfl).symm
    · rw [Machine.read_write_of_ne (fun he => hs (Ref.pad.inj he).symm)]
      exact (hh.vars s' hv').trans (if_neg hs).symm
  | @slot s hs hv hi =>
    refine ⟨_, _, rfl, ⟨⟨size, fun s' hv' => ?_, saves⟩, fault, floor⟩, ?_⟩
    · have other : s ≠ s' := fun he => hv (he ▸ hv')
      rw [Machine.read_write_of_ne (by simpa using other)]
      exact hh.vars s' hv'
    · have box : Means L ts lo (m.write (.pad s) v) _ _ := .slot hs hv hi
      rwa [Machine.read_write_pad (hh.size ▸ hi)] at box
  | @temp i hl hi =>
    refine ⟨_, _, rfl, ⟨⟨size, fun s' hv' => ?_, saves⟩, fault, floor⟩, ?_⟩
    · rw [Machine.read_write_of_ne (by simp)]
      exact hh.vars s' hv'
    · have box : Means L ts lo (m.write (.temp i) v) _ _ :=
        .temp hl (by rw [Machine.sizes_write.2]; exact hi)
      rwa [Machine.read_write_temp hi] at box

/-- A store in a variable, or in a box of the computation's own, is in what it may touch. -/
theorem keeps_write (h : Means L ts m₀.temps.size m r p) (hk : Keeps L ts m₀ m) (v : Scalar) :
    Keeps L ts m₀ (m.write r v) where
  stackFloor := Machine.floors_write.1.trans hk.stackFloor
  tempFloor := Machine.floors_write.2.trans hk.tempFloor
  pad s hv hs := by
    rw [Machine.read_write_of_ne, hk.pad s hv hs]
    rintro rfl
    cases h with
    | var hv' => exact hv hv'
    | slot hs' => exact hs hs'
  size := by rw [Machine.sizes_write.2]; exact hk.size
  temps i hi := by
    rw [Machine.read_write_of_ne, hk.temps i hi]
    rintro rfl
    cases h with
    | temp hl => exact Nat.not_lt.mpr hl hi

end Means

end Relations

/-! ### What is listed as executed -/

namespace Meaning

variable {α β : Type} {ids : List OpId} {id : OpId}

/-- The store that a computation leaves, whether it halts or not. -/
def storeOf : EStateM.Result Halt Store α → Store
  | .ok _ σ => σ
  | .error _ σ => σ

section Beside

variable {p : Place} {d : Meaning α} {σ σ' : Store}

theorem beside_ok {a : α} (h : d { σ with held := p.hold σ.held } = .ok a σ') :
    beside p d σ = .ok a { σ' with held := σ.held } := by
  simp only [beside, h]

theorem beside_error {e : Halt} (h : d { σ with held := p.hold σ.held } = .error e σ') :
    beside p d σ = .error e σ' := by
  simp only [beside, h]

theorem done_beside : (storeOf (beside p d σ)).done =
    (storeOf (d { σ with held := p.hold σ.held })).done := by
  cases h : d { σ with held := p.hold σ.held } with
  | ok a σ' => rw [beside_ok h]; rfl
  | error e σ' => rw [beside_error h]

theorem beside_eq_ok {a : α} (h : beside p d σ = .ok a σ') :
    ∃ σ₁, d { σ with held := p.hold σ.held } = .ok a σ₁ ∧ σ' = { σ₁ with held := σ.held } := by
  cases hd : d { σ with held := p.hold σ.held } with
  | ok b σ₁ =>
    rw [beside_ok hd] at h
    cases h
    exact ⟨σ₁, rfl, rfl⟩
  | error e σ₁ =>
    rw [beside_error hd] at h
    cases h

theorem beside_eq_error {e : Halt} (h : beside p d σ = .error e σ') :
    d { σ with held := p.hold σ.held } = .error e σ' := by
  cases hd : d { σ with held := p.hold σ.held } with
  | ok b σ₁ =>
    rw [beside_ok hd] at h
    cases h
  | error e σ₁ =>
    rw [beside_error hd] at h
    exact h

end Beside

/-- The computation executes only ops of the list. -/
def Lists (ids : List OpId) (d : Meaning α) : Prop :=
  ∀ σ, ∃ l ⊆ ids, (storeOf (d σ)).done = σ.done ++ l

/-- The computation executes only ops of the list, and if it halts it is in one of them. -/
def Runs (ids : List OpId) (d : Meaning α) : Prop :=
  ∀ σ, ∃ l ⊆ ids, (storeOf (d σ)).done = σ.done ++ l ∧ ∀ e σ', d σ = .error e σ' → l ≠ []

theorem Lists.of_done {d : Meaning α} (h : ∀ σ, (storeOf (d σ)).done = σ.done) : Lists ids d :=
  fun σ => ⟨[], by simp, by rw [h, List.append_nil]⟩

theorem Lists.mono {ids' : List OpId} {d : Meaning α} (h : Lists ids d) (hi : ids ⊆ ids') :
    Lists ids' d := fun σ =>
  let ⟨l, hl, hdone⟩ := h σ
  ⟨l, List.Subset.trans hl hi, hdone⟩

theorem Lists.bind {d : Meaning α} {k : α → Meaning β} (hd : Lists ids d)
    (hk : ∀ a, Lists ids (k a)) : Lists ids (d >>= k) := by
  intro σ
  obtain ⟨l, hl, first⟩ := hd σ
  cases h : d σ with
  | error e σ' =>
    rw [h] at first
    exact ⟨l, hl, by rw [Effect.bind_error h]; exact first⟩
  | ok a σ' =>
    rw [h] at first
    obtain ⟨l', hl', second⟩ := hk a σ'
    refine ⟨l ++ l', List.append_subset.mpr ⟨hl, hl'⟩, ?_⟩
    rw [Effect.bind_ok h, second, ← List.append_assoc, ← first]
    rfl

namespace Runs

theorem lists {d : Meaning α} (h : Runs ids d) : Lists ids d := fun σ =>
  let ⟨l, hl, hdone, _⟩ := h σ
  ⟨l, hl, hdone⟩

theorem mono {ids' : List OpId} {d : Meaning α} (h : Runs ids d) (hi : ids ⊆ ids') :
    Runs ids' d := fun σ =>
  let ⟨l, hl, hdone⟩ := h σ
  ⟨l, List.Subset.trans hl hi, hdone⟩

theorem bind {d : Meaning α} {k : α → Meaning β} (hd : Runs ids d) (hk : ∀ a, Runs ids (k a)) :
    Runs ids (d >>= k) := by
  intro σ
  obtain ⟨l, hl, first, halts⟩ := hd σ
  cases h : d σ with
  | error e σ' =>
    rw [h] at first
    exact ⟨l, hl, by rw [Effect.bind_error h]; exact first, fun _ _ _ => halts e σ' h⟩
  | ok a σ' =>
    rw [h] at first
    obtain ⟨l', hl', second, halts'⟩ := hk a σ'
    rw [Effect.bind_ok h]
    refine ⟨l ++ l', List.append_subset.mpr ⟨hl, hl'⟩, ?_, fun e σ'' he => ?_⟩
    · rw [second, ← List.append_assoc, ← first]
      rfl
    · simp [halts' e σ'' he]

theorem beside {d : Meaning α} (h : Runs ids d) (p : Place) : Runs ids (Meaning.beside p d) := by
  intro σ
  obtain ⟨l, hl, hdone, halts⟩ := h { σ with held := p.hold σ.held }
  exact ⟨l, hl, done_beside.trans hdone, fun e σ' he => halts e σ' (beside_eq_error he)⟩

/-- Once an op is being executed, all is said. -/
theorem execute {k : Store → Meaning α} (hid : id ∈ ids) (hk : ∀ σ, Lists ids (k σ)) :
    Runs ids (Meaning.execute id >>= k) := by
  intro σ
  rw [execute_bind]
  obtain ⟨l, hl, rest⟩ := hk (σ.note id) (σ.note id)
  refine ⟨id :: l, List.cons_subset.mpr ⟨hid, hl⟩, ?_, by simp⟩
  rw [rest, Store.note, List.append_assoc]
  rfl

end Runs

theorem lists_write (v : Scalar) (p : Place) : Lists ids (p.write v) :=
  .of_done fun σ => by cases p <;> rfl

theorem lists_arithmetic (a : Arithmetic) (x y : Float) : Lists ids (a.meaning x y) := by
  refine .of_done fun σ => ?_
  unfold Arithmetic.meaning
  cases a.apply x y <;> rfl

theorem lists_pure (a : α) : Lists ids (pure a : Meaning α) := .of_done fun _ => rfl

end Meaning

open Meaning in
/-- An op executes its kids and itself. -/
theorem Face.runs_meaning {id : OpId} {f : Face} {kids : List (Meaning Place)} {ids : List OpId}
    (hid : id ∈ ids) (hk : ∀ d ∈ kids, Runs ids d) : Runs ids (f.meaning id kids) := by
  unfold Face.meaning
  split
  · exact .execute hid fun σ => lists_pure _
  · next new _ =>
    refine .execute hid fun σ => .bind (.of_done fun σ' => ?_) fun _ => lists_pure _
    cases new <;> rfl
  · refine .bind (hk _ (by simp)) fun p => .bind (.beside (hk _ (by simp)) p) fun q =>
      .execute hid fun σ => .bind (lists_arithmetic _ _ _) fun x => ?_
    split
    · exact lists_write _ p
    · exact lists_pure _
  · exact .bind (hk _ (by simp)) fun p => .execute hid fun σ => lists_pure _
  · exact .bind (hk _ (by simp)) fun p => .bind (.beside (hk _ (by simp)) p) fun q =>
      .execute hid fun σ => lists_write _ p
  · refine .bind (hk _ (by simp)) fun p => .execute hid fun σ => ?_
    split
    · exact (hk _ (by simp)).lists
    · exact lists_pure _
  · refine .bind (hk _ (by simp)) fun p => .execute hid fun σ => ?_
    split
    · exact lists_pure _
    · exact (hk _ (by simp)).lists
  · refine .bind (hk _ (by simp)) fun p => .execute hid fun σ => ?_
    split
    · exact (hk _ (by simp)).lists
    · exact (hk _ (by simp)).lists
  · exact .execute hid fun σ => .of_done fun _ => rfl

namespace HostTree

open Meaning

theorem mem_meanings {d : Meaning Place} {ks : List HostTree} :
    d ∈ meanings ks ↔ ∃ k ∈ ks, k.meaning = d := by
  induction ks with
  | nil => simp [meanings]
  | cons k ks ih => simp [meanings, ih, eq_comm]

/-- **An expression executes only ops of its own**, and where it halts it is in one of them. -/
theorem runs_meaning (T : HostTree) : Runs T.ids T.meaning := by
  induction T using induction with
  | step id f ks ih =>
    rw [meaning]
    refine Face.runs_meaning (root_mem_ids (node id f ks)) fun d hd => ?_
    obtain ⟨k, hk, rfl⟩ := mem_meanings.mp hd
    exact (ih k hk).mono (ids_subset (subtrees_of_kid (t := node id f ks) hk))

/-- Ops that are not in the expression are not executed with it. -/
theorem done_disjoint {T : HostTree} {σ σ' : Store} {p : Place} {ids : List OpId}
    (h : T.meaning σ = .ok p σ') (hσ : σ.done.Disjoint ids) (hT : T.ids.Disjoint ids) :
    σ'.done.Disjoint ids := by
  obtain ⟨l, hl, hdone, -⟩ := T.runs_meaning σ
  rw [h] at hdone
  rw [show σ'.done = _ from hdone, List.disjoint_append_left]
  exact ⟨hσ, List.disjoint_of_subset_left hl hT⟩

/-- Where an expression halts, only its own ops have been executed, the last of all among them. -/
theorem halts_within {T : HostTree} {σ σ' : Store} {e : Halt} {ids : List OpId}
    (h : T.meaning σ = .error e σ') (hσ : σ.done.Disjoint ids) (hT : T.ids.Disjoint ids) :
    σ'.done.Disjoint ids ∧ ∃ x ∈ T.ids, σ'.done.getLast? = some x := by
  obtain ⟨l, hl, hdone, halts⟩ := T.runs_meaning σ
  have hne := halts e σ' h
  rw [h] at hdone
  have hdone : σ'.done = σ.done ++ l := hdone
  refine ⟨?_, l.getLast hne, hl (List.getLast_mem hne), ?_⟩
  · rw [hdone, List.disjoint_append_left]
    exact ⟨hσ, List.disjoint_of_subset_left hl hT⟩
  · rw [hdone, List.getLast?_append_of_ne_nil _ hne, List.getLast?_eq_some_getLast hne]

end HostTree

/-! ### What waits -/

namespace Meaning

variable {α β : Type}

/-- What waits before the computation waits after it, and if it halts, among others. -/
structure Retains (d : Meaning α) : Prop where
  ok : ∀ {σ a σ'}, d σ = .ok a σ' → σ'.held = σ.held
  error : ∀ {σ e σ'}, d σ = .error e σ' → σ.held ⊆ σ'.held

namespace Retains

theorem of_held {d : Meaning α} (h : ∀ σ, (storeOf (d σ)).held = σ.held) : Retains d where
  ok {σ a σ'} hd := by
    have held := h σ
    rwa [hd] at held
  error {σ e σ'} hd := by
    have held := h σ
    rw [hd] at held
    exact held ▸ List.Subset.refl _

theorem bind {d : Meaning α} {k : α → Meaning β} (hd : Retains d) (hk : ∀ a, Retains (k a)) :
    Retains (d >>= k) where
  ok h := by
    obtain ⟨a, σ₁, first, second⟩ := Effect.bind_eq_ok.mp h
    exact ((hk a).ok second).trans (hd.ok first)
  error {σ e σ'} h := by
    cases hσ : d σ with
    | ok a σ₁ =>
      rw [Effect.bind_ok hσ] at h
      exact hd.ok hσ ▸ (hk a).error h
    | error e' σ₁ =>
      rw [Effect.bind_error hσ] at h
      cases h
      exact hd.error hσ

theorem beside {d : Meaning α} (h : Retains d) (p : Place) : Retains (Meaning.beside p d) where
  ok hd := by
    obtain ⟨σ₁, -, rfl⟩ := beside_eq_ok hd
    rfl
  error {σ e σ'} hd := by
    refine List.Subset.trans ?_ (h.error (beside_eq_error hd))
    cases p with
    | var s => exact List.subset_cons_self s σ.held
    | value v => exact List.Subset.refl _

end Retains

theorem retains_pure (a : α) : Retains (pure a : Meaning α) := .of_held fun _ => rfl

theorem retains_execute (id : OpId) : Retains (execute id) := .of_held fun _ => rfl

theorem retains_write (v : Scalar) (p : Place) : Retains (p.write v) :=
  .of_held fun σ => by cases p <;> rfl

theorem retains_arithmetic (a : Arithmetic) (x y : Float) : Retains (a.meaning x y) := by
  refine .of_held fun σ => ?_
  unfold Arithmetic.meaning
  cases a.apply x y <;> rfl

end Meaning

open Meaning in
theorem Face.retains_meaning {id : OpId} {f : Face} {kids : List (Meaning Place)}
    (hk : ∀ d ∈ kids, Retains d) : Retains (f.meaning id kids) := by
  have executed : ∀ {α : Type} {k : Store → Meaning α}, (∀ σ, Retains (k σ)) →
      Retains (execute id >>= k) := fun h => (retains_execute id).bind h
  unfold Face.meaning
  split
  · exact executed fun σ => retains_pure _
  · next new _ =>
    refine executed fun σ => .bind (.of_held fun σ' => ?_) fun _ => retains_pure _
    cases new <;> rfl
  · refine .bind (hk _ (by simp)) fun p => .bind (.beside (hk _ (by simp)) p) fun q =>
      executed fun σ => .bind (retains_arithmetic _ _ _) fun x => ?_
    split
    · exact retains_write _ p
    · exact retains_pure _
  · exact .bind (hk _ (by simp)) fun p => executed fun σ => retains_pure _
  · exact .bind (hk _ (by simp)) fun p => .bind (.beside (hk _ (by simp)) p) fun q =>
      executed fun σ => retains_write _ p
  · refine .bind (hk _ (by simp)) fun p => executed fun σ => ?_
    split
    · exact hk _ (by simp)
    · exact retains_pure _
  · refine .bind (hk _ (by simp)) fun p => executed fun σ => ?_
    split
    · exact retains_pure _
    · exact hk _ (by simp)
  · refine .bind (hk _ (by simp)) fun p => executed fun σ => ?_
    split
    · exact hk _ (by simp)
    · exact hk _ (by simp)
  · exact executed fun σ => .of_held fun _ => rfl

/-- **What waits for an expression waits until it is computed.** -/
theorem HostTree.retains_meaning (T : HostTree) : Meaning.Retains T.meaning := by
  induction T using induction with
  | step id f ks ih =>
    rw [meaning]
    refine Face.retains_meaning fun d hd => ?_
    obtain ⟨k, hk, rfl⟩ := mem_meanings.mp hd
    exact ih k hk

/-- **What is known of a stack and of the variables that wait**, and still known if one more operand
waits on the stack. -/
structure Accounts (L : Layout) (I : List Slot → List Ref → Prop) : Prop where
  nil : I [] []
  push : ∀ {ts lo m r p held st}, Means L ts lo m r p → I held st → I (p.hold held) (r :: st)

/-! ### Computations with a meaning -/

section Mimicry

variable {α β γ δ : Type} {E : Store → Machine → Prop}

/-- The results of a computation on machines and of its meaning: related by `Q` if both come to an
end, and else by `E`, with the same halt. -/
inductive Mimics (E : Store → Machine → Prop) (Q : β → Machine → α → Store → Prop) :
    EStateM.Result Halt Machine β → EStateM.Result Halt Store α → Prop where
  | ok {b : β} {m : Machine} {a : α} {σ : Store} : Q b m a σ → Mimics E Q (.ok b m) (.ok a σ)
  | error {h : Halt} {m : Machine} {σ : Store} : E σ m → Mimics E Q (.error h m) (.error h σ)

variable {Q : β → Machine → α → Store → Prop} {Q' : δ → Machine → γ → Store → Prop} {m : Machine}
  {σ : Store}

theorem Mimics.bind {x : MachineM β} {d : Meaning α} {k : β → MachineM δ} {e : α → Meaning γ}
    (h : Mimics E Q (x m) (d σ))
    (hk : ∀ b m' a σ', d σ = .ok a σ' → Q b m' a σ' → Mimics E Q' (k b m') (e a σ')) :
    Mimics E Q' ((x >>= k) m) ((d >>= e) σ) := by
  cases hx : x m with
  | ok b m' =>
    rw [hx] at h
    rw [Effect.bind_ok hx]
    cases hd : d σ with
    | ok a σ' =>
      rw [hd] at h
      rw [Effect.bind_ok hd]
      cases h with
      | ok hq => exact hk b m' a σ' hd hq
    | error e σ' => rw [hd] at h; cases h
  | error e m' =>
    rw [hx] at h
    rw [Effect.bind_error hx]
    cases hd : d σ with
    | ok a σ' => rw [hd] at h; cases h
    | error e' σ' =>
      rw [hd] at h
      rw [Effect.bind_error hd]
      cases h with
      | error he => exact .error he

theorem Mimics.mono {Q₁ : β → Machine → α → Store → Prop} {R : EStateM.Result Halt Machine β}
    {D : EStateM.Result Halt Store α} (h : Mimics E Q R D)
    (hq : ∀ b m a σ, Q b m a σ → Q₁ b m a σ) : Mimics E Q₁ R D := by
  cases h with
  | ok h => exact .ok (hq _ _ _ _ h)
  | error he => exact .error he

end Mimicry

/-- What the computation of an expression leaves: one reference more on the stack. -/
structure Leaves (L : Layout) (ts : List Slot) (m m' : Machine) (σ : Store) (r : Ref) (p : Place) :
    Prop where
  stack : m'.stack = r :: m.stack
  holds : Holds L σ m'
  keeps : Keeps L ts m m'
  means : Means L ts m.temps.size m' r p

theorem Leaves.held {L : Layout} {ts : List Slot} {m m' : Machine} {σ : Store} {r : Ref} {p : Place}
    (h : Leaves L ts m m' σ r p) (held : List Slot) : Leaves L ts m m' { σ with held } r p :=
  ⟨h.stack, h.holds.held held, h.keeps, h.means⟩

/-- **The computation has the meaning of an expression**, and uses the slots of its ops for its
boxes. -/
def Computes (L : Layout) (I : List Slot → List Ref → Prop) (E : Store → Machine → Prop)
    (T : HostTree) (x : MachineM Unit) : Prop :=
  ∀ m σ, Holds L σ m → I σ.held m.stack → σ.done.Disjoint T.ids →
    Mimics E (fun _ m' p σ' => ∃ r, Leaves L T.targets m m' σ' r p) (x m) (T.meaning σ)

end Graft
