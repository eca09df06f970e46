import Graft.Proofs.Meaning
import Graft.Proofs.Mirror
import Graft.Proofs.TreeRun

/-! # Interpreted expressions

The ops of a program that was read from a graph compute what they mean, if their operands do
(`Mirrors.computes_node`).  It is all that the interpreter contributes: the same lemma is used for
the program as it was and for an op that was left alone while its operands were compiled.

An op takes its operands from the stack, and has them there because their trees have been run before
it.  So the first operand lies on the stack while the second is computed, and must be what it was
when the op comes to it: a reference still means its place, if the second operand uses only slots of
its own and temporaries above those in use (`Computes.beside`).  If the second operand halts, the
first is still on the stack, and what the store says of operands that wait is said of the machine
(`OnStack`).  Results go to the slot of the op, or to a temporary, and from there on are a box of
the expression's own (`Means.store`).

The proof is by cases over the ops, and in each case the steps of the machine are taken one by one
against those of the meaning; for a choice and for `and` and `or`, only the branch that is taken is
computed, and the others need not mean anything.

The last part is about the term that a tree was read from: which op it halts in, and which variables
it can yield (`Term.CanBe`).  A unit knows of an operand that it hands over only its term, so after
a fault that is all there is to say where the operand's box may lead.
-/

namespace Graft

open HostTree

namespace Machine

variable {m : Machine} {id : OpId} {l r : Ref} {st : List Ref} {targ : Option Slot}

/-! ### Steps -/

theorem top?_eq (hst : m.stack = r :: st) (hf : m.stackFloor ≤ st.length) : m.top? = some r := by
  unfold top?
  rw [hst, if_neg (by simp; omega)]
  rfl

theorem pop_eq (hst : m.stack = r :: st) (hf : m.stackFloor ≤ st.length) :
    pop id m = .ok r { m with stack := st } := by
  unfold pop
  rw [Effect.get_bind]
  simp only [pop?, top?_eq hst hf, hst]
  rfl

theorem discard_pop_eq (hst : m.stack = r :: st) (hf : m.stackFloor ≤ st.length) :
    discard (pop id) m = .ok ⟨⟩ { m with stack := st } := by
  show EStateM.map _ (pop id) m = _
  rw [EStateM.map, pop_eq hst hf]

theorem peek_eq (hst : m.stack = r :: st) (hf : m.stackFloor ≤ st.length) :
    peek id m = .ok r m := by
  unfold peek
  rw [Effect.get_bind, top?_eq hst hf]
  rfl

theorem padRef_eq {s : Slot} (h : s.index < m.pad.size) : padRef s m = .ok (.pad s) m := by
  unfold padRef
  rw [Effect.get_bind, padRef?, if_pos h]
  rfl

/-- A result goes to the slot of its op. -/
theorem yield_slot {s : Slot} {x : Float} (h : s.index < m.pad.size) :
    (do yield (← target (some s)) x; return false) m =
      .ok false ((m.write (.pad s) (.num x)).push (.pad s)) := by
  have slot : target (some s) m = .ok (.pad s) m := padRef_eq h
  rw [Effect.bind_ok slot]
  rfl

theorem step_arith {a : Arithmetic} {stacked : Bool} (hst : m.stack = r :: l :: st)
    (hf : m.stackFloor ≤ st.length) :
    step id ⟨.arith a, targ, stacked⟩ m = (do
      let x ← calculate a (m.read l).toNum (m.read r).toNum
      yield (← (if stacked then pure l else target targ)) x
      return false) { m with stack := st } := by
  have below : m.stackFloor ≤ (l :: st).length := by simp; omega
  unfold step exec
  simp only [map_bind, map_pure, Option.isSome_none]
  rw [Effect.bind_ok (pop_eq hst below),
    Effect.bind_ok (pop_eq (m := { m with stack := l :: st }) rfl hf), Effect.get_bind]
  rfl

theorem step_negate (hst : m.stack = r :: st) (hf : m.stackFloor ≤ st.length) :
    step id ⟨.negate, targ, false⟩ m = (do
      yield (← target targ) (-(m.read r).toNum)
      return false) { m with stack := st } := by
  unfold step exec
  simp only [map_bind, map_pure, Option.isSome_none]
  rw [Effect.bind_ok (pop_eq hst hf), Effect.get_bind]
  rfl

theorem step_assign (hst : m.stack = r :: l :: st) (hf : m.stackFloor ≤ st.length) (hr : r ≠ .null) :
    step id ⟨.assign, targ, false⟩ m = .ok false ({ m with stack := st }.write l (m.read r) |>.push l) := by
  have below : m.stackFloor ≤ (l :: st).length := by simp; omega
  unfold step exec
  simp only [map_bind, map_pure, Option.isSome_none]
  rw [Effect.bind_ok (pop_eq hst below),
    Effect.bind_ok (pop_eq (m := { m with stack := l :: st }) rfl hf), Effect.modify_bind]
  simp only [copy, if_neg hr]
  rfl

theorem step_and (hst : m.stack = r :: st) (hf : m.stackFloor ≤ st.length) :
    step id ⟨.and, targ, false⟩ m =
      if (m.read r).isTrue then .ok true { m with stack := st } else .ok false m := by
  unfold step exec
  simp only [map_bind]
  rw [Effect.bind_ok (peek_eq hst hf), Effect.get_bind]
  split
  · rw [map_bind, Effect.bind_ok (discard_pop_eq hst hf)]
    rfl
  · rfl

theorem step_or (hst : m.stack = r :: st) (hf : m.stackFloor ≤ st.length) :
    step id ⟨.or, targ, false⟩ m =
      if (m.read r).isTrue then .ok false m else .ok true { m with stack := st } := by
  unfold step exec
  simp only [map_bind]
  rw [Effect.bind_ok (peek_eq hst hf), Effect.get_bind]
  split
  · rfl
  · rw [map_bind, Effect.bind_ok (discard_pop_eq hst hf)]
    rfl

theorem step_cond (hst : m.stack = r :: st) (hf : m.stackFloor ≤ st.length) :
    step id ⟨.cond, targ, false⟩ m = .ok (m.read r).isTrue { m with stack := st } := by
  have answer : (if (m.read r).isTrue then some id else none).isSome = (m.read r).isTrue := by
    cases (m.read r).isTrue <;> rfl
  unfold step exec
  simp only [map_bind, map_pure]
  rw [Effect.bind_ok (pop_eq hst hf), Effect.get_bind]
  exact congrArg (fun b => EStateM.Result.ok b { m with stack := st }) answer

end Machine

/-! ### Operands and results -/

section Results

variable {L : Layout} {E : Store → Machine → Prop} {ts : List Slot} {m m' : Machine} {σ : Store}
  {r : Ref} {p : Place}

/-- A number that is computed, or the halt instead. -/
theorem mimics_calculate (a : Arithmetic) (x y : Float) (he : E σ m) :
    Mimics E (fun z m' w σ' => z = w ∧ m' = m ∧ σ' = σ) (Machine.calculate a x y m)
      (a.meaning x y σ) := by
  unfold Machine.calculate Arithmetic.meaning
  cases a.apply x y with
  | ok z => exact .ok ⟨rfl, rfl, rfl⟩
  | error e => exact .error he

/-- **A value is stored in a box, and the box is left on the stack.** -/
theorem Means.store (h : Means L ts m.temps.size m' r p) (hh : Holds L σ m') (hk : Keeps L ts m m')
    (floor : m'.stackFloor ≤ m.stack.length) (v : Scalar) :
    ∃ p' σ', p.write v σ = .ok p' σ' ∧
      Leaves L ts m (({ m' with stack := m.stack }.write r v).push r) σ' r p' := by
  have box : Means L ts m.temps.size { m' with stack := m.stack } r p := h.stack
  obtain ⟨p', σ', hw, holds, means⟩ := box.write (hh.stack floor) v
  have stack : ({ m' with stack := m.stack }.write r v).stack = m.stack := Machine.stack_write
  refine ⟨p', σ', hw, ?_, holds.stack ?_, (box.keeps_write hk.stack v).stack, means.stack⟩
  · rw [Machine.push, stack]
  · rw [Machine.floors_write.1, stack, List.length_cons]
    exact Nat.le_succ_of_le floor

/-- A variable is declared: it is cleared, and what it held is saved. -/
theorem Holds.introduce {s : Slot} (hh : Holds L σ m) (hv : L.vars s) (hi : s.index < L.size)
    (ts : List Slot) :
    ∃ m', m.introduce? s = some m' ∧ m'.stack = m.stack ∧ Holds L (σ.declare s) m' ∧
      Keeps L ts m m' := by
  have place : Means L ts m.temps.size m (.pad s) (.var s) := .var hv hi
  obtain ⟨_, _, hw, holds, -⟩ := place.write hh .undefined
  cases hw
  have keeps := place.keeps_write (Keeps.refl L ts m) .undefined
  obtain ⟨v, hvalue⟩ : ∃ v, m.padValue? s = some v := ⟨_, Array.getElem?_eq_getElem (hh.size ▸ hi)⟩
  have value : v = σ.value s := by
    rw [← hh.vars s hv, Machine.read, show m.pad[s.index]? = some v from hvalue, Option.getD_some]
  refine ⟨{ m.write (.pad s) .undefined with saves := (s, v) :: m.saves }, ?_, rfl, ?_, ?_⟩
  · rw [Machine.introduce?, hvalue]
  · exact ⟨⟨holds.size, holds.vars, by rw [value, hh.saves]; rfl⟩, holds.fault, holds.floor⟩
  · exact ⟨keeps.stackFloor, keeps.tempFloor, keeps.pad, keeps.size, keeps.temps⟩

end Results

/-! ### Ops -/

theorem HostTree.targets_kid {id : OpId} {f : Face} {ks : List HostTree} {k : HostTree} (hk : k ∈ ks) :
    k.targets ⊆ (node id f ks).targets :=
  ((subtrees_sublist (subtrees_of_kid (t := node id f ks) hk)).filterMap _).subset

namespace Layout.Suits

variable {L : Layout} {id : OpId} {f : Face} {ks : List HostTree} {k l r : HostTree} {s : Slot}

theorem kid (h : L.Suits (node id f ks)) (hk : k ∈ ks) : L.Suits k :=
  h.subtree (subtrees_of_kid (t := node id f ks) hk)

theorem rows_sublist : (l.subtrees ++ r.subtrees).Sublist (node id f (l :: r :: ks)).subtrees := by
  simp only [subtrees, subtreesAll, ← List.append_assoc]
  exact (List.sublist_append_left _ _).cons _

/-- Operands have no slots in common. -/
theorem apart (h : L.Suits (node id f (l :: r :: ks))) : l.targets.Disjoint r.targets := by
  have parts : (l.targets ++ r.targets).Sublist (node id f (l :: r :: ks)).targets := by
    rw [HostTree.targets, HostTree.targets, ← List.filterMap_append]
    exact rows_sublist.filterMap _
  exact (List.nodup_append'.mp (h.nodup.sublist parts)).2.2

/-- The first operand has no ops in common with another. -/
theorem ids_apart (h : L.Suits (node id f (l :: ks))) (hr : r ∈ ks) : l.ids.Disjoint r.ids := by
  have nodup := (nodup_kids h.ids).2
  rw [idsAll_cons, List.nodup_append'] at nodup
  exact List.disjoint_of_subset_right (ids_subset_idsAll hr) nodup.2.2

/-- Where no op of a tree has been executed, none of a kid has. -/
theorem done_kid {σ : Store} (hd : σ.done.Disjoint (node id f ks).ids) (hk : k ∈ ks) :
    σ.done.Disjoint k.ids :=
  List.disjoint_of_subset_right (ids_subset (subtrees_of_kid (t := node id f ks) hk)) hd

/-- After the first operand no op of another has been executed. -/
theorem done_next {σ σ' : Store} {p : Place} (h : L.Suits (node id f (l :: ks)))
    (hd : σ.done.Disjoint (node id f (l :: ks)).ids) (hl : l.meaning σ = .ok p σ') (hr : r ∈ ks) :
    σ'.done.Disjoint r.ids :=
  done_disjoint hl (done_kid hd (by simp [hr])) (h.ids_apart hr)

/-- Nor when the op itself has been executed after it. -/
theorem done_after {σ σ' : Store} {p : Place} (h : L.Suits (node id f (l :: ks)))
    (hd : σ.done.Disjoint (node id f (l :: ks)).ids) (hl : l.meaning σ = .ok p σ') (hr : r ∈ ks) :
    (σ'.note id).done.Disjoint r.ids := by
  rw [Store.note, List.disjoint_append_left, List.singleton_disjoint]
  refine ⟨h.done_next hd hl hr, fun hx => (nodup_kids h.ids).1 ?_⟩
  exact ids_subset_idsAll (List.mem_cons_of_mem _ hr) hx

/-- The slot of an op is not a variable. -/
theorem own (h : L.Suits (node id f ks)) (hf : f.targ = some s) :
    s ∈ (node id f ks).targets ∧ ¬ L.vars s ∧ s.index < L.size := by
  have mem : s ∈ (node id f ks).targets :=
    List.mem_filterMap.mpr ⟨_, mem_subtrees_self _, hf⟩
  exact ⟨mem, h.targets s mem⟩

/-- A value is stored in the slot of an op, and the slot is left on the stack. -/
theorem leaves {m m' : Machine} {σ : Store} (h : L.Suits (node id f ks)) (hf : f.targ = some s)
    (hh : Holds L σ m') (hk : Keeps L (node id f ks).targets m m')
    (floor : m'.stackFloor ≤ m.stack.length) (v : Scalar) :
    Leaves L (node id f ks).targets m
      (({ m' with stack := m.stack }.write (.pad s) v).push (.pad s)) σ (.pad s) (.value v) := by
  obtain ⟨mem, notVar, inside⟩ := h.own hf
  have box : Means L (node id f ks).targets m.temps.size m' (.pad s) (.value (m'.read (.pad s))) :=
    .slot mem notVar inside
  obtain ⟨_, _, hw, leaves⟩ := box.store hh hk floor v
  cases hw
  exact leaves

end Layout.Suits

section Ops

variable {L : Layout} {I : List Slot → List Ref → Prop} {E : Store → Machine → Prop} {id : OpId}
  {l r l' r' : HostTree}

/-- **An operand is computed while another waits for it on the stack.** -/
theorem Computes.beside {y : MachineM Unit} {m : Machine} {σ : Store} {ts : List Slot} {lo : Nat}
    {a : Ref} {p : Place} {st : List Ref} (h : Computes L I E r y) (hI : Accounts L I)
    (hh : Holds L σ m) (hst : m.stack = a :: st) (hi : I σ.held st) (hp : Means L ts lo m a p)
    (hd : σ.done.Disjoint r.ids) :
    Mimics E (fun _ m' q σ' => ∃ b, Leaves L r.targets m m' σ' b q) (y m)
      (Meaning.beside p r.meaning σ) := by
  have waiting : I (p.hold σ.held) m.stack := hst ▸ hI.push hp hi
  have mimics := h m { σ with held := p.hold σ.held } (hh.held _) waiting hd
  generalize hX : y m = X at mimics
  generalize hD : r.meaning { σ with held := p.hold σ.held } = D at mimics
  cases mimics with
  | ok leaves =>
    obtain ⟨b, leaves⟩ := leaves
    rw [Meaning.beside_ok hD]
    exact .ok ⟨b, leaves.held _⟩
  | error he =>
    rw [Meaning.beside_error hD]
    exact .error he

/-- **Two operands**, the first of which is not touched by the second. -/
theorem Computes.operands {f : Face} {x y : MachineM Unit} {β γ : Type} {k : MachineM β}
    {c : Place → Place → Meaning γ} {Q : β → Machine → γ → Store → Prop} {m : Machine} {σ : Store}
    (hI : Accounts L I) (hl : Computes L I E l x) (hr : Computes L I E r y)
    (hs : L.Suits (node id f [l, r])) (hh : Holds L σ m) (hi : I σ.held m.stack)
    (hd : σ.done.Disjoint (node id f [l, r]).ids)
    (hk : ∀ m' σ' a b p q, m'.stack = b :: a :: m.stack → Holds L σ' m' → I σ'.held m.stack →
      Keeps L (node id f [l, r]).targets m m' →
      Means L (node id f [l, r]).targets m.temps.size m' a p →
      Means L (node id f [l, r]).targets m.temps.size m' b q → Mimics E Q (k m') (c p q σ')) :
    Mimics E Q ((do x; y; k) m)
      ((do let p ← l.meaning; let q ← Meaning.beside p r.meaning; c p q) σ) := by
  have left : l.targets ⊆ (node id f [l, r]).targets := targets_kid List.mem_cons_self
  have right : r.targets ⊆ (node id f [l, r]).targets := targets_kid (by simp)
  refine (hl m σ hh hi (Layout.Suits.done_kid hd (by simp))).bind ?_
  rintro - m₁ p σ₁ hp ⟨a, first⟩
  have hi₁ : I σ₁.held m.stack := by rwa [l.retains_meaning.ok hp]
  refine (hr.beside hI first.holds first.stack hi₁ first.means
    (hs.done_next hd hp (by simp))).bind ?_
  rintro - m₂ q σ₂ hq ⟨b, second⟩
  have hi₂ : I σ₂.held m.stack := by rwa [(r.retains_meaning.beside p).ok hq]
  refine hk m₂ σ₂ a b p q ?_ second.holds hi₂
    ((first.keeps.mono left).trans (second.keeps.mono right)) ?_ ?_
  · rw [second.stack, first.stack]
  · exact (first.means.keep second.keeps hs.apart).mono left (Nat.le_refl _)
  · exact second.means.mono right first.keeps.size

/-- The answer of a computation is not wanted. -/
theorem Mimics.discard {α β : Type} {x : MachineM β} {m : Machine} {D : EStateM.Result Halt Store α}
    {Q : Machine → α → Store → Prop} (h : Mimics E (fun _ => Q) (x m) D) :
    Mimics E (fun _ => Q) ((do let _ ← x) m) D := by
  cases hx : x m with
  | ok b m' =>
    rw [hx] at h
    rw [Effect.bind_ok hx]
    cases h with
    | ok hq => exact .ok hq
  | error e m' =>
    rw [hx] at h
    rw [Effect.bind_error hx]
    cases h with
    | error he => exact .error he

/-- What is left to be shown of an op with two operands. -/
theorem computes_binary {f : Face} (hI : Accounts L I) (hf : f.kind.shape = .plain)
    (hs : L.Suits (node id f [l, r])) (hl : Computes L I E l l'.run.erase)
    (hr : Computes L I E r r'.run.erase) {c : Place → Place → Meaning Place}
    (hc : (node id f [l, r]).meaning =
      (do let p ← l.meaning; let q ← Meaning.beside p r.meaning; c p q))
    (hk : ∀ m m' σ a b p q, m'.stack = b :: a :: m.stack → m'.stackFloor ≤ m.stack.length →
      Holds L σ m' → I σ.held m.stack → Keeps L (node id f [l, r]).targets m m' →
      Means L (node id f [l, r]).targets m.temps.size m' a p →
      Means L (node id f [l, r]).targets m.temps.size m' b q →
      Mimics E (fun _ m'' p' σ' => ∃ r', Leaves L (node id f [l, r]).targets m m'' σ' r' p')
        (Machine.step id f m') (c p q σ)) :
    Computes L I E (node id f [l, r]) (node id f [l', r']).run.erase := by
  intro m σ hh hi hd
  have run : (node id f [l', r']).run.erase =
      (do l'.run.erase; r'.run.erase; let _ ← Machine.step id f) := by
    rw [run_plain hf]
    simp only [runAll, act, Traced.erase_bind, Traced.erase_pure, Traced.erase_note,
      Traced.erase_lift, bind_assoc, pure_bind]
  rw [run, hc]
  refine Computes.operands hI hl hr hs hh hi hd ?_
  intro m' σ' a b p q hst holds waiting keeps hp hq
  have floor : m'.stackFloor ≤ m.stack.length := by rw [keeps.stackFloor]; exact hh.floor
  exact (hk m m' σ' a b p q hst floor holds waiting keeps hp hq).discard

section Plain

variable (hI : Accounts L I)

include hI

section Arithmetic

variable (hE : ∀ σ m, Agrees L σ m → I σ.held m.stack → E σ m)

include hE

theorem computes_arith {a : Arithmetic} {s : Slot}
    (hs : L.Suits (node id ⟨.arith a, some s, false⟩ [l, r]))
    (hl : Computes L I E l l'.run.erase) (hr : Computes L I E r r'.run.erase) :
    Computes L I E (node id ⟨.arith a, some s, false⟩ [l, r])
      (node id ⟨.arith a, some s, false⟩ [l', r']).run.erase := by
  refine computes_binary hI rfl hs hl hr rfl ?_
  intro m m' σ b c p q hst floor holds waiting keeps hp hq
  rw [Machine.step_arith hst floor, hp.read (holds.note id), hq.read (holds.note id),
    Meaning.execute_bind]
  refine (mimics_calculate a _ _ ?_).bind ?_
  · exact hE _ _ ((holds.note id).stack floor).toAgrees waiting
  rintro x m₁ _ _ - ⟨rfl, rfl, rfl⟩
  rw [if_neg (by simp), if_neg (by simp), Machine.yield_slot (by rw [holds.size]; exact (hs.own rfl).2.2)]
  exact .ok ⟨_, hs.leaves rfl (holds.note id) keeps floor (.num x)⟩

theorem computes_assigning {a : Arithmetic} (hs : L.Suits (node id ⟨.arith a, none, true⟩ [l, r]))
    (hl : Computes L I E l l'.run.erase) (hr : Computes L I E r r'.run.erase) :
    Computes L I E (node id ⟨.arith a, none, true⟩ [l, r])
      (node id ⟨.arith a, none, true⟩ [l', r']).run.erase := by
  refine computes_binary hI rfl hs hl hr rfl ?_
  intro m m' σ b c p q hst floor holds waiting keeps hp hq
  rw [Machine.step_arith hst floor, hp.read (holds.note id), hq.read (holds.note id),
    Meaning.execute_bind]
  refine (mimics_calculate a _ _ ?_).bind ?_
  · exact hE _ _ ((holds.note id).stack floor).toAgrees waiting
  rintro x m₁ _ _ - ⟨rfl, rfl, rfl⟩
  obtain ⟨p', σ', hw, leaves⟩ := hp.store (holds.note id) keeps floor (.num x)
  rw [if_pos rfl, if_pos rfl, hw]
  exact .ok ⟨_, leaves⟩

end Arithmetic

theorem computes_assign (hs : L.Suits (node id ⟨.assign, none, false⟩ [l, r]))
    (hl : Computes L I E l l'.run.erase) (hr : Computes L I E r r'.run.erase) :
    Computes L I E (node id ⟨.assign, none, false⟩ [l, r])
      (node id ⟨.assign, none, false⟩ [l', r']).run.erase := by
  refine computes_binary hI rfl hs hl hr rfl ?_
  intro m m' σ b c p q hst floor holds waiting keeps hp hq
  obtain ⟨p', σ', hw, leaves⟩ := hp.store (holds.note id) keeps floor (q.read (σ.note id))
  rw [Machine.step_assign hst floor hq.ne_null, hq.read (holds.note id), Meaning.execute_bind, hw]
  exact .ok ⟨_, leaves⟩

end Plain

theorem computes_negation {s : Slot} (hs : L.Suits (node id ⟨.negate, some s, false⟩ [r]))
    (hr : Computes L I E r r'.run.erase) :
    Computes L I E (node id ⟨.negate, some s, false⟩ [r])
      (node id ⟨.negate, some s, false⟩ [r']).run.erase := by
  intro m σ hh hi hd
  have run : (node id ⟨.negate, some s, false⟩ [r']).run.erase =
      (do r'.run.erase; let _ ← Machine.step id ⟨.negate, some s, false⟩) := by
    rw [run_plain rfl]
    simp only [runAll, act, Traced.erase_bind, Traced.erase_pure, Traced.erase_note,
      Traced.erase_lift, bind_assoc, pure_bind]
  rw [run]
  refine (hr m σ hh hi (Layout.Suits.done_kid hd (by simp))).bind ?_
  rintro - m' p σ' - ⟨b, operand⟩
  refine Mimics.discard ?_
  have floor : m'.stackFloor ≤ m.stack.length := by rw [operand.keeps.stackFloor]; exact hh.floor
  have keeps : Keeps L (node id ⟨.negate, some s, false⟩ [r]).targets m m' :=
    operand.keeps.mono (targets_kid List.mem_cons_self)
  rw [Machine.step_negate operand.stack floor, operand.means.read (operand.holds.note id),
    Machine.yield_slot (by rw [operand.holds.size]; exact (hs.own rfl).2.2)]
  exact .ok ⟨_, hs.leaves rfl (operand.holds.note id) keeps floor _⟩

theorem computes_const (v : Scalar) :
    Computes L I E (node id ⟨.const v, none, false⟩ []) (node id ⟨.const v, none, false⟩ []).run.erase := by
  intro m σ hh _ hd
  have box : Means L (node id ⟨.const v, none, false⟩ []).targets m.temps.size (m.newTemp v).2
      (.temp m.temps.size) (.value ((m.newTemp v).2.read (.temp m.temps.size))) :=
    .temp (Nat.le_refl _) (by simp [Machine.newTemp])
  have value : (m.newTemp v).2.read (.temp m.temps.size) = v := by
    simp [Machine.newTemp, Machine.read]
  rw [value] at box
  exact .ok ⟨.temp m.temps.size, rfl,
    ((hh.note id).newTemp v).stack (by simpa [Machine.newTemp] using Nat.le_succ_of_le hh.floor),
    (Keeps.newTemp L _ m v).stack, box.stack⟩

theorem computes_lexical {s : Slot} {new : Bool}
    (hs : L.Suits (node id ⟨.lexical s new, none, false⟩ [])) :
    Computes L I E (node id ⟨.lexical s new, none, false⟩ [])
      (node id ⟨.lexical s new, none, false⟩ []).run.erase := by
  obtain ⟨isVar, inside⟩ := hs.lexicals s (by simp [lexicals, subtrees, subtreesAll])
  intro m σ hh _ hd
  -- with the variable in place, its reference is put on the stack
  have rest : ∀ {m' : Machine} {σ' : Store}, m'.stack = m.stack → Holds L σ' m' →
      Keeps L (node id ⟨.lexical s new, none, false⟩ []).targets m m' →
      Machine.padRef s m' = .ok (.pad s) m' ∧
        Leaves L (node id ⟨.lexical s new, none, false⟩ []).targets m (m'.push (.pad s)) σ' (.pad s)
          (.var s) := by
    intro m' σ' hst holds keeps
    refine ⟨Machine.padRef_eq (by rw [holds.size]; exact inside), ?_, holds.stack ?_, keeps.stack,
      .var isVar inside⟩
    · rw [Machine.push, hst]
    · exact Nat.le_succ_of_le holds.floor
  rw [run_plain rfl]
  simp only [runAll, act, Traced.erase_bind, Traced.erase_pure, Traced.erase_note,
    Traced.erase_lift, pure_bind]
  refine Mimics.discard ?_
  unfold Machine.step Machine.exec
  cases new with
  | false =>
    obtain ⟨slot, leaves⟩ := rest rfl (hh.note id) (.refl _ _ _)
    simp only [Machine.introduceIf, map_bind]
    rw [if_neg (by simp), pure_bind, Effect.bind_ok slot]
    exact .ok ⟨_, leaves⟩
  | true =>
    obtain ⟨m', hm', hst, holds, keeps⟩ :=
      (hh.note id).introduce isVar inside (node id ⟨.lexical s true, none, false⟩ []).targets
    obtain ⟨slot, leaves⟩ := rest hst holds keeps
    have declared : Machine.introduceIf true s m = .ok ⟨⟩ m' := by
      unfold Machine.introduceIf Machine.introduce
      rw [if_pos rfl, Effect.get_bind, hm']
      rfl
    simp only [map_bind]
    rw [Effect.bind_ok declared, Effect.bind_ok slot]
    exact .ok ⟨_, leaves⟩

/-- What is left to be shown of an op that may skip its second operand. -/
theorem computes_short {f : Face} (hf : f.kind.shape = .short)
    (hl : Computes L I E l l'.run.erase) {c : Place → Meaning Place}
    (hc : (node id f [l, r]).meaning = (do let p ← l.meaning; c p))
    (hk : ∀ m m' σ σ' a p, Leaves L l.targets m m' σ' a p → m'.stackFloor ≤ m.stack.length →
      I σ'.held m.stack → σ.done.Disjoint (node id f [l, r]).ids → l.meaning σ = .ok p σ' →
      Mimics E (fun _ m'' p' σ' => ∃ b, Leaves L (node id f [l, r]).targets m m'' σ' b p')
        ((do if ← Machine.step id f then r'.run.erase else return ()) m') (c p σ')) :
    Computes L I E (node id f [l, r]) (node id f [l', r']).run.erase := by
  intro m σ hh hi hd
  have run : (node id f [l', r']).run.erase =
      (do l'.run.erase; if ← Machine.step id f then r'.run.erase else return ()) := by
    rw [run_short hf]
    simp only [act, Traced.erase_bind, Traced.erase_note, Traced.erase_lift, bind_assoc, pure_bind]
    refine bind_congr fun _ => bind_congr fun b => ?_
    cases b <;> rfl
  rw [run, hc]
  refine (hl m σ hh hi (Layout.Suits.done_kid hd (by simp))).bind ?_
  rintro - m' p σ' hp ⟨a, left⟩
  have floor : m'.stackFloor ≤ m.stack.length := by rw [left.keeps.stackFloor]; exact hh.floor
  exact hk m m' σ σ' a p left floor (by rwa [l.retains_meaning.ok hp]) hd hp

/-- The first operand is the value of the op. -/
theorem Leaves.short {f : Face} {m m' : Machine} {σ : Store} {a : Ref} {p : Place}
    (h : Leaves L l.targets m m' σ a p) : Leaves L (node id f [l, r]).targets m m' (σ.note id) a p :=
  ⟨h.stack, h.holds.note id, h.keeps.mono (targets_kid (by simp)),
    h.means.mono (targets_kid (by simp)) (Nat.le_refl _)⟩

/-- The first operand is dropped, and another is computed in its place. -/
theorem Leaves.instead {f : Face} {ks : List HostTree} {m m' : Machine} {σ σ' : Store} {a : Ref}
    {p : Place} (h : Leaves L l.targets m m' σ' a p) (floor : m'.stackFloor ≤ m.stack.length)
    (hi : I σ'.held m.stack) (hr : Computes L I E r r'.run.erase)
    (hs : L.Suits (node id f (l :: ks))) (hd : σ.done.Disjoint (node id f (l :: ks)).ids)
    (hp : l.meaning σ = .ok p σ') (hrk : r ∈ ks) :
    Mimics E (fun _ m'' p' σ' => ∃ b, Leaves L (node id f (l :: ks)).targets m m'' σ' b p')
      (r'.run.erase { m' with stack := m.stack }) (r.meaning (σ'.note id)) := by
  have below : r ∈ l :: ks := List.mem_cons_of_mem _ hrk
  have keeps : Keeps L (node id f (l :: ks)).targets m m' := h.keeps.mono (targets_kid (by simp))
  refine (hr _ _ ((h.holds.note id).stack floor) hi (hs.done_after hd hp hrk)).mono ?_
  rintro - m'' p' σ'' ⟨b, last⟩
  exact ⟨b, last.stack, last.holds, keeps.stack.trans (last.keeps.mono (targets_kid below)),
    last.means.mono (targets_kid below) keeps.size⟩

theorem computes_and (hs : L.Suits (node id ⟨.and, none, false⟩ [l, r]))
    (hl : Computes L I E l l'.run.erase) (hr : Computes L I E r r'.run.erase) :
    Computes L I E (node id ⟨.and, none, false⟩ [l, r])
      (node id ⟨.and, none, false⟩ [l', r']).run.erase := by
  refine computes_short rfl hl rfl ?_
  intro m m' σ σ' a p left floor waiting hd hp
  have test : Machine.step id ⟨.and, none, false⟩ m' = _ := Machine.step_and left.stack floor
  rw [left.means.read (left.holds.note id)] at test
  rw [Meaning.execute_bind]
  cases hv : (p.read (σ'.note id)).isTrue with
  | true =>
    rw [hv, if_pos rfl] at test
    rw [Effect.bind_ok test, if_pos rfl, if_pos rfl]
    exact left.instead floor waiting hr hs hd hp (by simp)
  | false =>
    rw [hv, if_neg (by simp)] at test
    rw [Effect.bind_ok test, if_neg (by simp), if_neg (by simp)]
    exact .ok ⟨a, left.short⟩

theorem computes_or (hs : L.Suits (node id ⟨.or, none, false⟩ [l, r]))
    (hl : Computes L I E l l'.run.erase) (hr : Computes L I E r r'.run.erase) :
    Computes L I E (node id ⟨.or, none, false⟩ [l, r])
      (node id ⟨.or, none, false⟩ [l', r']).run.erase := by
  refine computes_short rfl hl rfl ?_
  intro m m' σ σ' a p left floor waiting hd hp
  have test : Machine.step id ⟨.or, none, false⟩ m' = _ := Machine.step_or left.stack floor
  rw [left.means.read (left.holds.note id)] at test
  rw [Meaning.execute_bind]
  cases hv : (p.read (σ'.note id)).isTrue with
  | true =>
    rw [hv, if_pos rfl] at test
    rw [Effect.bind_ok test, if_neg (by simp), if_pos rfl]
    exact .ok ⟨a, left.short⟩
  | false =>
    rw [hv, if_neg (by simp)] at test
    rw [Effect.bind_ok test, if_pos rfl, if_neg (by simp)]
    exact left.instead floor waiting hr hs hd hp (by simp)

theorem computes_cond {c y n c' y' n' : HostTree} (hs : L.Suits (node id ⟨.cond, none, false⟩ [c, y, n]))
    (hc : Computes L I E c c'.run.erase) (hy : Computes L I E y y'.run.erase)
    (hn : Computes L I E n n'.run.erase) :
    Computes L I E (node id ⟨.cond, none, false⟩ [c, y, n])
      (node id ⟨.cond, none, false⟩ [c', y', n']).run.erase := by
  intro m σ hh hi hd
  have run : (node id ⟨.cond, none, false⟩ [c', y', n']).run.erase = (do
      c'.run.erase
      if ← Machine.step id ⟨.cond, none, false⟩ then y'.run.erase else n'.run.erase) := by
    rw [run_choice rfl]
    simp only [act, Traced.erase_bind, Traced.erase_note, Traced.erase_lift, bind_assoc, pure_bind]
    refine bind_congr fun _ => bind_congr fun b => ?_
    cases b <;> rfl
  rw [run]
  refine (hc m σ hh hi (Layout.Suits.done_kid hd (by simp))).bind ?_
  rintro - m' p σ' hp ⟨a, test⟩
  have waiting : I σ'.held m.stack := by rwa [c.retains_meaning.ok hp]
  have floor : m'.stackFloor ≤ m.stack.length := by rw [test.keeps.stackFloor]; exact hh.floor
  have answer : Machine.step id ⟨.cond, none, false⟩ m' = _ := Machine.step_cond test.stack floor
  rw [test.means.read (test.holds.note id)] at answer
  rw [Effect.bind_ok answer, Meaning.execute_bind]
  cases (p.read (σ'.note id)).isTrue with
  | true =>
    rw [if_pos rfl, if_pos rfl]
    exact test.instead floor waiting hy hs hd hp (by simp)
  | false =>
    rw [if_neg (by simp), if_neg (by simp)]
    exact test.instead floor waiting hn hs hd hp (by simp)

end Ops

/-! ### Expressions -/

section Expressions

variable {L : Layout} {I : List Slot → List Ref → Prop} {E : Store → Machine → Prop} {scope : Scope}
  {c : Context} {t : Term} (hI : Accounts L I)
  (hE : ∀ σ m, Agrees L σ m → I σ.held m.stack → E σ m)

include hI hE

/-- **An op of the program computes what it means**, if what is in the places of its kids computes
what they mean.

There is one lemma for each kind of op, which follows the op through its operands.  What has been
left on the stack by one operand is still there after the next. -/
theorem Mirrors.computes_node {id : OpId} {f : Face} {ks ks' : List HostTree}
    (h : Mirrors scope c t (node id f ks)) (hs : L.Suits (node id f ks))
    (hk : List.Forall₂ (fun k k' => Computes L I E k k'.run.erase) ks ks') :
    Computes L I E (node id f ks) (node id f ks').run.erase := by
  cases h with
  | constant k =>
    cases hk
    exact computes_const _
  | lexical =>
    cases hk
    exact computes_lexical hs
  | declaration =>
    cases hk
    exact computes_lexical hs
  | negation s =>
    rcases hk with _ | ⟨hr, ⟨⟩⟩
    exact computes_negation hs hr
  | binary hf =>
    rcases hk with _ | ⟨hl, _ | ⟨hr, ⟨⟩⟩⟩
    cases hf with
    | plain s => exact computes_arith hI hE hs hl hr
    | assigning => exact computes_assigning hI hE hs hl hr
    | assign => exact computes_assign hI hs hl hr
    | and => exact computes_and hs hl hr
    | or => exact computes_or hs hl hr
  | ternary =>
    rcases hk with _ | ⟨hc, _ | ⟨hy, _ | ⟨hn, ⟨⟩⟩⟩⟩
    exact computes_cond hs hc hy hn

/-- **Interpretation computes what an expression means.**

By induction over the tree; an op whose kids compute what they mean computes what it means. -/
theorem Mirrors.computes {T : HostTree} (h : Mirrors scope c t T) (hs : L.Suits T) :
    Computes L I E T T.run.erase := by
  induction T using induction generalizing c t with
  | step id f ks ih =>
    refine h.computes_node hI hE hs ?_
    rw [List.forall₂_same]
    intro k hk
    obtain ⟨u, -, hu⟩ := h.kid hk
    exact ih k hk hu (hs.kid hk)

end Expressions

/-- All variables that wait are on the stack. -/
def OnStack (held : List Slot) (st : List Ref) : Prop := ∀ s ∈ held, .pad s ∈ st

theorem OnStack.accounts (L : Layout) : Accounts L OnStack where
  nil := by simp [OnStack]
  push hp h s hs := by
    cases hp with
    | var =>
      rcases List.mem_cons.mp hs with rfl | hs
      · exact List.mem_cons_self
      · exact List.mem_cons_of_mem _ (h s hs)
    | slot => exact List.mem_cons_of_mem _ (h s hs)
    | temp => exact List.mem_cons_of_mem _ (h s hs)

/-! ### What an expression yields, and where it halts -/

namespace Term

/-- The op that the term was read from. -/
def op? (t : Term) : Option OpId := t.origin.map Origin.root

/-- What was executed last is one of the ops of the term. -/
def Halts (trace : List OpId) (t : Term) : Prop :=
  ∃ u ∈ t.preorder, ∃ x, u.op? = some x ∧ trace.getLast? = some x

/-- **The term can yield the variable in the slot**: it is the variable, it assigns to what can be
the variable, or it yields an operand that can. -/
inductive CanBe (scope : Scope) : Term → Slot → Prop where
  | lexical {a : Attributes} {d : DeclId} {v : Declaration} :
      scope.get? d = some v → CanBe scope (.leaf a (.lexical d)) v.slot
  | declaration {a : Attributes} {d : DeclId} {v : Declaration} :
      scope.get? d = some v → CanBe scope (.leaf a (.declaration d)) v.slot
  | assigned {a : Attributes} {c : Operator} {b : Bool} {l r : Term} {s : Slot} :
      c = .assign ∨ b = true → CanBe scope l s → CanBe scope (.op a c b [l, r]) s
  | left {a : Attributes} {c : Operator} {b : Bool} {l r : Term} {s : Slot} :
      c = .boolAnd ∨ c = .boolOr → CanBe scope l s → CanBe scope (.op a c b [l, r]) s
  | right {a : Attributes} {c : Operator} {b : Bool} {l r : Term} {s : Slot} :
      c = .boolAnd ∨ c = .boolOr → CanBe scope r s → CanBe scope (.op a c b [l, r]) s
  | yes {a : Attributes} {b : Bool} {t y n : Term} {s : Slot} :
      CanBe scope y s → CanBe scope (.op a .ternary b [t, y, n]) s
  | no {a : Attributes} {b : Bool} {t y n : Term} {s : Slot} :
      CanBe scope n s → CanBe scope (.op a .ternary b [t, y, n]) s

end Term

theorem Place.eq_var_of_write {p : Place} {v : Scalar} {σ σ' : Store} {s : Slot}
    (h : p.write v σ = .ok (.var s) σ') : p = .var s := by
  cases p with
  | var t =>
    have h : EStateM.Result.ok (Place.var t) (σ.set t v) = .ok (.var s) σ' := h
    cases h
    rfl
  | value w => cases h

namespace HostTree

/-- What was executed last is one of the ops of the tree. -/
def Halts (trace : List OpId) (T : HostTree) : Prop := ∃ x ∈ T.ids, trace.getLast? = some x

theorem halts_of_error {T : HostTree} {σ σ' : Store} {e : Halt} (h : T.meaning σ = .error e σ') :
    T.Halts σ'.done :=
  (halts_within h (List.disjoint_nil_right _) (List.disjoint_nil_right _)).2

/-- The variable is what the tree means on some store. -/
def CanBe (T : HostTree) (s : Slot) : Prop := ∃ σ σ', T.meaning σ = .ok (.var s) σ'

end HostTree

namespace Mirrors

variable {scope : Scope} {c : Context} {t u : Term} {T : HostTree} {s : Slot}

theorem op?_eq (h : Mirrors scope c t T) : t.op? = some T.root := by
  rw [Term.op?, h.origin]
  rfl

/-- Every term of an expression was read from an op in it. -/
theorem subterm (h : Mirrors scope c t T) (hu : u ∈ t.preorder) :
    ∃ K ∈ T.subtrees, ∃ c, Mirrors scope c u K := by
  induction t using Term.induction generalizing c T with
  | step t ih =>
    rw [Term.preorder_eq t, List.mem_cons, Term.mem_preorders] at hu
    rcases hu with rfl | ⟨k, hk, hu⟩
    · exact ⟨T, mem_subtrees_self T, c, h⟩
    · obtain ⟨k', hk', hm⟩ := h.part hk
      obtain ⟨K, hK, hm⟩ := ih k hk hm hu
      exact ⟨K, subtrees_trans hK (subtrees_of_kid hk'), hm⟩

theorem halts {trace : List OpId} (h : Mirrors scope c t T) (ht : t.Halts trace) : T.Halts trace := by
  obtain ⟨u, hu, x, hx, last⟩ := ht
  obtain ⟨K, hK, _, hm⟩ := h.subterm hu
  cases hx.symm.trans hm.op?_eq
  exact ⟨K.root, mem_ids.mpr ⟨K, hK, rfl⟩, last⟩

/-- **What an expression yields, its term can yield.** -/
theorem canBe (h : Mirrors scope c t T) (hT : T.CanBe s) : t.CanBe scope s := by
  obtain ⟨σ, σ', hT⟩ := hT
  induction h generalizing σ σ' with
  | constant k => cases hT
  | lexical hd =>
    cases hT
    exact .lexical hd
  | declaration hd =>
    cases hT
    exact .declaration hd
  | negation =>
    obtain ⟨p, σ₁, -, hT⟩ := Effect.bind_eq_ok.mp hT
    cases hT
  | binary hf _ _ ihl ihr =>
    cases hf with
    | plain =>
      obtain ⟨p, σ₁, -, hT⟩ := Effect.bind_eq_ok.mp hT
      obtain ⟨q, σ₂, -, hT⟩ := Effect.bind_eq_ok.mp hT
      rw [Meaning.execute_bind] at hT
      obtain ⟨x, σ₃, -, hT⟩ := Effect.bind_eq_ok.mp hT
      cases hT
    | assigning =>
      obtain ⟨p, σ₁, hp, hT⟩ := Effect.bind_eq_ok.mp hT
      obtain ⟨q, σ₂, -, hT⟩ := Effect.bind_eq_ok.mp hT
      rw [Meaning.execute_bind] at hT
      obtain ⟨x, σ₃, -, hT⟩ := Effect.bind_eq_ok.mp hT
      obtain rfl := Place.eq_var_of_write hT
      exact .assigned (.inr rfl) (ihl _ _ hp)
    | assign =>
      obtain ⟨p, σ₁, hp, hT⟩ := Effect.bind_eq_ok.mp hT
      obtain ⟨q, σ₂, -, hT⟩ := Effect.bind_eq_ok.mp hT
      obtain rfl := Place.eq_var_of_write hT
      exact .assigned (.inl rfl) (ihl _ _ hp)
    | and =>
      obtain ⟨p, σ₁, hp, hT⟩ := Effect.bind_eq_ok.mp hT
      obtain ⟨_, σ₂, -, hT⟩ := Effect.bind_eq_ok.mp hT
      split at hT
      · exact .right (.inl rfl) (ihr _ _ hT)
      · cases hT
        exact .left (.inl rfl) (ihl _ _ hp)
    | or =>
      obtain ⟨p, σ₁, hp, hT⟩ := Effect.bind_eq_ok.mp hT
      obtain ⟨_, σ₂, -, hT⟩ := Effect.bind_eq_ok.mp hT
      split at hT
      · cases hT
        exact .left (.inr rfl) (ihl _ _ hp)
      · exact .right (.inr rfl) (ihr _ _ hT)
  | ternary _ _ _ _ ihy ihn =>
    obtain ⟨p, σ₁, -, hT⟩ := Effect.bind_eq_ok.mp hT
    obtain ⟨_, σ₂, -, hT⟩ := Effect.bind_eq_ok.mp hT
    split at hT
    · exact .yes (ihy _ _ hT)
    · exact .no (ihn _ _ hT)

end Mirrors

end Graft
