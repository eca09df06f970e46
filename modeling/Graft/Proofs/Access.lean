import Graft.Graph.Splice
import Mathlib.Data.List.Nodup
import Mathlib.Data.List.Perm.Subperm

/-! # Access to ops

Graphs, machines, drafts and compilers are changed by computations that keep their state
when they fail.  This module has what every proof about them starts with: how such
computations are taken apart, and what the ops of a graph are after an op was changed.

A sequence of two steps ends well if both do (`Effect.bind_eq_ok`), and by that equation a
computation is peeled off step by step, without unfolding the monad.  What holds of the state
throughout, also where a computation fails half-way, is `Effect.Maintains`: each operation of a
graph is shown to maintain something once, and the loops that are made of it follow.
-/

namespace Graft

/-! ### Computations with a state -/

namespace Effect

variable {ε σ α β : Type} {x : EStateM ε σ α} {f : α → EStateM ε σ β} {s s' : σ}

theorem bind_ok {a : α} (h : x s = .ok a s') : (x >>= f) s = f a s' := by
  show EStateM.bind x f s = f a s'
  rw [EStateM.bind, h]

theorem bind_error {e : ε} (h : x s = .error e s') : (x >>= f) s = .error e s' := by
  show EStateM.bind x f s = .error e s'
  rw [EStateM.bind, h]

/-- A sequence of two steps ends well if both do. -/
theorem bind_eq_ok {b : β} {t : σ} :
    (x >>= f) s = .ok b t ↔ ∃ a s', x s = .ok a s' ∧ f a s' = .ok b t := by
  constructor
  · intro h
    cases hx : x s with
    | ok a s' => exact ⟨a, s', rfl, by rw [← h, bind_ok hx]⟩
    | error e s' => rw [bind_error hx] at h; cases h
  · rintro ⟨a, s', hx, hf⟩
    rw [bind_ok hx, hf]

theorem get_bind {f : σ → EStateM ε σ β} : (get >>= f) s = f s s := rfl

theorem modify_bind {h : σ → σ} {f : PUnit → EStateM ε σ β} : (modify h >>= f) s = f ⟨⟩ (h s) := rfl

theorem map_ok {h : α → β} {a : α} (hx : x s = .ok a s') : (h <$> x) s = .ok (h a) s' := by
  show EStateM.map h x s = .ok (h a) s'
  rw [EStateM.map, hx]

theorem map_error {h : α → β} {e : ε} (hx : x s = .error e s') : (h <$> x) s = .error e s' := by
  show EStateM.map h x s = .error e s'
  rw [EStateM.map, hx]

theorem map_eq_ok {h : α → β} {b : β} {t : σ} :
    (h <$> x) s = .ok b t ↔ ∃ a, x s = .ok a t ∧ h a = b := by
  constructor
  · intro hx
    change EStateM.map h x s = .ok b t at hx
    rw [EStateM.map] at hx
    cases hs : x s with
    | ok a s' => rw [hs] at hx; cases hx; exact ⟨a, rfl, rfl⟩
    | error e s' => rw [hs] at hx; cases hx
  · rintro ⟨a, hx, rfl⟩
    exact map_ok hx

/-! With its failures renamed, a computation is still taken apart in the same way. -/

section Adapt

variable {ε' : Type} (rename : ε → ε')

theorem adapt_bind (x : EStateM ε σ α) (f : α → EStateM ε σ β) :
    (x >>= f).adaptExcept rename = x.adaptExcept rename >>= fun a => (f a).adaptExcept rename := by
  funext s
  simp only [EStateM.adaptExcept, bind, EStateM.bind]
  cases x s <;> rfl

theorem adapt_map (f : α → β) (x : EStateM ε σ α) :
    (f <$> x).adaptExcept rename = f <$> x.adaptExcept rename := by
  rw [map_eq_pure_bind, adapt_bind, map_eq_pure_bind]
  rfl

theorem adapt_mapM (f : α → EStateM ε σ β) (l : List α) :
    (l.mapM f).adaptExcept rename = l.mapM fun a => (f a).adaptExcept rename := by
  induction l with
  | nil => rfl
  | cons a l ih =>
    simp only [List.mapM_cons, adapt_bind, ih]
    rfl

end Adapt

/-- The state that a computation leaves, whether it fails or not. -/
def stateOf : EStateM.Result ε σ α → σ
  | .ok _ s => s
  | .error _ s => s

/-- What a computation answers, or why it does not. -/
def outcomeOf : EStateM.Result ε σ α → Except ε α
  | .ok a _ => .ok a
  | .error e _ => .error e

/-- **The computation maintains `P`**, also where it fails half-way. -/
def Maintains (P : σ → Prop) (x : EStateM ε σ α) : Prop := ∀ s, P s → P (stateOf (x s))

namespace Maintains

variable {P : σ → Prop}

theorem pure (a : α) : Maintains P (Pure.pure a : EStateM ε σ α) := fun _ h => h

theorem throw (e : ε) : Maintains P (MonadExcept.throw e : EStateM ε σ α) := fun _ h => h

theorem get : Maintains P (MonadState.get : EStateM ε σ σ) := fun _ h => h

theorem modify {f : σ → σ} (h : ∀ s, P s → P (f s)) :
    Maintains P (modify f : EStateM ε σ PUnit) := h

theorem bind (hx : Maintains P x) (hf : ∀ a, Maintains P (f a)) : Maintains P (x >>= f) := by
  intro s hs
  have first := hx s hs
  cases h : x s with
  | ok a s' =>
    rw [h] at first
    rw [bind_ok h]
    exact hf a s' first
  | error e s' =>
    rw [h] at first
    rw [bind_error h]
    exact first

theorem map (g : α → β) (hx : Maintains P x) : Maintains P (g <$> x) := by
  rw [← bind_pure_comp]
  exact hx.bind fun a => .pure (g a)

theorem forM {k : α → EStateM ε σ PUnit} (h : ∀ a, Maintains P (k a)) (l : List α) :
    Maintains P (l.forM k) := by
  induction l with
  | nil => exact .pure _
  | cons a l ih => exact .bind (h a) fun _ => ih

theorem mapM {l : List α} (h : ∀ a ∈ l, Maintains P (f a)) : Maintains P (l.mapM f) := by
  induction l with
  | nil => exact .pure _
  | cons a l ih =>
    obtain ⟨ha, hl⟩ := List.forall_mem_cons.mp h
    rw [List.mapM_cons]
    exact .bind ha fun _ => .bind (ih hl) fun _ => .pure _

theorem foldrM {k : α → β → EStateM ε σ β} (h : ∀ a b, Maintains P (k a b)) (l : List α) (b : β) :
    Maintains P (l.foldrM k b) := by
  induction l with
  | nil => exact .pure b
  | cons a l ih =>
    rw [List.foldrM_cons]
    exact .bind ih fun c => h a c

end Maintains

end Effect

namespace Graph

variable {g : Graph} {id : OpId} {op : Op}

/-! ### One op is changed -/

theorem lt_size_of_op? (h : g.op? id = some op) : id.index < g.size :=
  (Array.getElem?_eq_some_iff.mp h).choose

theorem exists_op? (h : id.index < g.size) : ∃ op, g.op? id = some op :=
  ⟨_, Array.getElem?_eq_getElem h⟩

theorem op?_eq_none_iff : g.op? id = none ↔ g.size ≤ id.index := Array.getElem?_eq_none_iff

@[simp]
theorem size_update (id : OpId) (f : Op → Op) : (g.update id f).size = g.size := by
  simp [size, update]

theorem op?_update (id id' : OpId) (f : Op → Op) :
    (g.update id f).op? id' = if id' = id then (g.op? id').map f else g.op? id' := by
  unfold op? update
  rw [Array.getElem?_modify]
  by_cases h : id' = id
  · rw [if_pos (by rw [h]), if_pos h]
  · rw [if_neg (fun he => h (by cases id; cases id'; simp_all)), if_neg h]

theorem op?_update_self {f : Op → Op} (h : g.op? id = some op) :
    (g.update id f).op? id = some (f op) := by
  rw [op?_update, if_pos rfl, h, Option.map_some]

theorem op?_update_of_ne {id' : OpId} {f : Op → Op} (h : id' ≠ id) :
    (g.update id f).op? id' = g.op? id' := by
  rw [op?_update, if_neg h]

/-- `b` is listed as a kid of `a`. -/
def Kid (g : Graph) (a b : OpId) : Prop := ∃ op, g.op? a = some op ∧ b ∈ op.kids

/-- There are no more names than positions. -/
theorem length_le_of_nodup {xs : List OpId} {n : Nat} (hn : xs.Nodup) (h : ∀ x ∈ xs, x.index < n) :
    xs.length ≤ n := by
  have inj : (xs.map OpId.index).Nodup :=
    List.Nodup.map (fun a b hab => by cases a; cases b; exact congrArg OpId.mk hab) hn
  have sub : xs.map OpId.index ⊆ List.range n := by
    intro i hi
    obtain ⟨x, hx, rfl⟩ := List.mem_map.mp hi
    exact List.mem_range.mpr (h x hx)
  simpa using (inj.subperm sub).length_le

theorem find_of_some (h : g.op? id = some op) : find id g = .ok op g := by
  unfold find
  rw [Effect.get_bind, h]
  rfl

theorem find_of_none (h : g.op? id = none) : find id g = .error (.unknownOp id) g := by
  unfold find
  rw [Effect.get_bind, h]
  rfl

theorem find_eq_ok {g' : Graph} : find id g = .ok op g' ↔ g.op? id = some op ∧ g' = g := by
  constructor
  · intro h
    cases ho : g.op? id with
    | some o => rw [find_of_some ho] at h; cases h; exact ⟨rfl, rfl⟩
    | none => rw [find_of_none ho] at h; cases h
  · rintro ⟨h, rfl⟩
    exact find_of_some h

theorem change_of_some {f : Op → Op} (h : g.op? id = some op) :
    change id f g = .ok () (g.update id f) := by
  have found : (discard (find id) : GraphM Unit) g = .ok () g := Effect.map_ok (find_of_some h)
  unfold change
  rw [Effect.bind_ok found]
  rfl

theorem change_of_none {f : Op → Op} (h : g.op? id = none) :
    change id f g = .error (.unknownOp id) g := by
  have missing : (discard (find id) : GraphM Unit) g = .error (.unknownOp id) g :=
    Effect.map_error (find_of_none h)
  unfold change
  rw [Effect.bind_error missing]

theorem change_eq_ok {f : Op → Op} {g' : Graph} :
    change id f g = .ok () g' ↔ (∃ op, g.op? id = some op) ∧ g' = g.update id f := by
  constructor
  · intro h
    unfold change at h
    obtain ⟨_, s, hf, hm⟩ := Effect.bind_eq_ok.mp h
    obtain ⟨op, hf, -⟩ := Effect.map_eq_ok.mp hf
    obtain ⟨ho, rfl⟩ := find_eq_ok.mp hf
    cases hm
    exact ⟨⟨op, ho⟩, rfl⟩
  · rintro ⟨⟨op, h⟩, rfl⟩
    exact change_of_some h

end Graph

end Graft
