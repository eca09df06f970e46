import Graft.Proofs.Footprints
import Graft.Proofs.Interpretation
import Graft.Proofs.Linking

/-! # The stack is balanced

An operand leaves its value on the stack, and an op finds its operands there.  For a tree
of ops in which every op has as many kids as it takes operands (`HostTree.IsExpression`)
this comes out even: whatever path control takes through its conditionals, the tree adds
one entry and touches none below (`HostTree.IsExpression.balanced`).

What one op does to the stack is said once for each way in which ops are executed
(`Machine.exec_plain`, `exec_short`, `exec_choice`), and a tree is followed step by step
from its start to where it leads, always at ops of the tree (`Machine.Config.Reaches`).
So no op of a program that is made of such trees finds too few operands.

`Reaches` says three things at once, because the induction over the tree needs all of them: the
steps come to the op that the tree leads to, or to a halt that is not for want of operands; all
steps on the way are at ops of the tree; and the machine that is left satisfies a condition on the
stack.  Such runs are put together one after the other, with the condition of the first as what the
second starts from, and the kids of an op are a row of them (`LinkedRow.reaches`).  At a choice only
one branch is followed, and both leave the same number of entries; after `and` and `or` the left
operand is there or the right one in its place.

The entries below are compared as a list, not counted, so it is also shown that no op changes what
an operand before it has left.  That the loop comes to an end follows from the tree: its steps are
bounded by the ops in it.
-/

namespace Graft

open HostTree

/-- How many operands an op of an expression takes; the ops of statements are none. -/
def OpKind.arity? : OpKind → Option Nat
  | const _ | lexical _ _ => some 0
  | negate => some 1
  | arith _ | assign | and | or => some 2
  | cond => some 3
  | _ => none

namespace HostTree

/-- Every op of the tree has as many kids as it takes operands. -/
def IsExpression (t : HostTree) : Prop :=
  ∀ s ∈ t.subtrees, s.face.kind.arity? = some s.kids.length

/-- Expressions, alone or in lists of statements, with or without marks between them. -/
inductive IsProgram : HostTree → Prop
  | expression {t : HostTree} : t.IsExpression → IsProgram t
  | mark {id : OpId} {f : Face} : f.kind = .mark → IsProgram (node id f [])
  | statements {id : OpId} {f : Face} {ks : List HostTree} : f.kind = .statements →
      (∀ k ∈ ks, IsProgram k) → IsProgram (node id f ks)

instance (t : HostTree) : Decidable t.IsExpression :=
  inferInstanceAs (Decidable (∀ s ∈ t.subtrees, s.face.kind.arity? = some s.kids.length))

theorem isExpression_node {id : OpId} {f : Face} {ks : List HostTree} :
    (node id f ks).IsExpression ↔
      f.kind.arity? = some ks.length ∧ ∀ k ∈ ks, k.IsExpression := by
  constructor
  · intro h
    exact ⟨h _ (mem_subtrees_self _), fun k hk s hs =>
      h s (subtrees_trans hs (subtrees_of_kid (t := node id f ks) hk))⟩
  · rintro ⟨here, below⟩ s hs
    rcases mem_subtrees_iff.mp hs with rfl | ⟨k, hk, hs⟩
    · exact here
    · exact below k hk s hs

end HostTree

namespace Machine

/-! ### What an op does to the stack -/

/-- A computation comes to `Q`, or it halts, but not for want of operands. -/
def Safe {α : Type} (Q : α → Machine → Prop) : EStateM.Result Halt Machine α → Prop
  | .ok a m => Q a m
  | .error h _ => ∀ id, h ≠ .fault (.stackUnderflow id)

/-- The machine has this stack and this floor. -/
structure HasStack (S : List Ref) (floor : Nat) (m : Machine) : Prop where
  stack : m.stack = S
  floor : m.stackFloor = floor

section Ops

variable {α β : Type} {P : α → Machine → Prop} {Q : β → Machine → Prop} {m : Machine} {id : OpId}
  {op : Op} {S : List Ref} {n : Nat} {r : Ref}

theorem Safe.bind {x : MachineM α} {k : α → MachineM β} (hx : Safe P (x m))
    (hk : ∀ a m', P a m' → Safe Q (k a m')) : Safe Q ((x >>= k) m) := by
  cases hxm : x m with
  | ok a m' =>
    rw [hxm] at hx
    rw [Effect.bind_ok hxm]
    exact hk a m' hx
  | error h m' =>
    rw [hxm] at hx
    rw [Effect.bind_error hxm]
    exact hx

theorem HasStack.write (h : HasStack S n m) (r : Ref) (v : Scalar) : HasStack S n (m.write r v) :=
  ⟨stack_write.trans h.stack, floors_write.1.trans h.floor⟩

theorem HasStack.copy (h : HasStack S n m) (r s : Ref) : HasStack S n (m.copy r s) := by
  unfold Machine.copy
  split
  · exact h
  · exact h.write r _

theorem HasStack.push (h : HasStack S n m) (r : Ref) : HasStack (r :: S) n (m.push r) :=
  ⟨congrArg (r :: ·) h.stack, h.floor⟩

theorem safe_pop (h : HasStack (r :: S) n m) (hn : n ≤ S.length) :
    Safe (fun _ m' => HasStack S n m') (pop id m) := by
  rw [pop_eq h.stack (h.floor ▸ hn)]
  exact ⟨rfl, h.floor⟩

theorem safe_padRef (h : HasStack S n m) (slot : Slot) :
    Safe (fun _ m' => HasStack S n m') (padRef slot m) := by
  unfold padRef
  rw [Effect.get_bind]
  cases m.padRef? slot with
  | some r => exact h
  | none => exact fun id hid => by cases hid

theorem safe_introduceIf (h : HasStack S n m) (new : Bool) (slot : Slot) :
    Safe (fun _ m' => HasStack S n m') (introduceIf new slot m) := by
  unfold introduceIf
  split
  · unfold introduce
    rw [Effect.get_bind]
    unfold introduce?
    cases m.padValue? slot with
    | some v => exact ⟨(h.write _ _).stack, (h.write _ _).floor⟩
    | none => exact fun id hid => by cases hid
  · exact h

theorem safe_target (h : HasStack S n m) (slot : Option Slot) :
    Safe (fun _ m' => HasStack S n m') (target slot m) := by
  cases slot with
  | some slot => exact safe_padRef h slot
  | none => exact ⟨h.stack, h.floor⟩

theorem safe_targetOf (h : HasStack S n m) (left : Ref) :
    Safe (fun _ m' => HasStack S n m') (targetOf op left m) := by
  unfold targetOf
  split
  · exact h
  · exact safe_target h op.targ

theorem safe_calculate (h : HasStack S n m) (a : Arithmetic) (x y : Float) :
    Safe (fun _ m' => HasStack S n m') (calculate a x y m) := by
  unfold calculate
  cases a.apply x y with
  | ok z => exact h
  | error e => cases e <;> exact fun id hid => by cases hid

theorem safe_yield (h : HasStack S n m) (dst : Ref) (x : Float) :
    Safe (fun _ m' => HasStack (dst :: S) n m') (yield dst x m) :=
  (h.write dst (.num x)).push dst

/-- **An op that comes after its operands** takes them off the stack and leaves one entry. -/
theorem exec_plain {rs : List Ref} (hs : op.kind.shape = .plain)
    (ha : op.kind.arity? = some rs.length) (h : HasStack (rs ++ S) n m) (hn : n ≤ S.length) :
    Safe (fun succ m' => succ = op.next ∧ ∃ r, HasStack (r :: S) n m') (exec id op m) := by
  unfold exec
  cases hk : op.kind <;> rw [hk] at hs ha <;> dsimp only
  case const v =>
    obtain rfl := List.length_eq_zero_iff.mp (Option.some.inj ha).symm
    have fresh : HasStack S n (m.newTemp v).2 := ⟨h.stack, h.floor⟩
    exact ⟨rfl, _, fresh.push _⟩
  case lexical slot new =>
    obtain rfl := List.length_eq_zero_iff.mp (Option.some.inj ha).symm
    refine (safe_introduceIf h new slot).bind fun _ m₁ h₁ => ?_
    refine (safe_padRef h₁ slot).bind fun r m₂ h₂ => ?_
    exact ⟨rfl, r, h₂.push r⟩
  case arith a =>
    obtain ⟨r, l, rfl⟩ := List.length_eq_two.mp (Option.some.inj ha).symm
    refine (safe_pop h (by simp; omega)).bind fun right m₁ h₁ => ?_
    refine (safe_pop h₁ hn).bind fun left m₂ h₂ => ?_
    rw [Effect.get_bind]
    refine (safe_calculate h₂ a _ _).bind fun x m₃ h₃ => ?_
    refine (safe_targetOf h₃ left).bind fun dst m₄ h₄ => ?_
    refine (safe_yield h₄ dst x).bind fun _ m₅ h₅ => ?_
    exact ⟨rfl, dst, h₅⟩
  case negate =>
    obtain ⟨r, rfl⟩ := List.length_eq_one_iff.mp (Option.some.inj ha).symm
    refine (safe_pop h hn).bind fun box m₁ h₁ => ?_
    rw [Effect.get_bind]
    refine (safe_target h₁ op.targ).bind fun dst m₂ h₂ => ?_
    refine (safe_yield h₂ dst _).bind fun _ m₃ h₃ => ?_
    exact ⟨rfl, dst, h₃⟩
  case assign =>
    obtain ⟨r, l, rfl⟩ := List.length_eq_two.mp (Option.some.inj ha).symm
    refine (safe_pop h (by simp; omega)).bind fun source m₁ h₁ => ?_
    refine (safe_pop h₁ hn).bind fun dst m₂ h₂ => ?_
    exact ⟨rfl, dst, (h₂.copy dst source).push dst⟩
  all_goals simp [OpKind.shape, OpKind.arity?] at hs ha

/-- **An op that decides whether its right operand counts**: its left one stays, or is taken
off to make room for the right one. -/
theorem exec_short (hs : op.kind.shape = .short) (h : HasStack (r :: S) n m) (hn : n ≤ S.length) :
    Safe (fun succ m' => succ = op.next ∧ HasStack (r :: S) n m' ∨ succ = op.other ∧ HasStack S n m')
      (exec id op m) := by
  have peeked : peek id m = .ok r m := peek_eq h.stack (h.floor ▸ hn)
  have popped : discard (pop id) m = .ok ⟨⟩ { m with stack := S } :=
    discard_pop_eq h.stack (h.floor ▸ hn)
  unfold exec
  cases hk : op.kind <;> rw [hk] at hs <;> dsimp only
  case and =>
    rw [Effect.bind_ok peeked, Effect.get_bind]
    split
    · rw [Effect.bind_ok popped]
      exact .inr ⟨rfl, rfl, h.floor⟩
    · exact .inl ⟨rfl, h⟩
  case or =>
    rw [Effect.bind_ok peeked, Effect.get_bind]
    split
    · exact .inl ⟨rfl, h⟩
    · rw [Effect.bind_ok popped]
      exact .inr ⟨rfl, rfl, h.floor⟩
  all_goals simp [OpKind.shape] at hs

/-- **An op that chooses a branch** takes its condition off the stack. -/
theorem exec_choice (hs : op.kind.shape = .choice) (h : HasStack (r :: S) n m) (hn : n ≤ S.length) :
    Safe (fun succ m' => (succ = op.next ∨ succ = op.other) ∧ HasStack S n m') (exec id op m) := by
  unfold exec
  cases hk : op.kind <;> rw [hk] at hs <;> dsimp only
  case cond =>
    refine (safe_pop h hn).bind fun box m₁ h₁ => ?_
    rw [Effect.get_bind]
    refine ⟨?_, h₁⟩
    split
    · exact .inr rfl
    · exact .inl rfl
  all_goals simp [OpKind.shape] at hs

end Ops

/-! ### From the start of a tree to its end -/

namespace Config

/-- Steps that are all taken at one of the ops `ids`. -/
def Within (g : Graph) (ids : List OpId) : Config → Config → Prop :=
  Relation.ReflTransGen fun c c' =>
    (∃ id ∈ ids, c.phase = .loop (some id)) ∧ ∃ a, next g c = some (a, c')

/-- Control has come to `cont` with a machine that satisfies `Q`, or there was a fault, which
is not that operands were missing, or an overflow. -/
inductive Reached (cont : Option OpId) (ws : List Waiting) (Q : Machine → Prop) : Config → Prop
  | on {m : Machine} : m.fault = none → Q m → Reached cont ws Q ⟨m, .loop cont, ws⟩
  | faulted {m : Machine} {f : Fault} : m.fault = some f → (∀ id, f ≠ .stackUnderflow id) →
      Reached cont ws Q ⟨m, .loop none, ws⟩
  | overflowed {m : Machine} : Reached cont ws Q ⟨m, .halted .overflow, ws⟩

/-- **Steps at the ops `ids` come from `c` to `cont`**, with a machine that satisfies `Q`, unless
one of them halts. -/
def Reaches (g : Graph) (ids : List OpId) (c : Config) (cont : Option OpId) (ws : List Waiting)
    (Q : Machine → Prop) : Prop := ∃ c', Within g ids c c' ∧ Reached cont ws Q c'

section Reaches

variable {g : Graph} {ids ids' : List OpId} {c : Config} {cont cont' : Option OpId}
  {ws : List Waiting} {P Q : Machine → Prop} {m : Machine} {id : OpId} {op : Op}

theorem Within.mono {c c' : Config} (h : Within g ids c c') (hi : ids ⊆ ids') : Within g ids' c c' :=
  Relation.ReflTransGen.mono (fun _ _ hs => ⟨hs.1.imp fun _ hid => ⟨hi hid.1, hid.2⟩, hs.2⟩) _ _ h

namespace Reaches

theorem refl (hf : m.fault = none) (hQ : Q m) : Reaches g ids ⟨m, .loop cont, ws⟩ cont ws Q :=
  ⟨_, .refl, .on hf hQ⟩

theorem widen (h : Reaches g ids c cont ws Q) (hi : ids ⊆ ids') : Reaches g ids' c cont ws Q := by
  obtain ⟨c', steps, reached⟩ := h
  exact ⟨c', steps.mono hi, reached⟩

theorem imp (h : Reaches g ids c cont ws P) (hPQ : ∀ m, P m → Q m) :
    Reaches g ids c cont ws Q := by
  obtain ⟨c', steps, reached⟩ := h
  refine ⟨c', steps, ?_⟩
  cases reached with
  | on hf hP => exact .on hf (hPQ _ hP)
  | faulted hf hu => exact .faulted hf hu
  | overflowed => exact .overflowed

/-- One stretch after the other. -/
theorem trans (h : Reaches g ids c cont ws P)
    (h' : ∀ m, m.fault = none → P m → Reaches g ids ⟨m, .loop cont, ws⟩ cont' ws Q) :
    Reaches g ids c cont' ws Q := by
  obtain ⟨c', steps, reached⟩ := h
  cases reached with
  | on hf hP =>
    obtain ⟨c'', steps', reached⟩ := h' _ hf hP
    exact ⟨c'', Relation.ReflTransGen.trans steps steps', reached⟩
  | faulted hf hu => exact ⟨_, steps, .faulted hf hu⟩
  | overflowed => exact ⟨_, steps, .overflowed⟩

/-- **One op is interpreted.** -/
theorem exec {A : Option OpId → Machine → Prop} (hid : id ∈ ids) (ho : g.op? id = some op)
    (hk : op.kind.unit? = none) (hf : m.fault = none) (hsafe : Safe A (Machine.exec id op m))
    (h : ∀ succ m', m'.fault = none → A succ m' →
      Reaches g ids ⟨m', .loop succ, ws⟩ cont ws Q) :
    Reaches g ids ⟨m, .loop (some id), ws⟩ cont ws Q := by
  have steady := steady_exec id op m hf
  have step : Step g ⟨m, .loop (some id), ws⟩ (.interpret id op)
      (settled ws (Machine.exec id op m)) := .interpret hf ho hk
  have first : Within g ids ⟨m, .loop (some id), ws⟩ (settled ws (Machine.exec id op m)) :=
    .single ⟨⟨id, hid, rfl⟩, _, step.next_eq⟩
  cases he : Machine.exec id op m with
  | ok succ m' =>
    rw [he] at steady hsafe first
    obtain ⟨c', steps, reached⟩ := h succ m' steady hsafe
    exact ⟨c', Relation.ReflTransGen.trans first steps, reached⟩
  | error e m' =>
    rw [he] at steady hsafe first
    cases e with
    | fault f =>
      exact ⟨_, first, .faulted (steady.2 f rfl) fun id hu => hsafe id (congrArg Halt.fault hu)⟩
    | overflow => exact ⟨_, first, .overflowed⟩
    | outOfFuel => exact absurd rfl steady.1

end Reaches

end Reaches

end Config

/-- So many entries have been added to the stack, and nothing below them has changed. -/
def Adds (k : Nat) (m m' : Machine) : Prop :=
  ∃ rs : List Ref, rs.length = k ∧ HasStack (rs ++ m.stack) m.stackFloor m'

theorem Adds.zero (m : Machine) : Adds 0 m m := ⟨[], rfl, rfl, rfl⟩

theorem Adds.trans {j k : Nat} {m m' m'' : Machine} (h : Adds j m m') (h' : Adds k m' m'') :
    Adds (j + k) m m'' := by
  obtain ⟨rs, rfl, hm'⟩ := h
  obtain ⟨qs, rfl, hm''⟩ := h'
  refine ⟨qs ++ rs, by simp [Nat.add_comm], ?_, hm''.floor.trans hm'.floor⟩
  rw [hm''.stack, hm'.stack, List.append_assoc]

/-- The floor stays below what is added. -/
theorem Adds.floor_le {k : Nat} {m m' : Machine} (h : Adds k m m')
    (hm : m.stackFloor ≤ m.stack.length) : m'.stackFloor ≤ m'.stack.length := by
  obtain ⟨rs, -, hm'⟩ := h
  rw [hm'.floor, hm'.stack, List.length_append]
  omega

end Machine

open Machine Machine.Config

theorem OpKind.shape_of_arity? {k : OpKind} {n : Nat} (h : k.arity? = some n) :
    k.unit? = none ∧ k.shape ≠ .listed ∧ k.shape ≠ .unit := by
  cases k <;> simp [arity?, shape, unit?] at h ⊢

namespace HostTree

variable {g : Graph} {t : HostTree} {cont : Option OpId} {ws : List Waiting} {m : Machine}

/-- **Trees in a row** are executed one after the other: `I` says what holds of the machine before
those that are left. -/
theorem LinkedRow.reaches {I : List HostTree → Machine → Prop} {ts : List HostTree}
    (h : LinkedRow g ts cont)
    (hI : ∀ t ∈ ts, ∀ us c m, m.fault = none → I (t :: us) m → Linked g t c →
      Reaches g t.ids ⟨m, .loop (some t.start), ws⟩ c ws (I us))
    (hf : m.fault = none) (hm : I ts m) :
    Reaches g (idsAll ts) ⟨m, .loop (entryOf ts cont), ws⟩ cont ws (I []) := by
  induction ts generalizing m with
  | nil => exact .refl hf hm
  | cons t ts ih =>
    rw [idsAll_cons]
    have first := hI t List.mem_cons_self ts _ m hf hm h.1
    refine (first.widen (List.subset_append_left _ _)).trans fun m' hf' hm' => ?_
    have rest := ih h.2 (fun u hu => hI u (List.mem_cons_of_mem t hu)) hf' hm'
    exact rest.widen (List.subset_append_right _ _)

/-- **An expression adds one entry to the stack**, on every path through it.

By induction over the tree.  Each operand that is executed adds one entry, and the op takes as many
entries as it has kids and adds its own; `and`, `or` and a choice take the entry that decides, and
one operand more adds another in its place, or it stays. -/
theorem IsExpression.balanced (ht : t.IsExpression) (hl : Linked g t cont) (hf : m.fault = none)
    (hm : m.stackFloor ≤ m.stack.length) :
    Reaches g t.ids ⟨m, .loop (some t.start), ws⟩ cont ws (Adds 1 m) := by
  induction t using induction generalizing cont m with
  | step id f ks ih =>
    obtain ⟨harity, hks⟩ := isExpression_node.mp ht
    obtain ⟨hunit, hlisted, hnative⟩ := OpKind.shape_of_arity? harity
    have here : id ∈ (node id f ks).ids := root_mem_ids (node id f ks)
    -- a kid that is executed where so many entries have been added
    have kid : ∀ k ∈ ks, ∀ {j c m'}, m'.fault = none → Adds j m m' → Linked g k c →
        Reaches g k.ids ⟨m', .loop (some k.start), ws⟩ c ws (Adds (j + 1) m) := by
      intro k hk j c m' hf' hadds hlk
      exact (ih k hk (hks k hk) hlk hf' (hadds.floor_le hm)).imp fun m'' h => hadds.trans h
    have inside : ∀ k ∈ ks, k.ids ⊆ (node id f ks).ids := fun k hk =>
      ids_subset (subtrees_of_kid (t := node id f ks) hk)
    cases hs : f.kind.shape with
    | listed => exact absurd hs hlisted
    | unit => exact absurd hs hnative
    | plain =>
      obtain ⟨op, ho, rfl, -, rfl, hrow⟩ := (linked_plain hs).mp hl
      -- each operand that has been executed has added one entry
      have operands := hrow.reaches (m := m)
        (I := fun ts m' => ∃ j, j + ts.length = ks.length ∧ Adds j m m')
        (by
          rintro k hk us c m' hf' ⟨j, hj, hadds⟩ hlk
          refine (kid k hk hf' hadds hlk).imp fun m'' h => ?_
          exact ⟨j + 1, by simp at hj; omega, h⟩)
        hf ⟨0, by simp, .zero m⟩
      rw [entryOf_kids hnative] at operands
      refine (operands.widen (by simp)).trans fun m₁ hf₁ h₁ => ?_
      obtain ⟨j, hj, rs, hrs, stack⟩ := h₁
      have hlen : op.kind.arity? = some rs.length := by
        rw [hrs, show j = ks.length by simpa using hj]
        exact harity
      refine .exec here ho hunit hf₁ (exec_plain hs hlen stack hm) fun succ m₂ hf₂ h₂ => ?_
      obtain ⟨rfl, r, stack₂⟩ := h₂
      exact .refl hf₂ ⟨[r], rfl, stack₂⟩
    | short =>
      obtain ⟨l, r, rfl, op, ho, rfl, -, rfl, hother, left, right⟩ := (linked_short hs).mp hl
      have first := (kid l (by simp) hf (.zero m) left).widen (inside l (by simp))
      rw [start_cons hnative]
      refine first.trans fun m₁ hf₁ h₁ => ?_
      obtain ⟨rs, hrs, stack⟩ := h₁
      obtain ⟨b, rfl⟩ := List.length_eq_one_iff.mp hrs
      refine .exec here ho hunit hf₁ (exec_short hs stack hm) fun succ m₂ hf₂ h₂ => ?_
      rcases h₂ with ⟨rfl, stack₂⟩ | ⟨rfl, stack₂⟩
      · exact .refl hf₂ ⟨[b], rfl, stack₂⟩
      · -- the left operand was taken off: the right one finds the stack as it was
        rw [hother]
        exact (kid r (by simp) hf₂ ⟨[], rfl, stack₂⟩ right).widen (inside r (by simp))
    | choice =>
      obtain ⟨c, y, n, rfl, op, ho, rfl, -, hnext, hother, cond, yes, no⟩ := (linked_choice hs).mp hl
      have first := (kid c (by simp) hf (.zero m) cond).widen (inside c (by simp))
      rw [start_cons hnative]
      refine first.trans fun m₁ hf₁ h₁ => ?_
      obtain ⟨rs, hrs, stack⟩ := h₁
      obtain ⟨b, rfl⟩ := List.length_eq_one_iff.mp hrs
      refine .exec here ho hunit hf₁ (exec_choice hs stack hm) fun succ m₂ hf₂ h₂ => ?_
      obtain ⟨rfl | rfl, stack₂⟩ := h₂
      · rw [hnext]
        exact (kid n (by simp) hf₂ ⟨[], rfl, stack₂⟩ no).widen (inside n (by simp))
      · rw [hother]
        exact (kid y (by simp) hf₂ ⟨[], rfl, stack₂⟩ yes).widen (inside y (by simp))

/-- **A program keeps above the floor.** -/
theorem IsProgram.keeps_floor (ht : t.IsProgram) (hl : Linked g t cont) (hf : m.fault = none)
    (hm : m.stackFloor ≤ m.stack.length) :
    Reaches g t.ids ⟨m, .loop (some t.start), ws⟩ cont ws
      fun m' => m'.stackFloor ≤ m'.stack.length := by
  induction ht generalizing cont m with
  | expression h => exact (h.balanced hl hf hm).imp fun m' h => h.floor_le hm
  | @mark id f hk =>
    obtain ⟨op, ho, rfl, -, rfl, -⟩ := (linked_plain (by rw [hk]; rfl)).mp hl
    rw [start_leaf]
    have hk : op.kind = .mark := hk
    have cleared : Safe (fun succ m' => succ = op.next ∧ m'.stackFloor ≤ m'.stack.length)
        (exec id op m) := by
      rw [exec_mark id hk m]
      refine ⟨rfl, ?_⟩
      simp only [endStatement, List.length_drop]
      omega
    refine .exec (by simp) ho (by rw [hk]; rfl) hf cleared fun succ m₁ hf₁ h₁ => ?_
    obtain ⟨rfl, h₁⟩ := h₁
    exact .refl hf₁ h₁
  | @statements id f ks hk _ ih =>
    obtain ⟨op, ho, rfl, -, rfl, hrow⟩ := (linked_listed (by rw [hk]; rfl)).mp hl
    have hk : op.kind = .statements := hk
    cases ks with
    | nil =>
      rw [start_leaf]
      have stays : Safe (fun succ m' => succ = op.next ∧ m' = m) (exec id op m) := by
        unfold exec
        rw [hk]
        exact ⟨rfl, rfl⟩
      refine .exec (by simp) ho (by rw [hk]; rfl) hf stays fun succ m₁ hf₁ h₁ => ?_
      obtain ⟨rfl, rfl⟩ := h₁
      exact .refl hf₁ hm
    | cons k ks =>
      have row := hrow.reaches (I := fun _ m' => m'.stackFloor ≤ m'.stack.length)
        (fun k hk us c m' hf' hm' hlk => ih k hk hlk hf' hm') hf hm
      rw [start_cons (by simp [Op.face, hk, OpKind.shape])]
      exact row.widen (by simp)

/-! ### Where the trees of a program lead -/

/-- A tree in a row leads out of itself. -/
theorem LinkedRow.leads_out {ts : List HostTree} {k : HostTree} (h : LinkedRow g ts cont)
    (hn : (idsAll ts).Nodup) (hc : ∀ x, cont = some x → x ∉ idsAll ts) (hk : k ∈ ts) :
    ∃ c, Linked g k c ∧ ∀ x, c = some x → x ∉ k.ids := by
  induction ts with
  | nil => cases hk
  | cons t ts ih =>
    rw [idsAll_cons, List.nodup_append'] at hn
    simp only [idsAll_cons, List.mem_append, not_or] at hc
    rcases List.mem_cons.mp hk with rfl | hk
    · refine ⟨_, h.1, fun x hx => ?_⟩
      cases ts with
      | nil => exact (hc x hx).1
      | cons u ts =>
        obtain rfl : u.start = x := Option.some.inj hx
        exact fun hmem => hn.2.2 hmem (by simp [start_mem_ids])
    · exact ih h.2 hn.2.1 (fun x hx => (hc x hx).2) hk

/-- **Every tree of a program leads out of itself**, if the whole does. -/
theorem Linked.leads_out {s : HostTree} (h : Linked g t cont) (hn : t.ids.Nodup)
    (hc : ∀ x, cont = some x → x ∉ t.ids) (hs : s ∈ t.subtrees) :
    ∃ c, Linked g s c ∧ ∀ x, c = some x → x ∉ s.ids := by
  induction t using induction generalizing cont with
  | step id f ks ih =>
    rcases mem_subtrees_iff.mp hs with rfl | ⟨k, hk, hs⟩
    · exact ⟨cont, h, hc⟩
    have hk : k ∈ ks := hk
    obtain ⟨hid, hks⟩ := nodup_kids hn
    have after : ∀ x, cont = some x → x ∉ idsAll ks := fun x hx hmem => hc x hx (by simp [hmem])
    have op : ∀ x, some id = some x → x ∉ idsAll ks := fun x hx => Option.some.inj hx ▸ hid
    suffices ∃ c, Linked g k c ∧ ∀ x, c = some x → x ∉ k.ids by
      obtain ⟨c, hlk, hck⟩ := this
      exact ih k hk hlk (nodup_of_mem hk hks) hck hs
    have within : k.ids ⊆ idsAll ks := ids_subset_idsAll hk
    cases hshape : f.kind.shape with
    | plain =>
      obtain ⟨-, -, -, -, -, hrow⟩ := (linked_plain hshape).mp h
      exact hrow.leads_out hks op hk
    | listed =>
      obtain ⟨-, -, -, -, -, hrow⟩ := (linked_listed hshape).mp h
      exact hrow.leads_out hks after hk
    | unit =>
      obtain ⟨-, -, -, -, -, each⟩ := (linked_unit hshape).mp h
      exact ⟨none, linkedEach_iff.mp each k hk, fun x hx => by cases hx⟩
    | short =>
      obtain ⟨l, r, rfl, -, -, -, -, -, -, left, right⟩ := (linked_short hshape).mp h
      rcases List.mem_pair.mp hk with rfl | rfl
      · exact ⟨_, left, fun x hx hmem => op x hx (within hmem)⟩
      · exact ⟨_, right, fun x hx hmem => after x hx (within hmem)⟩
    | choice =>
      obtain ⟨c, y, n, rfl, -, -, -, -, -, -, cond, yes, no⟩ := (linked_choice hshape).mp h
      simp only [List.mem_cons, List.not_mem_nil, or_false] at hk
      rcases hk with rfl | rfl | rfl
      · exact ⟨_, cond, fun x hx hmem => op x hx (within hmem)⟩
      · exact ⟨_, yes, fun x hx hmem => after x hx (within hmem)⟩
      · exact ⟨_, no, fun x hx hmem => after x hx (within hmem)⟩

end HostTree

/-! ### Whole runs -/

namespace Machine.Config

variable {g : Graph} {m : Machine} {c c' : Config} {i : Nat}

theorem Within.after {ids : List OpId} (h : Within g ids c c') : ∃ i, after g i c = some c' := by
  induction h with
  | refl => exact ⟨0, rfl⟩
  | tail _ hs ih =>
    obtain ⟨i, hi⟩ := ih
    obtain ⟨a, ha⟩ := hs.2
    exact ⟨i + 1, after_trans hi (after_one ha)⟩

/-- Where the steps of a program come to its end, a fault is not that operands were missing. -/
theorem Reaches.last {ids : List OpId} {Q : Machine → Prop} (h : Reaches g ids c none [] Q) :
    ∃ i c', after g i c = some c' ∧ next g c' = none ∧
      (c'.phase = .ended ∧ (∀ id, c'.machine.fault ≠ some (.stackUnderflow id)) ∨
        c'.phase = .halted .overflow) := by
  obtain ⟨c', steps, reached⟩ := h
  obtain ⟨i, hi⟩ := steps.after
  cases reached with
  | on hf _ =>
    exact ⟨i + 1, _, after_trans hi (after_one rfl), rfl, .inl ⟨rfl, fun id => by simp [resume, hf]⟩⟩
  | faulted hf hu =>
    refine ⟨i + 1, _, after_trans hi (after_one rfl), rfl, .inl ⟨rfl, fun id hid => ?_⟩⟩
    exact hu id (Option.some.inj (hf.symm.trans hid))
  | overflowed => exact ⟨i, _, hi, rfl, .inr rfl⟩

/-- **A run of such steps ends**, and not for want of operands. -/
theorem Reaches.run {ids : List OpId} {Q : Machine → Prop} {entry : OpId}
    (hentry : g.entry = some entry) (h : Reaches g ids ⟨m.fresh, .loop (some entry), []⟩ none [] Q) :
    ∃ bound, ∀ fuel, Safe (fun _ _ => True) (Machine.run g fuel m) ∧
      (bound < fuel → ∀ m', Machine.run g fuel m ≠ .error .outOfFuel m') := by
  obtain ⟨i, c, hi, hlast, hend⟩ := h.last
  refine ⟨i, fun fuel => ?_⟩
  -- whatever the fuel, the loop comes to this last state or is cut off on the way
  obtain ⟨hp, hd⟩ | ⟨e, hp, hd⟩ | ⟨hle, m', hd⟩ := dispatch_of_last hi hlast fuel
  · have hfault : ∀ id, c.machine.fault ≠ some (.stackUnderflow id) := by
      rcases hend with hend | hend
      · exact hend.2
      · rw [hp] at hend
        cases hend
    cases hf : c.machine.fault with
    | none =>
      rw [run_of_dispatch hentry hd hf]
      exact ⟨trivial, fun _ m' h => by cases h⟩
    | some f =>
      rw [run_of_dispatch_fault hentry hd hf]
      refine ⟨fun id hid => hfault id ?_, fun _ m' h => by cases h⟩
      cases hid
      exact hf
  · obtain rfl : e = .overflow := by
      rcases hend with hend | hend
      · rw [hp] at hend
        cases hend.1
      · rw [hp] at hend
        cases hend
        rfl
    rw [run_of_halt hentry hd]
    exact ⟨fun id hid => (by cases hid), fun _ m' h => by cases h⟩
  · rw [run_of_halt hentry hd]
    exact ⟨fun id hid => (by cases hid), fun hlt => by omega⟩

end Machine.Config

namespace HostTree

theorem IsProgram.shape_ne_unit {t s : HostTree} (h : t.IsProgram) (hs : s ∈ t.subtrees) :
    s.shape ≠ .unit := by
  induction h with
  | expression h => exact (OpKind.shape_of_arity? (h s hs)).2.2
  | @mark id f hk =>
    rcases mem_subtrees_iff.mp hs with rfl | ⟨k, hmem, -⟩
    · simp [shape, hk, OpKind.shape]
    · cases hmem
  | @statements id f ks hk _ ih =>
    rcases mem_subtrees_iff.mp hs with rfl | ⟨k, hk', hs⟩
    · simp [shape, hk, OpKind.shape]
    · exact ih k hk' hs

/-- **The stack is balanced.**  A program that has been linked ends within some bound on every
machine, and within none does it fault for want of operands.  Each expression in it leads to one op
outside, or to the end; entered on any stack at all, at its start, it comes there by steps at its
own ops, with one entry added and nothing below it changed, unless it faults otherwise or overflows.

A program is made of expressions, marks and lists of them, and each is followed from its start to
where it leads.  The steps of the whole program are put together from these, so they end, and none
of them is a fault for want of operands; and the loop ends as the steps do. -/
theorem stack_balanced {g g' : Graph} {T : HostTree} {entry : OpId} (hT : T.IsProgram)
    (hr : Reads g T) (hn : T.ids.Nodup) (hlink : Graph.link T.root g = .ok entry g') :
    (∀ m, ∃ bound, ∀ fuel, bound < fuel → ∀ m', Machine.run g' fuel m ≠ .error .outOfFuel m') ∧
    (∀ m fuel id m', Machine.run g' fuel m ≠ .error (.fault (.stackUnderflow id)) m') ∧
    ∀ E ∈ T.subtrees, E.IsExpression → ∃ cont, (∀ x, cont = some x → x ∉ E.ids) ∧
      ∀ m ws, m.fault = none → m.stackFloor ≤ m.stack.length →
        Reaches g' E.ids ⟨m, .loop (some E.start), ws⟩ cont ws (Adds 1 m) := by
  obtain ⟨-, g₁, hl, rfl⟩ := Graph.link_eq_ok hlink
  obtain ⟨rfl, threads⟩ := Graph.linkWithin_linked hn (fun s hs => hT.shape_ne_unit hs) hr hl
  have linked : Linked { g₁ with root := some T.root, entry := some T.start } T none :=
    Linked.congr (g := g₁) (fun _ _ => rfl) threads.linked
  have reaches : ∀ m : Machine, Reaches _ T.ids ⟨m.fresh, .loop (some T.start), []⟩ none [] _ :=
    fun m => hT.keeps_floor linked rfl (Nat.zero_le _)
  refine ⟨fun m => ?_, fun m fuel id m' h => ?_, fun E hE hexp => ?_⟩
  · obtain ⟨bound, hbound⟩ := (reaches m).run rfl
    exact ⟨bound, fun fuel => (hbound fuel).2⟩
  · obtain ⟨bound, hbound⟩ := (reaches m).run rfl
    have safe := (hbound fuel).1
    rw [h] at safe
    exact safe id rfl
  · obtain ⟨cont, hlE, hout⟩ := linked.leads_out hn (fun x hx => by cases hx) hE
    exact ⟨cont, hout, fun m ws hf hm => hexp.balanced hlE hf hm⟩

/-- One of two values, on a condition that may come to its end early. -/
def choiceTree : HostTree :=
  node ⟨8⟩ { kind := .cond }
    [node ⟨4⟩ { kind := .and }
      [node ⟨2⟩ { kind := .lexical ⟨1⟩ false } [], node ⟨3⟩ { kind := .const (.int 1) } []],
     node ⟨6⟩ { kind := .negate } [node ⟨5⟩ { kind := .const (.int 2) } []],
     node ⟨7⟩ { kind := .lexical ⟨2⟩ false } []]

/-- Two statements: the value goes to a variable that is declared, and a remainder. -/
def statementsTree : HostTree :=
  node ⟨14⟩ { kind := .statements }
    [node ⟨0⟩ { kind := .mark } [],
     node ⟨9⟩ { kind := .assign } [node ⟨1⟩ { kind := .lexical ⟨0⟩ true } [], choiceTree],
     node ⟨10⟩ { kind := .mark } [],
     node ⟨13⟩ { kind := .arith .modulo }
      [node ⟨11⟩ { kind := .lexical ⟨0⟩ false } [], node ⟨12⟩ { kind := .lexical ⟨2⟩ false } []]]

def statementsGraph : Graph where
  owner := ⟨0⟩
  ops := #[{ kind := .mark }, { kind := .lexical ⟨0⟩ true }, { kind := .lexical ⟨1⟩ false },
    { kind := .const (.int 1) }, { kind := .and, kids := [⟨2⟩, ⟨3⟩] }, { kind := .const (.int 2) },
    { kind := .negate, kids := [⟨5⟩] }, { kind := .lexical ⟨2⟩ false },
    { kind := .cond, kids := [⟨4⟩, ⟨6⟩, ⟨7⟩] }, { kind := .assign, kids := [⟨1⟩, ⟨8⟩] },
    { kind := .mark }, { kind := .lexical ⟨0⟩ false }, { kind := .lexical ⟨2⟩ false },
    { kind := .arith .modulo, kids := [⟨11⟩, ⟨12⟩] },
    { kind := .statements, kids := [⟨0⟩, ⟨9⟩, ⟨10⟩, ⟨13⟩] }]

/-- The choice is executed above the box of the variable that its value is for. -/
theorem stack_balanced_statements : ∃ g', Graph.link ⟨14⟩ statementsGraph = .ok ⟨0⟩ g' ∧
    statementsTree.IsProgram ∧ Reads statementsGraph statementsTree ∧ statementsTree.ids.Nodup ∧
    choiceTree ∈ statementsTree.subtrees ∧ choiceTree.IsExpression ∧
    (∀ fuel id m', Machine.run g' fuel (.ofSize 3) ≠ .error (.fault (.stackUnderflow id)) m') ∧
    ∃ cont, (∀ x, cont = some x → x ∉ choiceTree.ids) ∧
      Reaches g' choiceTree.ids
        ⟨{ Machine.ofSize 3 with stack := [.pad ⟨0⟩] }, .loop (some choiceTree.start), []⟩ cont []
        (Adds 1 { Machine.ofSize 3 with stack := [.pad ⟨0⟩] }) := by
  have program : statementsTree.IsProgram := by
    refine .statements rfl ?_
    simp only [List.forall_mem_cons]
    exact ⟨.mark rfl, .expression (by decide), .mark rfl, .expression (by decide), by simp⟩
  have reads : Reads statementsGraph statementsTree := by
    simp only [Reads, statementsTree, choiceTree, subtrees, subtreesAll, List.append_nil,
      List.cons_append, List.nil_append, List.forall_mem_cons]
    refine ⟨?_, ?_, ?_, ?_, ?_, ?_, ?_, ?_, ?_, ?_, ?_, ?_, ?_, ?_, ?_, by simp⟩ <;>
      exact ⟨_, rfl, rfl, rfl⟩
  have nodup : statementsTree.ids.Nodup := by decide
  have mem : choiceTree ∈ statementsTree.subtrees := by
    simp [statementsTree, subtrees, subtreesAll, mem_subtrees_self]
  have expression : choiceTree.IsExpression := by decide
  obtain ⟨-, safe, balanced⟩ := stack_balanced program reads nodup rfl
  obtain ⟨cont, out, reaches⟩ := balanced choiceTree mem expression
  exact ⟨_, rfl, program, reads, nodup, mem, expression, safe _, cont, out,
    reaches _ [] rfl (Nat.zero_le _)⟩

end HostTree

end Graft
