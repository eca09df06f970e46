import Graft.Proofs.Linking
import Graft.Proofs.Steps
import Graft.Proofs.Tracing

/-! # Running a tree

`HostTree.run` executes a tree of ops by recursion over the tree: kids from left to right
and then the op, with the exceptions that shapes make.  It stops at the first fault.

The dispatch loop does the same from the links alone.  Where a tree is linked, the loop
from its first op runs the tree and then what comes after it (`HostTree.Linked.follows`),
so that on a graph that has been linked a run is the run of the tree below the root
(`Graph.run_link`).

The loop has no end in sight at an inner op, so "runs the tree" is said with what comes after
it: the loop from the first op of the tree, up to any number of rounds that is large enough, is
the run of the tree followed by the loop from the op that the tree leads to.  In this form it
goes by induction over the tree.  There is one lemma for an op and one for a unit
(`HostTree.follows_op`, `HostTree.follows_unit`); a shape only says in what order they are put
together, and the bound on the rounds is the sum of those of the parts.

A tree executes no op oftener than it is in the tree (`HostTree.atMost_run`), and leaves no
fault where it runs to its end (`HostTree.steady_run`); both hold of the tree and are carried over
to the loop by the same theorem.
-/

namespace Graft

open Traced Machine

namespace HostTree

/-- Execute the op at the root of a tree. -/
def act (id : OpId) (f : Face) : Traced Bool := do
  note id
  lift (step id f)

mutual

/-- Execute a tree of ops. -/
def run : HostTree → Traced Unit
  | node id f ks =>
    match f.kind.shape, ks with
    | .short, [l, r] => do
      l.run
      if ← act id f then r.run else return ()
    | .choice, [c, y, n] => do
      c.run
      if ← act id f then y.run else n.run
    | .unit, ks => do
      note id
      lift (runUnit id f.kind.code fun root => above (runNamed ks root))
    | .listed, k :: ks => do
      k.run
      runAll ks
    | _, ks => do
      runAll ks
      let _ ← act id f
      return ()

/-- Execute trees one after the other. -/
def runAll : List HostTree → Traced Unit
  | [] => return ()
  | t :: ts => do
    t.run
    runAll ts

/-- Execute the tree with that root in a loop of its own. -/
def runNamed : List HostTree → OpId → MachineM Unit
  | [], root => modify fun m => m.fail (.unknownOp root)
  | t :: ts, root => if t.root = root then (settle t.run).erase else runNamed ts root

end

section Shapes

variable {id : OpId} {f : Face} {ks : List HostTree}

theorem run_plain (h : f.kind.shape = .plain) :
    (node id f ks).run = (do runAll ks; let _ ← act id f; return ()) := by
  unfold run
  simp only [h]

theorem run_listed_nil (h : f.kind.shape = .listed) :
    (node id f []).run = (do let _ ← act id f; return ()) := by
  simp [run, h, runAll]

theorem run_listed_cons (h : f.kind.shape = .listed) (hk : ks ≠ []) :
    (node id f ks).run = runAll ks := by
  cases ks with
  | nil => contradiction
  | cons k ks => simp only [run, h, runAll]

theorem run_short {l r : HostTree} (h : f.kind.shape = .short) :
    (node id f [l, r]).run = (do l.run; if ← act id f then r.run else return ()) := by
  simp only [run, h]

theorem run_choice {c y n : HostTree} (h : f.kind.shape = .choice) :
    (node id f [c, y, n]).run = (do c.run; if ← act id f then y.run else n.run) := by
  simp only [run, h]

theorem run_unit (h : f.kind.shape = .unit) : (node id f ks).run = (do
    note id
    lift (runUnit id f.kind.code fun root => above (runNamed ks root))) := by
  unfold run
  simp only [h]

end Shapes

/-! ### Runs without a recorded fault -/

theorem steady_act (id : OpId) (f : Face) : Steady (act id f).erase := by
  simp only [act, erase_bind, erase_note, erase_lift, pure_bind]
  exact steady_step id f

theorem recording_settle {x : Traced Unit} (h : Steady x.erase) {m m' : Machine} {e : Halt}
    (hm : m.fault = none) (he : (settle x).erase m = .error e m') : e = .overflow := by
  have hx := h m hm
  change (settle x m).2 = .error e m' at he
  rcases hxm : x m with ⟨l, _ | ⟨_ | _ | _, _⟩⟩ <;> simp only [erase, hxm] at hx <;>
    simp only [settle, hxm] at he <;> cases he
  · rfl
  · exact absurd rfl hx.1

theorem recording_above {x : MachineM Unit}
    (h : ∀ m e m', m.fault = none → x m = .error e m' → e = .overflow) : Recording (above x) := by
  refine .bind (fun _ _ _ h => nomatch h) fun frame => .bind ?_ fun _ _ _ _ h => nomatch h
  intro m e m' he
  unfold unlessFailed at he
  rw [Effect.get_bind] at he
  split at he
  · cases he
  · next hf => exact h m e m' (by simpa using hf) he

mutual

/-- **A tree that runs to its end leaves no fault.** -/
theorem steady_run : ∀ t : HostTree, Steady t.run.erase
  | node id f ks => by
    have all := steady_runAll ks
    have named := steady_runNamed ks
    unfold run
    split
    · next l r _ =>
      simp only [erase_bind]
      refine (all.2 l (by simp)).bind fun _ => (steady_act id f).bind fun b => ?_
      cases b
      · exact .pure ()
      · exact all.2 r (by simp)
    · next c y n _ =>
      simp only [erase_bind]
      refine (all.2 c (by simp)).bind fun _ => (steady_act id f).bind fun b => ?_
      cases b
      · exact all.2 n (by simp)
      · exact all.2 y (by simp)
    · rw [erase_bind]
      exact .bind (.pure ()) fun _ => .runUnit id _ fun root => recording_above (named root)
    · next k ks _ =>
      simp only [runAll, erase_bind] at all
      simpa only [erase_bind] using all.1
    · simp only [erase_bind, erase_pure]
      exact all.1.bind fun _ => (steady_act id f).bind fun _ => .pure ()

theorem steady_runAll : ∀ ts : List HostTree,
    Steady (runAll ts).erase ∧ ∀ t ∈ ts, Steady t.run.erase
  | [] => ⟨.pure (), by simp⟩
  | t :: ts => by
    have head := steady_run t
    have tail := steady_runAll ts
    refine ⟨?_, List.forall_mem_cons.mpr ⟨head, tail.2⟩⟩
    rw [runAll, erase_bind]
    exact head.bind fun _ => tail.1

theorem steady_runNamed : ∀ (ts : List HostTree) (root : OpId) (m : Machine) (e : Halt) (m' : Machine),
    m.fault = none → runNamed ts root m = .error e m' → e = .overflow
  | [], root, m, e, m', _, h => by rw [runNamed] at h; cases h
  | t :: ts, root, m, e, m', hm, h => by
    have head := steady_run t
    rw [runNamed] at h
    split at h
    · exact recording_settle head hm h
    · exact steady_runNamed ts root m e m' hm h

end

/-! ### Every op at most once -/

/-- The computation executes the op `id` at most `n` times. -/
def AtMost {α : Type} (id : OpId) (n : Nat) (x : Traced α) : Prop := ∀ m, (x m).1.count id ≤ n

namespace AtMost

variable {α β : Type} {id : OpId} {i j : Nat}

theorem mono {x : Traced α} (h : AtMost id i x) (hij : i ≤ j) : AtMost id j x :=
  fun m => Nat.le_trans (h m) hij

theorem lift (x : MachineM α) : AtMost id 0 (lift x) := fun _ => Nat.le_refl 0

theorem note (root : OpId) : AtMost id ([root].count id) (note root) := fun _ => Nat.le_refl _

theorem bind {x : Traced α} {k : α → Traced β} (hx : AtMost id i x) (hk : ∀ a, AtMost id j (k a)) :
    AtMost id (i + j) (x >>= k) := by
  intro m
  have first := hx m
  rcases h : x m with ⟨l, r⟩
  rw [h] at first
  cases r with
  | ok a m' =>
    rw [bind_ok h, List.count_append]
    exact Nat.add_le_add first (hk a m')
  | error e m' =>
    rw [bind_error h]
    exact Nat.le_add_right_of_le first

theorem act (root : OpId) (f : Face) : AtMost id ([root].count id) (act root f) :=
  bind (note root) fun _ => lift _

end AtMost

mutual

/-- **Running a tree executes no op oftener than it is in the tree.** -/
theorem atMost_run (id : OpId) : ∀ t : HostTree, AtMost id (t.ids.count id) t.run
  | node root f ks => by
    have all := atMost_runAll id ks
    have here : AtMost id ([root].count id) (act root f) := .act root f
    have total : (node root f ks).ids.count id = (idsAll ks).count id + [root].count id := by
      rw [ids_node, ← List.singleton_append, List.count_append, Nat.add_comm]
    rw [total]
    unfold run
    split
    · next l r _ =>
      have after : ∀ b, AtMost id (r.ids.count id) (if b = true then r.run else pure ()) := by
        intro b
        cases b
        · exact (AtMost.lift _).mono (Nat.zero_le _)
        · exact all.2 r (by simp)
      refine ((all.2 l (by simp)).bind fun _ => here.bind after).mono ?_
      simp only [idsAll_cons, idsAll_nil, List.count_append, List.count_nil]
      omega
    · next c y n _ =>
      have after : ∀ b, AtMost id (y.ids.count id + n.ids.count id)
          (if b = true then y.run else n.run) := by
        intro b
        cases b
        · exact (all.2 n (by simp)).mono (Nat.le_add_left _ _)
        · exact (all.2 y (by simp)).mono (Nat.le_add_right _ _)
      refine ((all.2 c (by simp)).bind fun _ => here.bind after).mono ?_
      simp only [idsAll_cons, idsAll_nil, List.count_append, List.count_nil]
      omega
    · exact ((AtMost.note root).bind fun _ => .lift _).mono (by omega)
    · next k ks _ =>
      rw [runAll] at all
      exact all.1.mono (Nat.le_add_right _ _)
    · exact all.1.bind fun _ => here.bind fun _ => .lift _

theorem atMost_runAll (id : OpId) : ∀ ts : List HostTree,
    AtMost id ((idsAll ts).count id) (runAll ts) ∧ ∀ t ∈ ts, AtMost id (t.ids.count id) t.run
  | [] => ⟨.lift _, by simp⟩
  | t :: ts => by
    have head := atMost_run id t
    have tail := atMost_runAll id ts
    refine ⟨?_, List.forall_mem_cons.mpr ⟨head, tail.2⟩⟩
    rw [runAll, idsAll_cons, List.count_append]
    exact head.bind fun _ => tail.1

end

theorem nodup_trace {t : HostTree} (hn : t.ids.Nodup) (m : Machine) : (t.run m).1.Nodup :=
  List.nodup_iff_count_le_one.mpr fun id =>
    Nat.le_trans (atMost_run id t m) (List.nodup_iff_count_le_one.mp hn id)

/-! ### The loop runs the tree -/

/-- From `cur` on, the loop does what `x` does, given enough fuel. -/
def Follows (g : Graph) (cur : Option OpId) (x : Traced Unit) : Prop :=
  ∃ k, ∀ fuel, k ≤ fuel → ∀ m, m.fault = none → loop g fuel cur m = settle x m

variable {g : Graph} {id : OpId} {op : Op} {cont : Option OpId}

theorem follows_none (g : Graph) : Follows g none (pure ()) :=
  ⟨0, fun fuel _ m _ => by cases fuel <;> rfl⟩

/-- A loop stops before the next op where a fault is recorded. -/
theorem loop_of_fault {m : Machine} {f : Fault} (hf : m.fault = some f) (n : Nat)
    (cur : Option OpId) : loop g (n + 1) cur m = ([], .ok () m) := by
  cases cur with
  | none => rfl
  | some id => simp [loop, get_bind_apply, hf, pure_apply]

/-- What the loop does with an op that is not a unit. -/
theorem loop_interpret (ho : g.op? id = some op) (hu : op.kind.shape ≠ .unit) {m : Machine}
    (hm : m.fault = none) (n : Nat) : loop g (n + 1) (some id) m = (do
      note id
      match ← lift (observe (exec id op)) with
      | .ok next => loop g n next
      | .error f => lift (modify fun m => m.fail f) : Traced Unit) m := by
  rw [loop, get_bind_apply, if_neg (by simp [hm]), ho]
  dsimp only
  split
  · next unit hk => exact absurd (by rw [hk]; rfl) hu
  · rfl

/-- What the loop does with a unit. -/
theorem loop_unit (ho : g.op? id = some op) (hu : op.kind.shape = .unit) {m : Machine}
    (hm : m.fault = none) (n : Nat) : loop g (n + 1) (some id) m = (do
      note id
      lift (modify fun m => { m with current := some id })
      loop g n (← lift (runCode g (callFragment g (dispatch g n)) op.kind.code {})) :
        Traced Unit) m := by
  rw [loop, get_bind_apply, if_neg (by simp [hm]), ho]
  cases hk : op.kind
  case native unit => simp only [hk, OpKind.code]
  all_goals rw [hk] at hu; cases hu

/-- **One interpreted op**, after which the loop goes on as the op says. -/
theorem follows_op (ho : g.op? id = some op) (hu : op.kind.shape ≠ .unit) {k : Bool → Traced Unit}
    (hnext : Follows g op.next (k false))
    (hother : op.kind.shape = .short ∨ op.kind.shape = .choice → Follows g op.other (k true)) :
    Follows g (some id) (act id op.face >>= k) := by
  obtain ⟨i, hi⟩ := hnext
  have branch : ∃ j, ∀ fuel, j ≤ fuel → ∀ b m m', step id op.face m = .ok b m' → m'.fault = none →
      loop g fuel (if b then op.other else op.next) m' = settle (k b) m' := by
    by_cases hs : op.kind.shape = .short ∨ op.kind.shape = .choice
    · obtain ⟨j, hj⟩ := hother hs
      refine ⟨max i j, fun fuel hf b m m' _ hm' => ?_⟩
      cases b
      · exact hi fuel (Nat.le_trans (Nat.le_max_left i j) hf) m' hm'
      · exact hj fuel (Nat.le_trans (Nat.le_max_right i j) hf) m' hm'
    · refine ⟨i, fun fuel hf b m m' hb hm' => ?_⟩
      obtain rfl := step_eq_false hb (fun h => hs (.inl h)) (fun h => hs (.inr h))
      exact hi fuel hf m' hm'
  obtain ⟨j, hj⟩ := branch
  refine ⟨j + 1, fun fuel hf m hm => ?_⟩
  obtain ⟨n, rfl⟩ : ∃ n, fuel = n + 1 := ⟨fuel - 1, by omega⟩
  have steady := steady_step id op.face m hm
  have acted : act id op.face m = ([id], step id op.face m) := rfl
  rw [loop_interpret ho hu hm, bind_ok (x := note id) rfl, lift_bind_apply, exec_eq_step]
  cases hst : step id op.face m with
  | ok b m' =>
    rw [hst] at steady acted
    rw [settle_bind_ok acted, ← hj n (by omega) b m m' hst steady]
    simp only [observe, Effect.map_ok hst]
  | error h m' =>
    rw [hst] at acted
    cases h with
    | fault f =>
      rw [settle_of_fault (bind_error acted)]
      simp only [observe, Effect.map_error hst]
      rfl
    | overflow => simp only [observe, Effect.map_error hst, settle, bind_error acted, List.append_nil]
    | outOfFuel => simp only [observe, Effect.map_error hst, settle, bind_error acted, List.append_nil]

/-- Trees in a row, after each of which the loop goes on with the next. -/
theorem follows_row {ts : List HostTree}
    (ih : ∀ t ∈ ts, ∀ {cont x}, Linked g t cont → Follows g cont x →
      Follows g (some t.start) (t.run >>= fun _ => x))
    (hl : LinkedRow g ts cont) {x : Traced Unit} (hx : Follows g cont x) :
    Follows g (entryOf ts cont) (runAll ts >>= fun _ => x) := by
  induction ts with
  | nil => simpa [runAll, entryOf] using hx
  | cons t ts ihts =>
    have rest := ihts (fun u hu => ih u (by simp [hu])) hl.2
    rw [runAll, bind_assoc]
    exact ih t (by simp) hl.1 rest

/-- Every unit of the tree runs to its end and calls only its own fragments. -/
def Callable (t : HostTree) : Prop :=
  ∀ s ∈ t.subtrees, (∀ next, .ret next ∉ s.face.kind.code) ∧
    ∀ root, .call root ∈ s.face.kind.code → ∃ k ∈ s.kids, k.root = root

/-- One bound on the fuel serves for all trees of a list. -/
theorem exists_bound_of_follows {ks : List HostTree}
    (h : ∀ k ∈ ks, Follows g (some k.start) k.run) :
    ∃ i, ∀ fuel, i ≤ fuel → ∀ k ∈ ks, ∀ m, m.fault = none →
      loop g fuel (some k.start) m = settle k.run m := by
  induction ks with
  | nil => exact ⟨0, fun _ _ k hk => nomatch hk⟩
  | cons t ts ih =>
    obtain ⟨i, hi⟩ := h t (by simp)
    obtain ⟨j, hj⟩ := ih fun k hk => h k (by simp [hk])
    refine ⟨max i j, fun fuel hf k hk => ?_⟩
    rcases List.mem_cons.mp hk with rfl | hk
    · exact hi fuel (by omega)
    · exact hj fuel (by omega) k hk

/-- The tree that a call-back names is one of the list. -/
theorem exists_runNamed_eq {ks : List HostTree} {root : OpId} (h : ∃ k ∈ ks, k.root = root) :
    ∃ k ∈ ks, k.root = root ∧ runNamed ks root = (settle k.run).erase := by
  induction ks with
  | nil => simp at h
  | cons t ts ih =>
    by_cases ht : t.root = root
    · exact ⟨t, by simp, ht, by rw [runNamed, if_pos ht]⟩
    · obtain ⟨k, hk, hr, he⟩ := ih (by simpa [ht] using h)
      exact ⟨k, by simp [hk], hr, by rw [runNamed, if_neg ht, he]⟩

/-- A unit's call-back runs the fragment's tree. -/
theorem callFragment_eq {ks : List HostTree} {n : Nat} (hn : 0 < n)
    (hstart : ∀ k ∈ ks, (∃ o, g.op? k.root = some o) ∧ g.startOf k.root = k.start)
    (hloop : ∀ k ∈ ks, ∀ m, m.fault = none → loop g n (some k.start) m = settle k.run m)
    {root : OpId} (hroot : ∃ k ∈ ks, k.root = root) :
    callFragment g (dispatch g n) root = above (runNamed ks root) := by
  obtain ⟨k, hk, rfl, hrun⟩ := exists_runNamed_eq hroot
  obtain ⟨⟨o, ho⟩, hs⟩ := hstart k hk
  have body : dispatch g n (some k.start) = unlessFailed (runNamed ks k.root) := by
    funext m
    rw [← erase_loop, hrun]
    unfold unlessFailed
    rw [Effect.get_bind]
    cases hm : m.fault with
    | none => exact congrArg Prod.snd (hloop k hk m hm)
    | some f =>
      obtain ⟨n, rfl⟩ : ∃ i, n = i + 1 := ⟨n - 1, by omega⟩
      exact congrArg Prod.snd (loop_of_fault hm n _)
  unfold callFragment above
  rw [ho, hs, body]

/-- **One unit**, after which the loop goes on after its op. -/
theorem follows_unit {ks : List HostTree} (ho : g.op? id = some op) (hu : op.kind.shape = .unit)
    (hret : ∀ next, .ret next ∉ op.kind.code)
    (hcall : ∀ root, .call root ∈ op.kind.code → ∃ k ∈ ks, k.root = root)
    (hstart : ∀ k ∈ ks, (∃ o, g.op? k.root = some o) ∧ g.startOf k.root = k.start)
    (hks : ∀ k ∈ ks, Follows g (some k.start) k.run) {x : Traced Unit}
    (hnext : Follows g op.next x) :
    Follows g (some id) ((node id op.face ks).run >>= fun _ => x) := by
  obtain ⟨i, hi⟩ := hnext
  obtain ⟨j, hj⟩ := exists_bound_of_follows hks
  refine ⟨i + j + 2, fun fuel hf m hm => ?_⟩
  obtain ⟨n, rfl⟩ : ∃ n, fuel = n + 2 := ⟨fuel - 2, by omega⟩
  have callBack : performAll (callFragment g (dispatch g (n + 1))) op.kind.code {} =
      performAll (fun root => above (runNamed ks root)) op.kind.code {} :=
    performAll_congr (fun root hr => callFragment_eq (by omega) hstart (hj (n + 1) (by omega))
      (hcall root hr)) {}
  have acted : (node id op.face ks).run m = ([id], runUnit id op.kind.code
      (fun root => above (runNamed ks root)) m) := by
    rw [run_unit hu]
    rfl
  have unit : runUnit id op.kind.code (fun root => above (runNamed ks root)) m =
      (performAll (fun root => above (runNamed ks root)) op.kind.code {} >>= fun _ => raise)
        { m with current := some id } := by
    unfold runUnit
    rw [Effect.modify_bind]
  rw [loop_unit ho hu hm, bind_ok (x := note id) rfl, lift_bind_apply]
  dsimp only [modify, modifyGet, MonadStateOf.modifyGet, EStateM.modifyGet]
  rw [lift_bind_apply, runCode_eq hret, callBack]
  cases hp : performAll (fun root => above (runNamed ks root)) op.kind.code {}
      { m with current := some id } with
  | error h m' =>
    rw [unit, Effect.bind_error hp] at acted
    obtain rfl := Recording.performAll (fun root => recording_above (steady_runNamed ks root))
      op.kind.code {} _ _ _ hp
    simp only [Effect.bind_error hp, settle, bind_error acted, List.append_nil]
  | ok r m' =>
    -- a fault that a call-back has recorded is raised by the unit's tree and stops the loop
    rw [unit, Effect.bind_ok hp] at acted
    have current : m'.current = some id := current_performAll (fun _ _ _ => current_above) hp
    have next : m'.successor g = op.next := by
      unfold successor
      rw [current, Option.bind_some, ho, Option.bind_some]
    simp only [Effect.bind_ok hp, Effect.get_bind, next]
    unfold raise at acted
    rw [Effect.get_bind] at acted
    cases hf : m'.fault with
    | none =>
      rw [hf] at acted
      rw [settle_bind_ok acted, ← hi (n + 1) (by omega) m' hf]
      rfl
    | some f =>
      rw [hf] at acted
      rw [settle_of_fault (bind_error acted), fail_of_fault hf]
      exact congrArg (fun r => ([id] ++ r.1, r.2)) (loop_of_fault hf n op.next)

/-- **The loop runs a linked tree**, and then goes on with what comes after it.

Where a kid leads to is the start of its next sibling, or the op itself, so the kids are followed
from the last to the first, each with all that comes after it as its rest. -/
theorem Linked.follows {t : HostTree} (hl : Linked g t cont) (hn : t.ids.Nodup) (hc : Callable t)
    {x : Traced Unit} (hx : Follows g cont x) :
    Follows g (some t.start) (t.run >>= fun _ => x) := by
  -- a kid is followed by its siblings and its op, so the induction is for every rest `x`
  induction t using induction generalizing cont x with
  | step id f ks ih =>
    have below : ∀ k ∈ ks, k ∈ (node id f ks).subtrees := fun k hk =>
      subtrees_of_kid (t := node id f ks) hk
    have kid : ∀ k ∈ ks, ∀ {cont x}, Linked g k cont → Follows g cont x →
        Follows g (some k.start) (k.run >>= fun _ => x) := fun k hk _ _ hl hx =>
      ih k hk hl (nodup_of_mem hk (nodup_kids hn).2)
        (fun s hs => hc s (subtrees_trans hs (below k hk))) hx
    cases hs : f.kind.shape with
    | plain =>
      obtain ⟨op, ho, rfl, -, rfl, hrow⟩ := (linked_plain hs).mp hl
      have notUnit : op.kind.shape ≠ .unit := by rw [show op.kind.shape = _ from hs]; simp
      have here : Follows g (some id) (act id op.face >>= fun _ => x) :=
        follows_op ho notUnit hx fun h => by rw [show op.kind.shape = _ from hs] at h; simp at h
      have row := follows_row kid hrow here
      rw [entryOf_kids (f := op.face) notUnit] at row
      rw [run_plain hs]
      simpa only [bind_assoc, pure_bind] using row
    | listed =>
      obtain ⟨op, ho, rfl, -, rfl, hrow⟩ := (linked_listed hs).mp hl
      have notUnit : op.kind.shape ≠ .unit := by rw [show op.kind.shape = _ from hs]; simp
      cases ks with
      | nil =>
        rw [run_listed_nil hs, start_leaf]
        simp only [bind_assoc, pure_bind]
        exact follows_op ho notUnit hx fun h => by rw [show op.kind.shape = _ from hs] at h; simp at h
      | cons k ks =>
        rw [run_listed_cons hs (by simp), start_cons notUnit]
        exact follows_row kid hrow hx
    | short =>
      obtain ⟨l, r, rfl, op, ho, rfl, -, rfl, hother, hleft, hright⟩ := (linked_short hs).mp hl
      have notUnit : op.kind.shape ≠ .unit := by rw [show op.kind.shape = _ from hs]; simp
      have right := kid r (by simp) hright hx
      have here : Follows g (some id) (act id op.face >>= fun b =>
          (if b then r.run else pure ()) >>= fun _ => x) := by
        refine follows_op ho notUnit ?_ fun _ => ?_
        · simpa using hx
        · rw [hother]
          exact right
      rw [run_short hs, start_cons notUnit]
      simpa only [bind_assoc] using kid l (by simp) hleft here
    | choice =>
      obtain ⟨c, y, n, rfl, op, ho, rfl, -, hnext, hother, htest, hyes, hno⟩ :=
        (linked_choice hs).mp hl
      have notUnit : op.kind.shape ≠ .unit := by rw [show op.kind.shape = _ from hs]; simp
      have yes := kid y (by simp) hyes hx
      have no := kid n (by simp) hno hx
      have here : Follows g (some id) (act id op.face >>= fun b =>
          (if b then y.run else n.run) >>= fun _ => x) := by
        refine follows_op ho notUnit ?_ fun _ => ?_
        · rw [hnext]
          exact no
        · rw [hother]
          exact yes
      rw [run_choice hs, start_cons notUnit]
      simpa only [bind_assoc] using kid c (by simp) htest here
    | unit =>
      have reads := reads_node.mp hl.reads
      obtain ⟨op, ho, rfl, -, rfl, heach⟩ := (linked_unit hs).mp hl
      obtain ⟨hret, hcall⟩ := hc _ (mem_subtrees_self _)
      rw [start_unit hs]
      refine follows_unit ho hs hret hcall (fun k hk => ⟨?_, ?_⟩) (fun k hk => ?_) hx
      · obtain ⟨o, ho, -⟩ := reads.2 k hk k (mem_subtrees_self k)
        exact ⟨o, ho⟩
      · exact (reads.2 k hk).startOf (nodup_of_mem hk (nodup_kids hn).2)
      · simpa using kid k hk (linkedEach_iff.mp heach k hk) (follows_none g)

theorem code_of_interpreted {k : OpKind} (h : k.shape ≠ .unit) : k.code = [] := by
  cases k <;> first | rfl | exact absurd rfl h

theorem callable_of_interpreted {t : HostTree} (h : ∀ s ∈ t.subtrees, s.shape ≠ .unit) :
    Callable t := by
  intro s hs
  have code : s.face.kind.code = [] := code_of_interpreted (h s hs)
  simp [code]

end HostTree

/-! ### Whole runs -/

/-- A whole run whose ops are executed by `x`: a fault puts back what was declared. -/
def Machine.whole (x : MachineM Unit) : MachineM Unit := do
  modify fresh
  let depth := (← get).saves.length
  x
  modify fun m => { m with current := none }
  match (← get).fault with
  | some f =>
    modify fun m => { m.unwind depth with fault := none }
    throw (.fault f)
  | none => modify fun m => m.forget depth

theorem Machine.run_eq_whole {g : Graph} {entry : OpId} (h : g.entry = some entry) (fuel : Nat) :
    run g fuel = whole (dispatch g fuel (some entry)) := by
  unfold run whole
  generalize g.entry = start at h
  subst h
  rfl

/-- What the ops of a whole run do to a machine without a fault is all that counts. -/
theorem Machine.whole_congr {x y : MachineM Unit} {m : Machine} (h : x m.fresh = y m.fresh) :
    whole x m = whole y m := by
  unfold whole
  simp only [Effect.modify_bind, Effect.get_bind]
  show EStateM.bind x _ _ = EStateM.bind y _ _
  unfold EStateM.bind
  rw [h]

namespace Graph

open HostTree

/-- **Linking makes a tree executable.** In a graph without units, in which no op is listed
twice as a kid or is below itself, what a successful linking of `root` leaves is run as the
tree below `root`: the loop executes the same ops in the same order, each at most once, with
the same effect on the machine and the same fault, and it comes to an end.

What is below `root` is read as a tree, and linking leaves this tree linked.  Then the loop is
followed through it, by induction over the tree: from the start of a subtree it does what running
the subtree does, and goes on with the op that the subtree leads to. -/
theorem run_link {g g' : Graph} {root entry : OpId} (hi : Interpreted g) (hu : Unshared g)
    (ha : Acyclic g) (h : link root g = .ok entry g') :
    ∃ t : HostTree, t.root = root ∧ Reads g t ∧ ∃ bound, ∀ fuel, bound ≤ fuel → ∀ m : Machine,
      loop g' fuel (some entry) m.fresh = settle t.run m.fresh ∧
      dispatch g' fuel (some entry) m.fresh = (settle t.run m.fresh).2 ∧
      (t.run m.fresh).1.Nodup ∧
      (∀ m', (t.run m.fresh).2 ≠ .error .outOfFuel m') ∧
      Machine.run g' fuel m = whole (settle t.run).erase m := by
  obtain ⟨t, ht, hreads, nodup, interpreted, rfl, linked, hentry, -⟩ := link_linked hi hu ha h
  obtain ⟨bound, follows⟩ :=
    linked.follows nodup (callable_of_interpreted interpreted) (follows_none g')
  refine ⟨t, ht, hreads, bound, fun fuel hfuel m => ?_⟩
  have same : loop g' fuel (some t.start) m.fresh = settle t.run m.fresh := by
    simpa using follows fuel hfuel m.fresh rfl
  have dispatched : dispatch g' fuel (some t.start) m.fresh = (settle t.run m.fresh).2 := by
    rw [← erase_loop]
    exact congrArg Prod.snd same
  refine ⟨same, dispatched, nodup_trace nodup _, fun m' hm' => ?_, ?_⟩
  · have steady := steady_run t m.fresh rfl
    simp only [erase, hm'] at steady
    exact steady.1 rfl
  · rw [run_eq_whole hentry]
    exact whole_congr dispatched

/-- A variable, and a constant if it is true. -/
def conjunction : Graph where
  owner := ⟨0⟩
  ops := #[{ kind := .lexical ⟨0⟩ false }, { kind := .const (.num 1) },
    { kind := .and, kids := [⟨0⟩, ⟨1⟩] }]

theorem run_link_conjunction : ∃ g', link ⟨2⟩ conjunction = .ok ⟨0⟩ g' ∧
    Interpreted conjunction ∧ Unshared conjunction ∧ Acyclic conjunction ∧
    ∃ t : HostTree, t.root = ⟨2⟩ ∧ Reads conjunction t ∧ ∃ bound, ∀ fuel, bound ≤ fuel →
      ∀ m : Machine, loop g' fuel (some ⟨0⟩) m.fresh = settle t.run m.fresh ∧
        dispatch g' fuel (some ⟨0⟩) m.fresh = (settle t.run m.fresh).2 ∧
        (t.run m.fresh).1.Nodup ∧ (∀ m', (t.run m.fresh).2 ≠ .error .outOfFuel m') ∧
        Machine.run g' fuel m = whole (settle t.run).erase m := by
  have ops : ∀ id op, conjunction.op? id = some op →
      (op.kids = [] ∨ id.index = 2 ∧ op.kids = [⟨0⟩, ⟨1⟩]) ∧ op.kind.shape ≠ .unit := by
    rintro ⟨i⟩ op ho
    match i, ho with
    | 0, ho => cases ho; exact ⟨.inl rfl, by decide⟩
    | 1, ho => cases ho; exact ⟨.inl rfl, by decide⟩
    | 2, ho => cases ho; exact ⟨.inr ⟨rfl, rfl⟩, by decide⟩
  have interpreted : Interpreted conjunction := fun id op ho => (ops id op ho).2
  have unshared : Unshared conjunction := by unfold Unshared; decide
  have acyclic : Acyclic conjunction := by
    refine acyclic_of_lt ?_
    rintro a b ⟨op, ho, hb⟩
    rcases (ops a op ho).1 with h | ⟨ha, h⟩
    · rw [h] at hb; cases hb
    · rw [h] at hb
      rw [ha]
      rcases List.mem_pair.mp hb with rfl | rfl <;> decide
  exact ⟨_, rfl, interpreted, unshared, acyclic, run_link interpreted unshared acyclic rfl⟩

end Graph

end Graft
