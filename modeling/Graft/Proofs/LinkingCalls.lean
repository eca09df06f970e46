import Graft.Machine.Dispatch
import Graft.Proofs.FirstOps

/-! # The calls that linking makes

Linking an op comes down to linking its kids, each with the op to continue with after it.  With such
a *task* goes an answer, the op where the subtree begins, and linking proceeds from the last kid to
the first, since the answer for one kid is what the kid before it continues with.

This module looks at a whole run of `Graph.link` with all the calls in it.  `Graph.linkLogged` is
the same recursion, with a list of its calls (`Graph.linkLogged_shadows`); an op that is a kid of
several ops is linked several times, and is in the list as often.  `Graph.subtasks` says forwards,
by `Graph.startOf`, which tasks a task comes down to.  The two agree (`Graph.Journey`): the calls
are the tasks that the root leads to, the answer of each is where `Graph.startOf` says that the op
begins, and the links that are left in the graph lead there.

A graph may be shared below, and need not be a tree.  An op that is linked again gets other links,
so what holds after one call may not hold at the end.  `Journey` is therefore about any property `P`
of tasks that holds of all tasks which the calls come down to: an op that is linked as some task of
`P` demands stays so, because whatever links it again is a task of `P` too.  Journeys are put
together one after the other, and one level of linking is a journey through some kids, a step that
sets links of the op, and a journey through the other kids.

The recursion has a bound on levels, which only graphs that are not acyclic can meet
(`Graph.linkWithin_of_acyclic`).
-/

namespace Graft.Graph

/-! ### Tasks -/

/-- An op to be linked, and the op to continue with. -/
structure Task where
  op : OpId
  cont : Option OpId

/-- A task that was carried out, and the first op that it answered. -/
structure Call where
  task : Task
  first : OpId

/-- Where a row of ops begins that continues at `cont`. -/
def rowStart (g : Graph) : List OpId → Option OpId → Option OpId
  | [], cont => cont
  | k :: _, _ => some (g.startOf k)

/-- The ops of a row, each of which continues where the next one begins. -/
def rowTasks (g : Graph) : List OpId → Option OpId → List Task
  | [], _ => []
  | k :: ks, cont => ⟨k, g.rowStart ks cont⟩ :: g.rowTasks ks cont

/-- **The tasks that a task comes down to.**  The kids of a unit are not linked. -/
def subtasks (g : Graph) (t : Task) : List Task :=
  match g.outline t.op with
  | none => []
  | some (kind, kids) =>
    match kind.shape, kids with
    | .plain, ks => g.rowTasks ks (some t.op)
    | .listed, ks => g.rowTasks ks t.cont
    | .short, [left, right] => [⟨left, some t.op⟩, ⟨right, t.cont⟩]
    | .choice, [condition, yes, no] => [⟨condition, some t.op⟩, ⟨yes, t.cont⟩, ⟨no, t.cont⟩]
    | _, _ => []

def Subtask (g : Graph) (t u : Task) : Prop := u ∈ g.subtasks t

/-- The links that an op gets when it is linked to continue at `cont`: its own, and that of the
branch which it may take. -/
def linksFor (g : Graph) (op : Op) (cont : Option OpId) : Option OpId × Option OpId :=
  match op.kind.shape, op.kids with
  | .short, [_, right] => (cont, some (g.startOf right))
  | .choice, [_, yes, no] => (some (g.startOf no), some (g.startOf yes))
  | _, _ => (cont, op.other)

/-- The op has the links of one of the tasks in `P`. -/
def LinkedBy (g : Graph) (P : Task → Prop) (x : OpId) : Prop :=
  ∃ op cont, g.op? x = some op ∧ P ⟨x, cont⟩ ∧ (op.next, op.other) = g.linksFor op cont

section Congruence

variable {g g' : Graph} (h : g'.outline = g.outline)
include h

theorem rowStart_congr (ks : List OpId) (cont : Option OpId) :
    g'.rowStart ks cont = g.rowStart ks cont := by
  cases ks with
  | nil => rfl
  | cons k ks => rw [rowStart, rowStart, startOf_congr h]

theorem rowTasks_congr (ks : List OpId) (cont : Option OpId) :
    g'.rowTasks ks cont = g.rowTasks ks cont := by
  induction ks with
  | nil => rfl
  | cons k ks ih => rw [rowTasks, rowTasks, rowStart_congr h, ih]

theorem subtask_congr : g'.Subtask = g.Subtask := by
  funext t u
  simp only [Subtask, subtasks, h, rowTasks_congr h]

theorem linksFor_congr (op : Op) (cont : Option OpId) :
    g'.linksFor op cont = g.linksFor op cont := by
  simp only [linksFor, startOf_congr h]

end Congruence

/-! ### Linking with a list of its calls -/

/-- A change of a graph that lists the calls made in the course of it. -/
abbrev LoggedM := EStateM Fault (Graph × List Call)

/-- A change that is no call. -/
def silently {α : Type} (x : GraphM α) : LoggedM α := fun s =>
  match x s.1 with
  | .ok a g => .ok a (g, s.2)
  | .error e g => .error e (g, s.2)

instance : MonadLift GraphM LoggedM := ⟨silently⟩

/-- **One level of linking**, the kids linked by `below`. -/
def linkLevel {m : Type → Type} [Monad m] [MonadLiftT GraphM m]
    (below : OpId → Option OpId → m OpId) (id : OpId) (cont : Option OpId) : m OpId := do
  let op ← find id
  match op.kind with
  | .statements =>
    change id fun o => { o with next := cont }
    let first ← op.kids.foldrM (fun kid c => some <$> below kid c) cont
    return if op.kids.isEmpty then id else first.getD id
  | .and | .or =>
    match op.kids with
    | [left, right] =>
      let other ← below right cont
      change id fun o => { o with next := cont, other := some other }
      below left (some id)
    | _ => liftM (throw (.notExecutable id) : GraphM OpId)
  | .cond =>
    match op.kids with
    | [condition, yes, no] =>
      let other ← below yes cont
      let next ← below no cont
      change id fun o => { o with next := some next, other := some other }
      below condition (some id)
    | _ => liftM (throw (.notExecutable id) : GraphM OpId)
  | .native _ =>
    change id fun o => { o with next := cont }
    return id
  | _ =>
    change id fun o => { o with next := cont }
    op.kids.foldrM (fun kid c => below kid (some c)) id

/-- Linking is one level of it after the other. -/
theorem linkWithin_succ (n : Nat) (id : OpId) (cont : Option OpId) :
    linkWithin (n + 1) id cont = linkLevel (linkWithin n) id cont := rfl

/-- Linking that lists every call when it answers. -/
def linkLogged : Nat → OpId → Option OpId → LoggedM OpId
  | 0, id, _ => throw (.notExecutable id)
  | n + 1, id, cont => do
    let first ← linkLevel (linkLogged n) id cont
    modify fun s => (s.1, s.2 ++ [⟨⟨id, cont⟩, first⟩])
    return first

/-- Linking a root, with a list of all calls. -/
def logCalls (root : OpId) : LoggedM OpId := do
  discard (find root : LoggedM Op)
  let entry ← linkLogged ((← get).1.size + 1) root none
  modify fun s => ({ s.1 with root := some root, entry := some entry }, s.2)
  return entry

/-! ### The list changes nothing -/

/-- A result without the list. -/
def unlogged {α : Type} : EStateM.Result Fault (Graph × List Call) α → EStateM.Result Fault Graph α
  | .ok a s => .ok a s.1
  | .error e s => .error e s.1

/-- Apart from the list the one computation is the other. -/
def Shadows {α : Type} (x : LoggedM α) (y : GraphM α) : Prop := ∀ s, unlogged (x s) = y s.1

namespace Shadows

variable {α β : Type} {x : LoggedM α} {y : GraphM α}

theorem pure (a : α) : Shadows (Pure.pure a) (Pure.pure a) := fun _ => rfl

theorem silently (y : GraphM α) : Shadows (silently y) y := by
  intro s
  unfold Graph.silently
  cases y s.1 <;> rfl

theorem bind {f : α → LoggedM β} {k : α → GraphM β} (hx : Shadows x y)
    (hf : ∀ a, Shadows (f a) (k a)) : Shadows (x >>= f) (y >>= k) := by
  intro s
  have same := hx s
  cases h : x s with
  | ok a s' =>
    rw [h] at same
    rw [Effect.bind_ok h, Effect.bind_ok same.symm]
    exact hf a s'
  | error e s' =>
    rw [h] at same
    rw [Effect.bind_error h, Effect.bind_error same.symm]
    rfl

theorem map (f : α → β) (hx : Shadows x y) : Shadows (f <$> x) (f <$> y) := by
  rw [← bind_pure_comp, ← bind_pure_comp]
  exact hx.bind fun a => .pure (f a)

theorem foldrM {f : α → β → LoggedM β} {k : α → β → GraphM β} (h : ∀ a b, Shadows (f a b) (k a b))
    (l : List α) (b : β) : Shadows (l.foldrM f b) (l.foldrM k b) := by
  induction l with
  | nil => exact .pure b
  | cons a l ih =>
    rw [List.foldrM_cons, List.foldrM_cons]
    exact ih.bind fun c => h a c

theorem linkLevel {below : OpId → Option OpId → LoggedM OpId}
    {below' : OpId → Option OpId → GraphM OpId} (h : ∀ kid c, Shadows (below kid c) (below' kid c))
    (id : OpId) (cont : Option OpId) :
    Shadows (linkLevel below id cont) (linkLevel below' id cont) := by
  unfold Graph.linkLevel
  refine .bind (.silently _) fun op => ?_
  cases op.kind
  case statements =>
    exact .bind (.silently _) fun _ =>
      .bind (.foldrM (fun kid c => (h kid c).map _) _ _) fun _ => .pure _
  case cond =>
    rcases op.kids with _ | ⟨c, _ | ⟨y, _ | ⟨m, _ | ⟨k, ks⟩⟩⟩⟩
    case cons.cons.cons.nil =>
      exact .bind (h y cont) fun _ => .bind (h m cont) fun _ => .bind (.silently _) fun _ => h c _
    all_goals exact .silently _
  case and | or =>
    rcases op.kids with _ | ⟨l, _ | ⟨r, _ | ⟨k, ks⟩⟩⟩
    case cons.cons.nil =>
      exact .bind (h r cont) fun _ => .bind (.silently _) fun _ => h l _
    all_goals exact .silently _
  case native => exact .bind (.silently _) fun _ => .pure _
  all_goals
    exact .bind (.silently _) fun _ => .foldrM (fun kid c => h kid (some c)) _ _

end Shadows

/-- **Linking and listing the calls is linking.** -/
theorem linkLogged_shadows (n : Nat) (id : OpId) (cont : Option OpId) :
    Shadows (linkLogged n id cont) (linkWithin n id cont) := by
  induction n generalizing id cont with
  | zero => exact fun _ => rfl
  | succ n ih =>
    intro s
    have level := Shadows.linkLevel ih id cont s
    rw [linkWithin_succ, ← level, linkLogged]
    cases h : linkLevel (linkLogged n) id cont s with
    | ok first s' => rw [Effect.bind_ok h]; rfl
    | error e s' => rw [Effect.bind_error h]

theorem logCalls_shadows (root : OpId) : Shadows (logCalls root) (link root) := by
  refine .bind ((Shadows.silently _).map _) fun _ => ?_
  intro s
  have linked := linkLogged_shadows (s.1.size + 1) root none s
  rw [Effect.get_bind, Effect.get_bind]
  cases h : linkLogged (s.1.size + 1) root none s with
  | ok entry s' =>
    rw [h] at linked
    rw [Effect.bind_ok h, Effect.bind_ok linked.symm]
    rfl
  | error e s' =>
    rw [h] at linked
    rw [Effect.bind_error h, Effect.bind_error linked.symm]
    rfl

/-! ### One level with its calls -/

variable {g g' : Graph} {n : Nat} {id first : OpId} {cont : Option OpId} {l l' : List Call}

/-- Link a row of kids from the last to the first. -/
def rowLogged (n : Nat) (kids : List OpId) (cont : Option OpId) : LoggedM (Option OpId) :=
  kids.foldrM (fun kid c => some <$> linkLogged n kid c) cont

theorem rowLogged_cons (k : OpId) (ks : List OpId) (cont : Option OpId) :
    rowLogged n (k :: ks) cont = rowLogged n ks cont >>= fun c => some <$> linkLogged n k c := by
  simp only [rowLogged, List.foldrM_cons]

theorem map_some_foldrM_logged (kids : List OpId) (id : OpId) :
    (some <$> kids.foldrM (fun kid c => linkLogged n kid (some c)) id : LoggedM (Option OpId)) =
      rowLogged n kids (some id) := by
  induction kids with
  | nil => simp [rowLogged]
  | cons kid kids ih =>
    rw [rowLogged_cons, ← ih, List.foldrM_cons, map_bind, bind_map_left]

theorem silently_eq_ok {α : Type} {x : GraphM α} {a : α} {s s' : Graph × List Call} :
    silently x s = .ok a s' ↔ x s.1 = .ok a s'.1 ∧ s'.2 = s.2 := by
  unfold silently
  cases x s.1 with
  | ok b g => simp [Prod.ext_iff, eq_comm, and_assoc]
  | error e g => simp

theorem silently_find_eq_ok {op : Op} {s s' : Graph × List Call} :
    silently (find id) s = .ok op s' ↔ s.1.op? id = some op ∧ s' = s := by
  rw [silently_eq_ok, find_eq_ok, Prod.ext_iff, and_assoc]

theorem silently_change_eq_ok {f : Op → Op} {s' : Graph × List Call} :
    silently (change id f) (g, l) = .ok () s' ↔
      (∃ op, g.op? id = some op) ∧ s' = (g.update id f, l) := by
  rw [silently_eq_ok, change_eq_ok, Prod.ext_iff, and_assoc]

theorem linkLogged_eq_ok (h : linkLogged (n + 1) id cont (g, l) = .ok first (g', l')) :
    ∃ l₁, linkLevel (linkLogged n) id cont (g, l) = .ok first (g', l₁) ∧
      l' = l₁ ++ [⟨⟨id, cont⟩, first⟩] := by
  rw [linkLogged] at h
  obtain ⟨f, ⟨g₁, l₁⟩, hl, h⟩ := Effect.bind_eq_ok.mp h
  cases h
  exact ⟨l₁, hl, rfl⟩

/-- **What one level comes to**, by the shape of the op. -/
theorem linkLevel_cases (h : linkLevel (linkLogged n) id cont (g, l) = .ok first (g', l')) :
    ∃ op, g.op? id = some op ∧
      match op.kind.shape with
      | .plain =>
        rowLogged n op.kids (some id) (g.update id fun o => { o with next := cont }, l) =
          .ok (some first) (g', l')
      | .listed => ∃ c,
        rowLogged n op.kids cont (g.update id fun o => { o with next := cont }, l) = .ok c (g', l')
      | .short => ∃ left right other g₁ l₁, op.kids = [left, right] ∧
        linkLogged n right cont (g, l) = .ok other (g₁, l₁) ∧
        linkLogged n left (some id)
          (g₁.update id fun o => { o with next := cont, other := some other }, l₁) =
            .ok first (g', l')
      | .choice => ∃ condition yes no other next g₁ l₁ g₂ l₂, op.kids = [condition, yes, no] ∧
        linkLogged n yes cont (g, l) = .ok other (g₁, l₁) ∧
        linkLogged n no cont (g₁, l₁) = .ok next (g₂, l₂) ∧
        linkLogged n condition (some id)
          (g₂.update id fun o => { o with next := some next, other := some other }, l₂) =
            .ok first (g', l')
      | .unit => g' = (g.update id fun o => { o with next := cont }) ∧ l' = l := by
  unfold linkLevel at h
  obtain ⟨op, s₀, hf, h⟩ := Effect.bind_eq_ok.mp h
  obtain ⟨ho, rfl⟩ := silently_find_eq_ok.mp hf
  refine ⟨op, ho, ?_⟩
  cases hk : op.kind <;> simp only [hk, OpKind.shape] at h ⊢
  case and | or =>
    rcases hks : op.kids with _ | ⟨left, _ | ⟨right, _ | ⟨k, ks⟩⟩⟩ <;> rw [hks] at h
    case cons.cons.nil =>
      obtain ⟨other, ⟨g₁, l₁⟩, hr, h⟩ := Effect.bind_eq_ok.mp h
      obtain ⟨_, s₂, hc, h⟩ := Effect.bind_eq_ok.mp h
      obtain ⟨-, rfl⟩ := silently_change_eq_ok.mp hc
      exact ⟨left, right, other, g₁, l₁, rfl, hr, h⟩
    all_goals cases h
  case cond =>
    rcases hks : op.kids with _ | ⟨c, _ | ⟨yes, _ | ⟨no, _ | ⟨k, ks⟩⟩⟩⟩ <;> rw [hks] at h
    case cons.cons.cons.nil =>
      obtain ⟨other, ⟨g₁, l₁⟩, hy, h⟩ := Effect.bind_eq_ok.mp h
      obtain ⟨next, ⟨g₂, l₂⟩, hn, h⟩ := Effect.bind_eq_ok.mp h
      obtain ⟨_, s₃, hc, h⟩ := Effect.bind_eq_ok.mp h
      obtain ⟨-, rfl⟩ := silently_change_eq_ok.mp hc
      exact ⟨c, yes, no, other, next, g₁, l₁, g₂, l₂, rfl, hy, hn, h⟩
    all_goals cases h
  case statements =>
    obtain ⟨_, s₁, hc, h⟩ := Effect.bind_eq_ok.mp h
    obtain ⟨-, rfl⟩ := silently_change_eq_ok.mp hc
    obtain ⟨c, ⟨g₂, l₂⟩, hr, h⟩ := Effect.bind_eq_ok.mp h
    cases h
    exact ⟨c, hr⟩
  case native =>
    obtain ⟨_, s₁, hc, h⟩ := Effect.bind_eq_ok.mp h
    obtain ⟨-, rfl⟩ := silently_change_eq_ok.mp hc
    cases h
    exact ⟨rfl, rfl⟩
  all_goals
    obtain ⟨_, s₁, hc, h⟩ := Effect.bind_eq_ok.mp h
    obtain ⟨-, rfl⟩ := silently_change_eq_ok.mp hc
    rw [← map_some_foldrM_logged, Effect.map_ok h]

/-! ### Where the calls lead -/

/-- **A stretch of linking.**  It keeps the outline; its calls are those that its tasks lead to,
each with the first op as its answer; and where `P` holds of its tasks and of all that they come
down to, ops that are linked by `P` stay so, and all ops that it calls for become so. -/
structure Journey (g g' : Graph) (tasks : List Task) (calls : List Call) : Prop where
  outline : g'.outline = g.outline
  exact : ∀ c, c ∈ calls ↔ (∃ t ∈ tasks, Relation.ReflTransGen g.Subtask t c.task) ∧
    c.first = g.startOf c.task.op
  links : ∀ P : Task → Prop, (∀ t u, P t → g.Subtask t u → P u) → (∀ t ∈ tasks, P t) →
    (∀ x, g.LinkedBy P x → g'.LinkedBy P x) ∧ ∀ c ∈ calls, g'.LinkedBy P c.task.op

namespace Journey

variable {tasks tasks' : List Task} {calls calls' : List Call} {g₁ : Graph}

theorem refl (g : Graph) : Journey g g [] [] :=
  ⟨rfl, by simp, fun _ _ _ => ⟨fun _ h => h, nofun⟩⟩

theorem trans (h : Journey g g₁ tasks calls) (h' : Journey g₁ g' tasks' calls') :
    Journey g g' (tasks' ++ tasks) (calls ++ calls') := by
  have same := h.outline
  refine ⟨h'.outline.trans same, fun c => ?_, fun P closed all => ?_⟩
  · rw [List.mem_append, h.exact, h'.exact, subtask_congr same, startOf_congr same, ← or_and_right]
    refine and_congr_left fun _ => ?_
    simp only [List.mem_append, or_and_right, exists_or]
    exact or_comm
  · obtain ⟨all', all⟩ := List.forall_mem_append.mp all
    obtain ⟨keeps, linked⟩ := h.links P closed all
    obtain ⟨keeps', linked'⟩ := h'.links P (subtask_congr same ▸ closed) all'
    exact ⟨fun x hx => keeps' x (keeps x hx),
      List.forall_mem_append.mpr ⟨fun c hc => keeps' _ (linked c hc), linked'⟩⟩

/-- **An op is linked**: some of its kids, then its own links, then the other kids.  The subtasks
are those of the two stretches before and after. -/
theorem node {op : Op} {f : Op → Op} (before : Journey g g₁ tasks calls)
    (after : Journey (g₁.update id f) g' tasks' calls') (ho : g.op? id = some op)
    (kind : ∀ o, (f o).kind = o.kind) (kids : ∀ o, (f o).kids = o.kids)
    (hf : ∀ o, o.kind = op.kind → o.kids = op.kids →
      ((f o).next, (f o).other) = g.linksFor (f o) cont)
    (hsub : ∀ t, t ∈ tasks' ++ tasks ↔ g.Subtask ⟨id, cont⟩ t) :
    Journey g g' [⟨id, cont⟩] (calls ++ calls' ++ [⟨⟨id, cont⟩, g.startOf id⟩]) := by
  have same : (g₁.update id f).outline = g₁.outline := outline_update kind kids
  have outline := same.trans before.outline
  refine ⟨after.outline.trans outline, fun c => ?_, fun P closed all => ?_⟩
  · have self : c = ⟨⟨id, cont⟩, g.startOf id⟩ ↔
        ⟨id, cont⟩ = c.task ∧ c.first = g.startOf c.task.op := by
      obtain ⟨t, f⟩ := c
      constructor
      · rintro ⟨⟩
        exact ⟨rfl, rfl⟩
      · rintro ⟨rfl, hf⟩
        exact congrArg (Call.mk _) hf
    have below : (∃ u, g.Subtask ⟨id, cont⟩ u ∧ Relation.ReflTransGen g.Subtask u c.task) ↔
        (∃ t ∈ tasks, Relation.ReflTransGen g.Subtask t c.task) ∨
          ∃ t ∈ tasks', Relation.ReflTransGen g.Subtask t c.task := by
      simp only [← hsub, List.mem_append, or_and_right, exists_or]
      exact or_comm
    rw [List.mem_append, List.mem_append, List.mem_singleton, before.exact, after.exact,
      subtask_congr outline, startOf_congr outline, self, ← or_and_right, ← or_and_right]
    refine and_congr_left fun _ => ?_
    simp only [List.mem_singleton, exists_eq_left]
    rw [Relation.ReflTransGen.cases_head_iff, below]
    exact or_comm
  · have here := List.forall_mem_singleton.mp all
    have below : ∀ t ∈ tasks' ++ tasks, P t := fun t ht => closed _ t here ((hsub t).mp ht)
    obtain ⟨below', below⟩ := List.forall_mem_append.mp below
    obtain ⟨keeps, linked⟩ := before.links P closed below
    obtain ⟨keeps', linked'⟩ := after.links P (subtask_congr outline ▸ closed) below'
    have set : (g₁.update id f).LinkedBy P id := by
      obtain ⟨o, ho₁, hk, hks⟩ := op?_of_outline
        ((congrFun before.outline id).trans (outline_of_op? ho))
      exact ⟨f o, cont, op?_update_self ho₁, here,
        (hf o hk hks).trans (linksFor_congr outline ..).symm⟩
    have step : ∀ x, g₁.LinkedBy P x → (g₁.update id f).LinkedBy P x := by
      rintro x ⟨o, c, hx, hP, hl⟩
      by_cases hne : x = id
      · exact hne ▸ set
      · exact ⟨o, c, (op?_update_of_ne hne).trans hx, hP, hl.trans (linksFor_congr same ..).symm⟩
    refine ⟨fun x hx => keeps' x (step x (keeps x hx)), ?_⟩
    simp only [List.forall_mem_append, List.forall_mem_singleton]
    exact ⟨⟨fun c hc => keeps' _ (step _ (linked c hc)), linked'⟩, keeps' id set⟩

end Journey

theorem linkLogged_first (h : linkLogged n id cont (g, l) = .ok first (g', l')) :
    first = g.startOf id := by
  have linked := linkLogged_shadows n id cont (g, l)
  rw [h] at linked
  rw [linkWithin_first linked.symm, startOf_congr (linkWithin_relinked linked.symm).outline]

/-- A row is linked from the right, each op to continue where the one after it begins. -/
theorem rowLogged_journey (ih : ∀ {kid cont g l first g' l'},
      linkLogged n kid cont (g, l) = .ok first (g', l') →
        ∃ new, l' = l ++ new ∧ Journey g g' [⟨kid, cont⟩] new)
    {kids : List OpId} {c : Option OpId} (h : rowLogged n kids cont (g, l) = .ok c (g', l')) :
    c = g.rowStart kids cont ∧ ∃ new, l' = l ++ new ∧ Journey g g' (g.rowTasks kids cont) new := by
  induction kids generalizing c g' l' with
  | nil =>
    cases h
    exact ⟨rfl, [], (List.append_nil l).symm, .refl g⟩
  | cons k ks ihk =>
    rw [rowLogged_cons] at h
    obtain ⟨c', ⟨g₁, l₁⟩, hr, h⟩ := Effect.bind_eq_ok.mp h
    obtain ⟨first, hk, rfl⟩ := Effect.map_eq_ok.mp h
    obtain ⟨rfl, rest, rfl, journey⟩ := ihk hr
    obtain ⟨new, rfl, last⟩ := ih hk
    refine ⟨?_, rest ++ new, List.append_assoc .., journey.trans last⟩
    rw [rowStart, linkLogged_first hk, startOf_congr journey.outline]

/-- **The calls of linking an op** are those that its task leads to.

By induction on the bound, one level at a time: the call for the op itself is listed last, after the
journeys of its kids. -/
theorem linkLogged_journey (h : linkLogged n id cont (g, l) = .ok first (g', l')) :
    ∃ new, l' = l ++ new ∧ Journey g g' [⟨id, cont⟩] new := by
  induction n generalizing id cont g l first g' l' with
  | zero => cases h
  | succ n ih =>
    have hfirst := linkLogged_first h
    obtain ⟨l₁, hlevel, rfl⟩ := linkLogged_eq_ok h
    obtain ⟨op, ho, hcase⟩ := linkLevel_cases hlevel
    subst hfirst
    have outline := outline_of_op? ho
    -- kids in a row are linked after the op's own link is set
    have row : ∀ {c' c : Option OpId},
        rowLogged n op.kids c' (g.update id fun o => { o with next := cont }, l) = .ok c (g', l₁) →
        (∀ o : Op, o.kind = op.kind → (cont, o.other) = g.linksFor { o with next := cont } cont) →
        (∀ t, t ∈ g.rowTasks op.kids c' ↔ g.Subtask ⟨id, cont⟩ t) →
        ∃ new, l₁ ++ [⟨⟨id, cont⟩, g.startOf id⟩] = l ++ new ∧ Journey g g' [⟨id, cont⟩] new := by
      intro c' c hrow hlinks hsub
      obtain ⟨-, new, rfl, row⟩ := rowLogged_journey ih hrow
      rw [rowTasks_congr (Relinked.setNext g id cont).outline] at row
      refine ⟨_, ?_, .node (.refl g) row ho (fun _ => rfl) (fun _ => rfl)
        (fun o hk _ => hlinks o hk) fun t => ?_⟩
      · rw [List.nil_append, List.append_assoc]
      · rw [List.append_nil, hsub]
    cases hs : op.kind.shape <;> rw [hs] at hcase
    case plain =>
      refine row hcase (fun o hk => ?_) fun t => ?_
      · simp [linksFor, hk, hs]
      · simp [Subtask, subtasks, outline, hs]
    case listed =>
      obtain ⟨c, hrow⟩ := hcase
      refine row hrow (fun o hk => ?_) fun t => ?_
      · simp [linksFor, hk, hs]
      · simp [Subtask, subtasks, outline, hs]
    case short =>
      obtain ⟨left, right, other, g₁, l₂, hks, hright, hleft⟩ := hcase
      obtain rfl := linkLogged_first hright
      obtain ⟨new, rfl, before⟩ := ih hright
      obtain ⟨new', rfl, after⟩ := ih hleft
      refine ⟨_, ?_, .node before after ho (fun _ => rfl) (fun _ => rfl) (fun o hk hks' => ?_)
        fun t => ?_⟩
      · simp only [List.append_assoc]
      · simp [linksFor, hk, hks', hs, hks]
      · simp [Subtask, subtasks, outline, hs, hks]
    case choice =>
      obtain ⟨condition, yes, no, other, next, g₁, l₂, g₂, l₃, hks, hyes, hno, hcond⟩ := hcase
      obtain rfl := linkLogged_first hyes
      obtain rfl := linkLogged_first hno
      obtain ⟨new, rfl, first⟩ := ih hyes
      obtain ⟨new', rfl, second⟩ := ih hno
      obtain ⟨new'', rfl, after⟩ := ih hcond
      refine ⟨_, ?_, .node (first.trans second) after ho (fun _ => rfl) (fun _ => rfl)
        (fun o hk hks' => ?_) fun t => ?_⟩
      · simp only [List.append_assoc]
      · simp [linksFor, hk, hks', hs, hks, startOf_congr first.outline]
      · simp [Subtask, subtasks, outline, hs, hks, or_comm]
    case unit =>
      obtain ⟨rfl, rfl⟩ := hcase
      refine ⟨_, ?_, .node (.refl g) (.refl _) ho (fun _ => rfl) (fun _ => rfl) (fun o hk _ => ?_)
        fun t => ?_⟩
      · rfl
      · simp [linksFor, hk, hs]
      · simp [Subtask, subtasks, outline, hs]

/-! ### The bound on levels -/

/-- The computations agree on graphs of a given outline, and keep it. -/
def Agree {α : Type} (outline : OpId → Option (OpKind × List OpId)) (x y : GraphM α) : Prop :=
  ∀ g : Graph, g.outline = outline → x g = y g ∧ (Effect.stateOf (x g)).outline = outline

namespace Agree

variable {α β : Type} {outline : OpId → Option (OpKind × List OpId)} {x y : GraphM α}

theorem pure (a : α) : Agree outline (Pure.pure a) (Pure.pure a) := fun _ h => ⟨rfl, h⟩

theorem throw (f : Fault) :
    Agree outline (MonadExcept.throw f : GraphM α) (MonadExcept.throw f) := fun _ h => ⟨rfl, h⟩

theorem change (id : OpId) {f : Op → Op} (kind : ∀ o, (f o).kind = o.kind)
    (kids : ∀ o, (f o).kids = o.kids) : Agree outline (change id f) (change id f) := by
  intro g hg
  refine ⟨rfl, ?_⟩
  cases ho : g.op? id with
  | some op =>
    rw [change_of_some ho]
    exact (outline_update kind kids).trans hg
  | none =>
    rw [change_of_none ho]
    exact hg

theorem bind {f k : α → GraphM β} (hx : Agree outline x y) (hf : ∀ a, Agree outline (f a) (k a)) :
    Agree outline (x >>= f) (y >>= k) := by
  intro g hg
  obtain ⟨same, kept⟩ := hx g hg
  cases h : x g with
  | ok a g' =>
    rw [h] at same kept
    rw [Effect.bind_ok h, Effect.bind_ok same.symm]
    exact hf a g' kept
  | error e g' =>
    rw [h] at same kept
    rw [Effect.bind_error h, Effect.bind_error same.symm]
    exact ⟨rfl, kept⟩

theorem map (f : α → β) (hx : Agree outline x y) : Agree outline (f <$> x) (f <$> y) := by
  rw [← bind_pure_comp, ← bind_pure_comp]
  exact hx.bind fun a => .pure (f a)

theorem foldrM {f k : α → β → GraphM β} {l : List α}
    (h : ∀ a ∈ l, ∀ b, Agree outline (f a b) (k a b)) (b : β) :
    Agree outline (l.foldrM f b) (l.foldrM k b) := by
  induction l with
  | nil => exact .pure b
  | cons a l ih =>
    obtain ⟨ha, hl⟩ := List.forall_mem_cons.mp h
    rw [List.foldrM_cons, List.foldrM_cons]
    exact (ih hl).bind ha

/-- One level of linking does what linking the kids does. -/
theorem linkLevel {below below' : OpId → Option OpId → GraphM OpId}
    (h : ∀ k, g.Kid id k → ∀ c, Agree g.outline (below k c) (below' k c)) (cont : Option OpId) :
    Agree g.outline (linkLevel below id cont) (linkLevel below' id cont) := by
  intro g₁ h₁
  unfold Graph.linkLevel
  cases ho : g₁.op? id with
  | none =>
    have missing : (liftM (find id) : GraphM Op) g₁ = .error (.unknownOp id) g₁ := find_of_none ho
    rw [Effect.bind_error missing, Effect.bind_error missing]
    exact ⟨rfl, h₁⟩
  | some op =>
    have found : (liftM (find id) : GraphM Op) g₁ = .ok op g₁ := find_of_some ho
    rw [Effect.bind_ok found, Effect.bind_ok found]
    have kid : ∀ k ∈ op.kids, ∀ c, Agree g.outline (below k c) (below' k c) := by
      obtain ⟨o, hog, -, hkids⟩ := op?_of_outline ((congrFun h₁ id).symm.trans (outline_of_op? ho))
      exact fun k hk => h k ⟨o, hog, hkids ▸ hk⟩
    have set : ∀ {f : Op → Op}, (∀ o, (f o).kind = o.kind) → (∀ o, (f o).kids = o.kids) →
        Agree g.outline (Graph.change id f) (Graph.change id f) := fun hk hks => .change id hk hks
    refine (?_ : Agree g.outline _ _) g₁ h₁
    cases op.kind
    case statements =>
      exact .bind (set (fun _ => rfl) fun _ => rfl) fun _ =>
        .bind (.foldrM (fun k hk c => (kid k hk c).map _) _) fun _ => .pure _
    case and | or =>
      rcases hks : op.kids with _ | ⟨l, _ | ⟨r, _ | ⟨k, ks⟩⟩⟩
      case cons.cons.nil =>
        exact .bind (kid r (by simp [hks]) cont) fun _ =>
          .bind (set (fun _ => rfl) fun _ => rfl) fun _ => kid l (by simp [hks]) _
      all_goals exact .throw _
    case cond =>
      rcases hks : op.kids with _ | ⟨c, _ | ⟨y, _ | ⟨m, _ | ⟨k, ks⟩⟩⟩⟩
      case cons.cons.cons.nil =>
        exact .bind (kid y (by simp [hks]) cont) fun _ =>
          .bind (kid m (by simp [hks]) cont) fun _ =>
            .bind (set (fun _ => rfl) fun _ => rfl) fun _ => kid c (by simp [hks]) _
      all_goals exact .throw _
    case native => exact .bind (set (fun _ => rfl) fun _ => rfl) fun _ => .pure _
    all_goals
      exact .bind (set (fun _ => rfl) fun _ => rfl) fun _ =>
        .foldrM (fun k hk c => kid k hk (some c)) _

end Agree

/-- The subtree of the op has at most so many levels. -/
def Shallow (g : Graph) : Nat → OpId → Prop
  | 0, _ => False
  | n + 1, id => ∀ k, g.Kid id k → g.Shallow n k

/-- A deep subtree has a long way down, on which no op is met twice if none is below itself. -/
theorem exists_path_of_deep (ha : Acyclic g) (h : ¬ g.Shallow n id) :
    ∃ path : List OpId, path.length = n ∧ path.Nodup ∧
      ∀ x ∈ path, x.index < g.size ∧ Relation.ReflTransGen g.Kid id x := by
  induction n generalizing id with
  | zero => exact ⟨[], rfl, List.nodup_nil, nofun⟩
  | succ n ih =>
    simp only [Shallow, not_forall] at h
    obtain ⟨k, hk, deep⟩ := h
    obtain ⟨path, hlen, nodup, reached⟩ := ih deep
    refine ⟨id :: path, by rw [List.length_cons, hlen], List.nodup_cons.mpr ⟨fun hmem => ?_, nodup⟩,
      List.forall_mem_cons.mpr ⟨⟨?_, .refl⟩, fun x hx => ?_⟩⟩
    · exact ha id (.head' hk (reached id hmem).2)
    · obtain ⟨op, ho, -⟩ := hk
      exact lt_size_of_op? ho
    · exact ⟨(reached x hx).1, .head hk (reached x hx).2⟩

theorem shallow_of_acyclic (ha : Acyclic g) (id : OpId) : g.Shallow (g.size + 1) id := by
  by_contra deep
  obtain ⟨path, hlen, nodup, inside⟩ := exists_path_of_deep ha deep
  have := length_le_of_nodup nodup fun x hx => (inside x hx).1
  omega

theorem linkWithin_agree {k : Nat} (h : g.Shallow n id) (hk : n ≤ k) (cont : Option OpId) :
    Agree g.outline (linkWithin n id cont) (linkWithin k id cont) := by
  induction n generalizing id cont k with
  | zero => exact h.elim
  | succ n ih =>
    obtain ⟨k, rfl⟩ : ∃ m, k = m + 1 := ⟨k - 1, by omega⟩
    rw [linkWithin_succ, linkWithin_succ]
    exact .linkLevel (fun kid hkid c => ih (h kid hkid) (by omega) c) cont

/-- **Where no op is below itself the bound on levels is never felt.** -/
theorem linkWithin_of_acyclic (ha : Acyclic g) (hn : g.size < n) (id : OpId) (cont : Option OpId) :
    linkWithin n id cont g = linkWithin (g.size + 1) id cont g :=
  ((linkWithin_agree (shallow_of_acyclic ha id) hn cont) g rfl).1.symm

/-! ### Linking a root -/

theorem logCalls_eq_ok {root entry : OpId} (h : logCalls root (g, l) = .ok entry (g', l')) :
    ∃ g₁, linkLogged (g.size + 1) root none (g, l) = .ok entry (g₁, l') ∧
      g' = { g₁ with root := some root, entry := some entry } := by
  unfold logCalls at h
  obtain ⟨_, s₀, hfound, h⟩ := Effect.bind_eq_ok.mp h
  obtain ⟨op, hfound, -⟩ := Effect.map_eq_ok.mp hfound
  obtain ⟨-, rfl⟩ := silently_find_eq_ok.mp hfound
  rw [Effect.get_bind] at h
  obtain ⟨f, ⟨g₁, l₁⟩, hl, h⟩ := Effect.bind_eq_ok.mp h
  cases h
  exact ⟨g₁, hl, rfl⟩

/-- Linking a root that succeeds has a list of calls; it is that of linking the op. -/
theorem exists_calls_of_link {root entry : OpId} (h : link root g = .ok entry g') :
    ∃ calls g₁, logCalls root (g, []) = .ok entry (g', calls) ∧
      linkLogged (g.size + 1) root none (g, []) = .ok entry (g₁, calls) ∧
      ∀ x, g'.op? x = g₁.op? x := by
  have logged := logCalls_shadows root (g, [])
  rw [h] at logged
  cases hc : logCalls root (g, []) with
  | error e s =>
    rw [hc] at logged
    cases logged
  | ok entry' s =>
    obtain ⟨g₂, calls⟩ := s
    rw [hc] at logged
    cases logged
    obtain ⟨g₁, hlinked, rfl⟩ := logCalls_eq_ok hc
    exact ⟨calls, g₁, rfl, hlinked, fun _ => rfl⟩

theorem outline_of_same_ops (h : ∀ x, g'.op? x = g.op? x) : g'.outline = g.outline := by
  funext x
  rw [outline, outline, h]

theorem LinkedBy.of_same_ops {P : Task → Prop} {x : OpId} (h : ∀ x, g'.op? x = g.op? x)
    (hx : g.LinkedBy P x) : g'.LinkedBy P x := by
  obtain ⟨op, cont, ho, hP, hl⟩ := hx
  exact ⟨op, cont, (h x).trans ho, hP, hl.trans (linksFor_congr (outline_of_same_ops h) ..).symm⟩

/-- A call-back runs the subtree of an op from its first op on. -/
theorem LinkedBy.callFragment {P : Task → Prop} {x : OpId} (hx : g.LinkedBy P x)
    (loop : Option OpId → MachineM Unit) :
    Machine.callFragment g loop x = (do
      let frame ← modifyGet Machine.enter
      loop (some (g.startOf x))
      modify fun m => m.leave frame) := by
  obtain ⟨op, -, ho, -⟩ := hx
  rw [Machine.callFragment, ho]

/-- **The two notions of a subtree's first op agree.**  Where linking a root succeeds, it answers
the first op of its subtree, and so does every call in the course of it, in terms of the graph that
is left.  The calls are those for the tasks that the root leads to: in them every op is told to
continue where the op after it begins, and the links that are left are those of such tasks.  So a
unit that runs one of these subtrees enters it where the op before it leads to.  Where no op is
below itself, linking succeeds or fails in the same way with any larger bound on levels.

A logged run of linking is a journey from the task of the root, and its calls are exactly the tasks
that this one leads to.  All that is said of tasks depends on the outline of the graph, which
linking keeps, so it may be read off the graph that is left. -/
theorem link_starts {root entry : OpId} (h : link root g = .ok entry g') :
    entry = g'.startOf root ∧
    (∃ calls, logCalls root (g, []) = .ok entry (g', calls) ∧
      (∀ c, c ∈ calls ↔ Relation.ReflTransGen g'.Subtask ⟨root, none⟩ c.task ∧
        c.first = g'.startOf c.task.op) ∧
      ∀ c ∈ calls, g'.LinkedBy (Relation.ReflTransGen g'.Subtask ⟨root, none⟩) c.task.op ∧
        ∀ loop, Machine.callFragment g' loop c.task.op = do
          let frame ← modifyGet Machine.enter
          loop (some c.first)
          modify fun m => m.leave frame) ∧
    (Acyclic g → ∀ n, g.size < n →
      linkWithin n root none g = linkWithin (g.size + 1) root none g) := by
  obtain ⟨calls, g₁, hc, hlinked, same⟩ := exists_calls_of_link h
  obtain ⟨_, rfl, journey⟩ := linkLogged_journey hlinked
  have outline := (outline_of_same_ops same).trans journey.outline
  have listed : ∀ c, c ∈ calls ↔ Relation.ReflTransGen g'.Subtask ⟨root, none⟩ c.task ∧
      c.first = g'.startOf c.task.op := by
    simpa [subtask_congr outline, startOf_congr outline] using journey.exact
  have linked : ∀ c ∈ calls,
      g'.LinkedBy (Relation.ReflTransGen g'.Subtask ⟨root, none⟩) c.task.op := by
    rw [subtask_congr outline]
    exact fun c hcall => ((journey.links _ (fun _ _ h hs => h.tail hs)
      (List.forall_mem_singleton.mpr .refl)).2 c hcall).of_same_ops same
  refine ⟨?_, ⟨calls, hc, listed, fun c hcall => ⟨linked c hcall, fun loop => ?_⟩⟩,
    fun ha n hn => linkWithin_of_acyclic ha hn root none⟩
  · rw [linkLogged_first hlinked, startOf_congr outline]
  · rw [(linked c hcall).callFragment, ((listed c).mp hcall).2]

/-- A choice whose branches are the same op, which also comes after it; its condition is a unit that
has adopted a constant. -/
def sharedBranch : Graph where
  owner := ⟨0⟩
  ops := #[{ kind := .const .undefined }, { kind := .native ⟨"unit", [], [⟨0⟩]⟩, kids := [⟨0⟩] },
    { kind := .lexical ⟨0⟩ false }, { kind := .cond, kids := [⟨1⟩, ⟨2⟩, ⟨2⟩] },
    { kind := .statements, kids := [⟨3⟩, ⟨2⟩] }]

theorem link_starts_sharedBranch : ∃ g', link ⟨4⟩ sharedBranch = .ok ⟨1⟩ g' ∧
    ⟨1⟩ = g'.startOf ⟨4⟩ ∧ ∃ calls, logCalls ⟨4⟩ (sharedBranch, []) = .ok ⟨1⟩ (g', calls) ∧
      ∀ c, c ∈ calls ↔ Relation.ReflTransGen g'.Subtask ⟨⟨4⟩, none⟩ c.task ∧
        c.first = g'.startOf c.task.op := by
  have linked : ∃ g', link ⟨4⟩ sharedBranch = .ok ⟨1⟩ g' := ⟨_, rfl⟩
  obtain ⟨g', h⟩ := linked
  obtain ⟨first, ⟨calls, hc, listed, -⟩, -⟩ := link_starts h
  exact ⟨g', h, first, calls, hc, listed⟩

end Graft.Graph
