import Graft.Proofs.Batches

/-! # Heirs over the life of a graph

A graph comes about by adding ops, linking it and applying edits, in any order; an edit may fail
half-way, and what it has done by then stays (`Graph.Reachable`).  Only the last step of a
replacement names heirs.  Whatever else is done leaves every op with its kind and its heir
(`Graph.lineage`), so it is enough to look at that step: the heir that it names is the op that the
replacement has just appended.  So heirs are units, and younger than what they replaced
(`Graph.HeirsLater`), and following them comes to an end (`Graph.HeirsLater.resolve_ends`).

Ids grow along a chain of heirs, and they are bounded by the size of the graph, which is the bound
that `Graph.resolve` has.  So the bound is never met, and what is found has no heir.

What a later edit needs is more than that: the op that stands for an end of a range *after* the
replacement must be the new unit, although the front of the range may be an op that no edit names.
`Graph.replace_cases` says what a replacement comes to, also one that fails, and keeps the three ops
whose heir is named apart from all others.  All that comes before this last step is covered by one
notion of a property that links, states and lists of kids have no influence on (`Graph.Stable`).
-/

namespace Graft

open Effect (Maintains stateOf)

namespace Graph

variable {g g' : Graph} {x y : OpId} {op : Op}

/-- The op is there, and is that of a unit. -/
def IsUnit (g : Graph) (x : OpId) : Prop := ∃ op, g.op? x = some op ∧ op.isNative = true

/-- **An heir is a unit, and younger than what it replaced.** -/
def HeirsLater (g : Graph) : Prop := ∀ x y, g.Heir x y → x.index < y.index ∧ g.IsUnit y

theorem IsUnit.lt_size (h : g.IsUnit x) : x.index < g.size := by
  obtain ⟨op, ho, -⟩ := h
  exact lt_size_of_op? ho

/-! ### Following heirs -/

/-- A name that no op has is left as it is. -/
theorem resolve_of_none (ho : g.op? x = none) : g.resolve x = x := by
  have stay : ∀ n, g.resolveWithin n x = x := by
    intro n
    cases n with
    | zero => rfl
    | succ n => rw [resolveWithin, ho, Option.bind_none]
  exact stay g.size

theorem exists_op?_of_resolve (ho : g.op? (g.resolve x) = some op) : ∃ op, g.op? x = some op := by
  cases hx : g.op? x with
  | none =>
    rw [resolve_of_none hx, hx] at ho
    cases ho
  | some op => exact ⟨op, rfl⟩

namespace HeirsLater

theorem ordered (h : g.HeirsLater) : g.Ordered := fun x y hxy => (h x y hxy).1

/-- **Every op has something that stands in its place.** -/
theorem exists_stands (h : g.HeirsLater) (ho : g.op? x = some op) : ∃ y, g.Stands x y := by
  -- an heir is nearer to the end of the arena
  induction hd : g.size - x.index using Nat.strongRecOn generalizing x op with
  | _ d ih =>
    cases hheir : op.heir with
    | none => exact ⟨x, .refl ho hheir⟩
    | some z =>
      have step : g.Heir x z := ⟨op, ho, hheir⟩
      obtain ⟨later, o, hz, -⟩ := h x z step
      have hlt := lt_size_of_op? hz
      obtain ⟨y, path, ends⟩ := ih (g.size - z.index) (by omega) hz rfl
      exact ⟨y, .head step path, ends⟩

theorem stands_resolve (h : g.HeirsLater) (ho : g.op? x = some op) : g.Stands x (g.resolve x) := by
  obtain ⟨y, hy⟩ := h.exists_stands ho
  rwa [hy.resolve h.ordered]

/-- **Heirs are followed to their end.** -/
theorem resolve_ends (h : g.HeirsLater) (x : OpId) :
    Relation.ReflTransGen g.Heir x (g.resolve x) ∧ ∀ y, ¬ g.Heir (g.resolve x) y := by
  cases ho : g.op? x with
  | none =>
    rw [resolve_of_none ho]
    refine ⟨.refl, ?_⟩
    rintro y ⟨op, hx, -⟩
    rw [ho] at hx
    cases hx
  | some op =>
    obtain ⟨path, last, hlast, hnone⟩ := h.stands_resolve ho
    refine ⟨path, ?_⟩
    rintro y ⟨o, hy, hheir⟩
    rw [hlast] at hy
    cases hy
    rw [hnone] at hheir
    cases hheir

theorem resolve_resolve (h : g.HeirsLater) (x : OpId) : g.resolve (g.resolve x) = g.resolve x := by
  obtain ⟨path, -⟩ := h.resolve_ends (g.resolve x)
  rcases Relation.ReflTransGen.cases_head path with stays | ⟨y, hy, -⟩
  · exact stays.symm
  · exact absurd hy ((h.resolve_ends x).2 y)

/-- Heirs lead to a younger unit, or nowhere. -/
theorem resolve_cases (h : g.HeirsLater) (x : OpId) :
    g.resolve x = x ∨ x.index < (g.resolve x).index ∧ g.IsUnit (g.resolve x) := by
  obtain ⟨path, -⟩ := h.resolve_ends x
  rcases Relation.ReflTransGen.cases_tail path with stays | ⟨y, hy, step⟩
  · exact .inl stays
  · obtain ⟨later, unit⟩ := h y _ step
    exact .inr ⟨Nat.lt_of_le_of_lt (h.ordered.le_of_path hy) later, unit⟩

end HeirsLater

/-! ### What keeps kinds and heirs -/

/-- What following heirs depends on: the kind and the heir of every op. -/
def lineage (g : Graph) (x : OpId) : Option (OpKind × Option OpId) :=
  (g.op? x).map fun op => (op.kind, op.heir)

theorem lineage_eq_some {k : OpKind} {heir : Option OpId} :
    g.lineage x = some (k, heir) ↔ ∃ op, g.op? x = some op ∧ op.kind = k ∧ op.heir = heir := by
  simp only [lineage, Option.map_eq_some_iff, Prod.mk.injEq]

theorem op_of_lineage (h : g'.lineage = g.lineage) (ho : g.op? x = some op) :
    ∃ op', g'.op? x = some op' ∧ op'.kind = op.kind ∧ op'.heir = op.heir :=
  lineage_eq_some.mp ((congrFun h x).trans (lineage_eq_some.mpr ⟨op, ho, rfl, rfl⟩))

theorem size_of_lineage (h : g'.lineage = g.lineage) : g'.size = g.size := by
  have none_iff : ∀ n, g'.size ≤ n ↔ g.size ≤ n := by
    intro n
    have gone := congrArg Option.isNone (congrFun h ⟨n⟩)
    simp only [lineage, Option.isNone_map] at gone
    have ends : ∀ g : Graph, (g.op? ⟨n⟩).isNone ↔ g.size ≤ n := fun g =>
      Option.isNone_iff_eq_none.trans op?_eq_none_iff
    rw [← ends, ← ends, gone]
  have := none_iff g.size
  have := none_iff g'.size
  omega

theorem IsUnit.congr (h : g'.lineage = g.lineage) (hx : g.IsUnit x) : g'.IsUnit x := by
  obtain ⟨op, ho, hn⟩ := hx
  obtain ⟨op', ho', hk, -⟩ := op_of_lineage h ho
  refine ⟨op', ho', ?_⟩
  rw [Op.isNative, hk]
  exact hn

theorem HeirsLater.congr (h : g'.lineage = g.lineage) (hg : g.HeirsLater) : g'.HeirsLater := by
  rintro x y ⟨op', ho', hheir⟩
  obtain ⟨op, ho, -, he⟩ := op_of_lineage h.symm ho'
  obtain ⟨later, unit⟩ := hg x y ⟨op, ho, he.trans hheir⟩
  exact ⟨later, unit.congr h⟩

/-- An op that is appended is nobody's heir, and has none. -/
theorem HeirsLater.push {n : Op} (hn : n.heir = none) (hg : g.HeirsLater) :
    HeirsLater { g with ops := g.ops.push n } := by
  have old : ∀ {z o}, g.op? z = some o → Graph.op? { g with ops := g.ops.push n } z = some o := by
    intro z o hz
    rw [op?_push, if_neg (ne_new hz), hz]
  rintro x y ⟨op, ho, hheir⟩
  rw [op?_push] at ho
  split at ho
  · cases ho
    rw [hn] at hheir
    cases hheir
  · obtain ⟨later, o, hy, unit⟩ := hg x y ⟨op, ho, hheir⟩
    exact ⟨later, o, old hy, unit⟩

theorem lineage_update {f : Op → Op} (hf : ∀ o, (f o).kind = o.kind ∧ (f o).heir = o.heir)
    (id : OpId) : (g.update id f).lineage = g.lineage := by
  funext x
  unfold lineage
  rw [op?_update]
  by_cases h : x = id
  · rw [if_pos h, Option.map_map]
    refine congrArg (fun k => Option.map k (g.op? x)) (funext fun o => ?_)
    simp [hf o]
  · rw [if_neg h]

theorem lineage_redirectLinks (old new : OpId) (g : Graph) :
    (redirectLinks old new g).lineage = g.lineage := by
  funext x
  unfold lineage
  rw [op?_redirectLinks, Option.map_map]
  refine congrArg (fun k => Option.map k (g.op? x)) (funext fun o => ?_)
  by_cases h : x = new
  · simp [h]
  · simp [h, Op.kind_turned, Op.heir_turned]

/-! ### What linking and editing leave alone -/

/-- **A property that does not depend on how ops are held, linked and marked**, nor on where a run
starts, if it starts at all. -/
structure Stable (P : Graph → Prop) : Prop where
  update : ∀ {g id} {f : Op → Op}, (∀ o, (f o).kind = o.kind ∧ (f o).heir = o.heir) → P g →
    P (g.update id f)
  root : ∀ {g} r, P g → P { g with root := r }
  links : ∀ {g} old new, P g → P (redirectLinks old new g)
  start : ∀ {g} root entry, P g → P { g with root := some root, entry := some entry }

theorem stable_lineage (l : OpId → Option (OpKind × Option OpId)) :
    Stable fun g => g.lineage = l where
  update hf h := (lineage_update hf _).trans h
  root _ h := h
  links old new h := (lineage_redirectLinks old new _).trans h
  start _ _ h := h

theorem stable_entry : Stable fun g => g.entry.isSome where
  update _ h := h
  root _ h := h
  links old new h := by
    rw [redirectLinks, redirect_eq_map, Option.isSome_map]
    exact h
  start _ _ _ := rfl

theorem foldl_maintains {P : Graph → Prop} {f : Graph → OpId → Graph}
    (hf : ∀ g id, P g → P (f g id))
    (ids : List OpId) (hg : P g) : P (ids.foldl f g) := by
  induction ids generalizing g with
  | nil => exact hg
  | cons id ids ih => exact ih (hf g id hg)

section Keeping

variable {P : Graph → Prop}

theorem maintains_find (id : OpId) : Maintains P (find id) := by
  refine .bind .get fun g => ?_
  split
  · exact .pure _
  · exact .throw _

theorem maintains_childWithin (parent : Option OpId) (fault : Fault) (n : Nat) (id : OpId) :
    Maintains P (childWithin parent fault n id) := by
  induction n generalizing id with
  | zero => exact .throw _
  | succ n ih =>
    rw [childWithin]
    refine .bind (maintains_find id) fun op => ?_
    split
    · exact .pure _
    · split
      · exact ih _
      · exact .throw _

namespace Stable

variable (hP : Stable P)

include hP

theorem change (id : OpId) {f : Op → Op} (hf : ∀ o, (f o).kind = o.kind ∧ (f o).heir = o.heir) :
    Maintains P (change id f) :=
  .bind (.map _ (maintains_find id)) fun _ => .modify fun _ h => hP.update hf h

theorem markWithin (state : OpState) (n : Nat) (id : OpId) (hg : P g) :
    P (markWithin state n g id) := by
  induction n generalizing g id with
  | zero => exact hg
  | succ n ih =>
    rw [Graph.markWithin]
    cases g.op? id with
    | none => exact hg
    | some op =>
      refine foldl_maintains (fun g kid h => ih kid h) op.kids ?_
      exact hP.update (fun _ => ⟨rfl, rfl⟩) hg

/-- **Linking keeps what does not depend on links.** -/
theorem linkWithin (n : Nat) (id : OpId) (cont : Option OpId) :
    Maintains P (linkWithin n id cont) := by
  induction n generalizing id cont with
  | zero => exact .throw _
  | succ n ih =>
    have setNext : ∀ c, Maintains P (Graph.change id fun o => { o with next := c }) :=
      fun c => hP.change id fun _ => ⟨rfl, rfl⟩
    have setLinks : ∀ c c',
        Maintains P (Graph.change id fun o => { o with next := c, other := c' }) :=
      fun c c' => hP.change id fun _ => ⟨rfl, rfl⟩
    rw [Graph.linkWithin]
    refine .bind (maintains_find id) fun op => ?_
    split
    · exact .bind (setNext _) fun _ => .bind (.foldrM (fun kid c => .map _ (ih kid c)) _ _)
        fun _ => .pure _
    · split
      · exact .bind (ih _ _) fun _ => .bind (setLinks _ _) fun _ => ih _ _
      · exact .throw _
    · split
      · exact .bind (ih _ _) fun _ => .bind (setLinks _ _) fun _ => ih _ _
      · exact .throw _
    · split
      · exact .bind (ih _ _) fun _ => .bind (ih _ _) fun _ => .bind (setLinks _ _) fun _ => ih _ _
      · exact .throw _
    · exact .bind (setNext _) fun _ => .pure _
    · exact .bind (setNext _) fun _ => .foldrM (fun kid c => ih kid _) _ _

theorem link (root : OpId) : Maintains P (link root) :=
  .bind (.map _ (maintains_find root)) fun _ => .bind .get fun _ =>
    .bind (hP.linkWithin _ root none) fun entry =>
      .bind (.modify fun _ h => hP.start root entry h) fun _ => .pure _

theorem exchange (parent : Option OpId) (top last new : OpId) (fault : Fault) :
    Maintains P (exchange parent top last new fault) := by
  unfold Graph.exchange
  split
  · refine .bind (maintains_find _) fun op => ?_
    dsimp only
    split
    · split
      · exact .bind (hP.change _ fun _ => ⟨rfl, rfl⟩) fun _ => .pure _
      · exact .throw _
    · exact .throw _
  · split
    · exact .bind (.modify fun _ h => hP.root _ h) fun _ => .pure _
    · exact .throw _

theorem adopt (new fragment : OpId) : Maintains P (adopt new fragment) :=
  .bind .get fun _ => .bind (hP.change _ fun _ => ⟨rfl, rfl⟩) fun _ =>
    hP.change new fun _ => ⟨rfl, rfl⟩

/-- **Taking out a fragment keeps it too.** -/
theorem detach (root : OpId) (keep : Bool) (exits : List OpId) :
    Maintains P (detach root keep exits) := by
  have disowned : ∀ p r, Maintains P (disown p r) := by
    intro p r
    unfold disown
    split
    · exact hP.change _ fun _ => ⟨rfl, rfl⟩
    · exact .pure _
  have retired : ∀ r, Maintains P (retire keep r) := by
    intro r
    unfold retire
    split
    · exact hP.change r fun _ => ⟨rfl, rfl⟩
    · exact .modify fun g h => hP.markWithin _ _ r h
  have isCut : ∀ e, Maintains P (cut e) := fun e =>
    .bind .get fun _ => hP.change _ fun _ => ⟨rfl, rfl⟩
  exact .bind .get fun _ => .bind (maintains_find _) fun _ => .bind (disowned _ _) fun _ =>
    .bind (.modify fun _ h => hP.root _ h) fun _ => .bind (retired _) fun _ => .forM isCut exits

end Stable

/-- A unit's op takes its place: all of a replacement that comes after the op was appended, but for
the heirs. -/
def settle (parent : Option OpId) (top last front new : OpId) (fault : Fault) (state : OpState)
    (fragments : List OpId) : GraphM Unit := do
  let removed ← exchange parent top last new fault
  modify fun g => removed.foldl (fun g r => g.mark state r) g
  fragments.forM (adopt new)
  modify (redirectLinks front new)

theorem Stable.settle (hP : Stable P) (parent : Option OpId) (top last front new : OpId)
    (fault : Fault) (state : OpState) (fragments : List OpId) :
    Maintains P (settle parent top last front new fault state fragments) :=
  .bind (hP.exchange parent top last new fault) fun removed =>
    .bind (.modify fun _ h => foldl_maintains (fun g r => hP.markWithin state g.size r) removed h)
      fun _ => .bind (.forM (hP.adopt new) fragments) fun _ =>
        .modify fun _ h => hP.links front new h

end Keeping

/-! ### Replacements -/

/-- The graph with the op of a unit at its end. -/
def withUnit (g : Graph) (unit : CompiledUnit) (next parent : Option OpId) : Graph :=
  { g with ops := g.ops.push { kind := .native unit, next, parent } }

variable {first last new : OpId} {unit : CompiledUnit} {keep : Bool}

theorem exists_op?_of_childWithin {p : Option OpId} {fault : Fault} {n : Nat} {top : OpId}
    (h : childWithin p fault n x g = .ok top g') : ∃ op, g.op? x = some op := by
  obtain ⟨-, path, op, ho, -⟩ := childWithin_eq_ok h
  rcases Relation.ReflTransGen.cases_head path with rfl | ⟨y, ⟨o, hx, -⟩, -⟩
  · exact ⟨op, ho⟩
  · exact ⟨o, hx⟩

/-- **What a replacement comes to.**  It fails, and then it has appended an op at most; or it has
appended one, and at its end it names this op as the heir of the two ends and of the front. -/
theorem replace_cases (first last : OpId) (unit : CompiledUnit) (keep : Bool) (g : Graph) :
    (∃ e g', replace first last unit keep g = .error e g' ∧ (g'.lineage = g.lineage ∨
      ∃ next parent, g'.lineage = (g.withUnit unit next parent).lineage)) ∨
    (∃ op, g.op? first = some op) ∧ (∃ op, g.op? (g.resolve last) = some op) ∧
      ∃ g₁ next parent, g₁.lineage = (g.withUnit unit next parent).lineage ∧
        replace first last unit keep g = .ok ⟨g.size⟩
          ([first, g.resolve last, g.resolve first].foldl (bequeath ⟨g.size⟩) g₁) := by
  unfold replace
  rw [Effect.get_bind, Effect.get_bind]
  dsimp only
  generalize Fault.notContiguous first (g.resolve last) = fault
  generalize (if keep then OpState.detached else OpState.dead) = state
  cases hlast : g.op? (g.resolve last) with
  | none =>
    rw [Effect.bind_error (find_of_none hlast)]
    exact .inl ⟨_, _, rfl, .inl rfl⟩
  | some lastOp =>
    rw [Effect.bind_ok (find_of_some hlast), Effect.get_bind]
    have climbed := maintains_childWithin (P := fun g' => g'.lineage = g.lineage) lastOp.parent fault
      (g.size + 1) first g rfl
    cases hclimb : childWithin lastOp.parent fault (g.size + 1) first g with
    | error e g₁ =>
      rw [hclimb] at climbed
      rw [Effect.bind_error hclimb]
      exact .inl ⟨e, g₁, rfl, .inl climbed⟩
    | ok top g₁ =>
      obtain ⟨rfl, -, -⟩ := childWithin_eq_ok hclimb
      have appended : append { kind := .native unit, next := lastOp.next, parent := lastOp.parent } g₁ =
          .ok ⟨g₁.size⟩ (g₁.withUnit unit lastOp.next lastOp.parent) := rfl
      have regroup : ∀ k : GraphM OpId, (do
          let removed ← exchange lastOp.parent top (g₁.resolve last) ⟨g₁.size⟩ fault
          modify fun g => removed.foldl (fun g r => g.mark state r) g
          unit.fragments.forM (adopt ⟨g₁.size⟩)
          modify (redirectLinks (g₁.resolve first) ⟨g₁.size⟩)
          k) = (do
          settle lastOp.parent top (g₁.resolve last) (g₁.resolve first) ⟨g₁.size⟩ fault state
            unit.fragments
          k) := fun k => by simp only [settle, bind_assoc]
      rw [Effect.bind_ok hclimb, Effect.bind_ok appended, regroup]
      have settled := (stable_lineage (g₁.withUnit unit lastOp.next lastOp.parent).lineage).settle
        lastOp.parent top (g₁.resolve last) (g₁.resolve first) ⟨g₁.size⟩ fault state unit.fragments _ rfl
      cases hsettle : settle lastOp.parent top (g₁.resolve last) (g₁.resolve first) ⟨g₁.size⟩ fault
          state unit.fragments (g₁.withUnit unit lastOp.next lastOp.parent) with
      | error e g₂ =>
        rw [hsettle] at settled
        rw [Effect.bind_error hsettle]
        exact .inl ⟨e, g₂, rfl, .inr ⟨_, _, settled⟩⟩
      | ok u g₂ =>
        rw [hsettle] at settled
        rw [Effect.bind_ok hsettle]
        exact .inr ⟨exists_op?_of_childWithin hclimb, ⟨lastOp, rfl⟩, g₂, _, _, settled, rfl⟩

/-- **A replacement that succeeds names one heir**, the op of its unit. -/
theorem replace_inherits (hg : g.HeirsLater) (h : replace first last unit keep g = .ok new g') :
    new = ⟨g.size⟩ ∧ Inherits first (g.resolve last) (g.resolve first) g g' ∧ g'.IsUnit new ∧
      (∀ y, g.IsUnit y → g'.IsUnit y) ∧ (∃ op, g.op? first = some op) ∧
      ∃ op, g.op? (g.resolve last) = some op := by
  obtain ⟨e, g₁, hfail, -⟩ | ⟨⟨firstOp, hfirst⟩, ⟨lastOp, hlast⟩, g₁, next, parent, kept, hok⟩ :=
    replace_cases first last unit keep g
  · rw [h] at hfail
    cases hfail
  rw [h] at hok
  cases hok
  have heirs := op?_bequeath first (g.resolve last) (g.resolve first) ⟨g.size⟩ g₁
  have size₁ : g₁.size = g.size + 1 := by
    rw [size_of_lineage kept]
    simp [withUnit, size]
  have old : ∀ {x op}, g.op? x = some op → ∃ op₁, g₁.op? x = some op₁ ∧ op₁.kind = op.kind ∧
      op₁.heir = op.heir := by
    intro x op ho
    refine op_of_lineage kept ?_
    rw [withUnit, op?_push, if_neg (ne_new ho), ho]
  have appended : (g.withUnit unit next parent).op? ⟨g.size⟩ =
      some { kind := .native unit, next, parent } := by rw [withUnit, op?_push, if_pos rfl]
  obtain ⟨op, hop, hkind, hnone⟩ := op_of_lineage kept appended
  obtain ⟨frontOp, hfront, -⟩ := (hg.stands_resolve hfirst).2
  have fresh : ¬ (⟨g.size⟩ = first ∨ ⟨g.size⟩ = g.resolve last ∨ ⟨g.size⟩ = g.resolve first) := by
    rintro (he | he | he)
    · exact ne_new hfirst he.symm
    · exact ne_new hlast he.symm
    · exact ne_new hfront he.symm
  refine ⟨rfl, ⟨?_, ?_, ?_⟩, ?_, ?_, ⟨firstOp, hfirst⟩, ⟨lastOp, hlast⟩⟩
  · rw [size_of_map heirs, size₁]
  · exact ⟨_, by rw [heirs, hop, Option.map_some, if_neg fresh], hnone⟩
  · intro x o ho
    obtain ⟨o₁, ho₁, -, hheir⟩ := old ho
    exact ⟨_, by rw [heirs, ho₁, Option.map_some], by rw [hheir]⟩
  · exact ⟨_, by rw [heirs, hop, Option.map_some], by rw [Op.isNative, hkind]; rfl⟩
  · rintro y ⟨o, ho, hnative⟩
    obtain ⟨o₁, ho₁, hk, -⟩ := old ho
    refine ⟨_, by rw [heirs, ho₁, Option.map_some], ?_⟩
    rw [Op.isNative, hk]
    exact hnative

/-- **A replacement leaves heirs that are younger units**, whether it succeeds or not. -/
theorem HeirsLater.replace (hg : g.HeirsLater) (first last : OpId) (unit : CompiledUnit)
    (keep : Bool) : HeirsLater (stateOf (replace first last unit keep g)) := by
  obtain ⟨e, g', hfail, kept | ⟨next, parent, kept⟩⟩ | ⟨-, -, g₁, next, parent, -, hok⟩ :=
    replace_cases first last unit keep g
  · rw [hfail]
    exact hg.congr kept
  · rw [hfail]
    exact (hg.push rfl).congr kept
  · obtain ⟨-, inherits, new, units, -, -⟩ := replace_inherits hg hok
    rw [hok]
    intro x y hxy
    refine ⟨inherits.ordered hg.ordered x y hxy, ?_⟩
    obtain ⟨op', ho', hheir⟩ := hxy
    rcases inherits.op_inv ho' with rfl | ⟨op, ho⟩
    · obtain ⟨o, hnew, hnone⟩ := inherits.new
      rw [stateOf] at ho'
      rw [ho'] at hnew
      cases hnew
      rw [hnone] at hheir
      cases hheir
    · obtain ⟨o, hold, heir⟩ := inherits.ops x op ho
      rw [stateOf] at ho'
      rw [ho'] at hold
      cases hold
      rw [hheir] at heir
      split at heir
      · cases heir
        exact new
      · exact units y (hg x y ⟨op, ho, heir.symm⟩).2

/-! ### The life of a graph -/

/-- **A graph that has come about from the empty one**, by adding ops that nothing has replaced yet,
linking, and applying edits; what a link or an edit that fails has done stays. -/
inductive Reachable : Graph → Prop where
  | empty (owner : OwnerId) : Reachable { owner }
  | add {g : Graph} (op : Op) : Reachable g → op.heir = none → Reachable (g.add op).2
  | link {g : Graph} (root : OpId) : Reachable g → Reachable (stateOf (link root g))
  | edit {g : Graph} (edits : List Edit) : Reachable g → Reachable (stateOf (applyEdits edits g))

theorem HeirsLater.add (hg : g.HeirsLater) (hop : op.heir = none) : (g.add op).2.HeirsLater := by
  have adopted : (op.kids.foldl
      (fun h kid => h.update kid fun k => { k with parent := some ⟨g.size⟩ }) g).lineage = g.lineage := by
    refine foldl_maintains (P := fun h => h.lineage = g.lineage) (fun h kid => ?_) op.kids rfl
    exact (stable_lineage g.lineage).update fun _ => ⟨rfl, rfl⟩
  exact (hg.congr adopted).push hop

theorem maintains_heirsLater {α : Type} {k : GraphM α} (h : ∀ P, Stable P → Maintains P k) :
    Maintains HeirsLater k := fun g hg => hg.congr (h _ (stable_lineage g.lineage) g rfl)

/-- What both kinds of edits keep, lists of edits keep. -/
theorem maintains_applyEdits {P : Graph → Prop}
    (replaced : ∀ first last unit keep, Maintains P (replace first last unit keep))
    (detached : ∀ root keep exits, Maintains P (detach root keep exits)) (edits : List Edit) :
    Maintains P (applyEdits edits) := by
  refine .bind (.mapM fun e _ => .bind .get fun _ => ?_) fun _ => .pure _
  dsimp only
  split
  · exact .throw _
  · split
    · exact .map _ (replaced _ _ _ _)
    · exact .bind (detached _ _ _) fun _ => .pure _

/-- **Heirs are younger units in every graph that comes about.** -/
theorem Reachable.heirsLater (h : Reachable g) : g.HeirsLater := by
  induction h with
  | empty owner =>
    rintro x y ⟨op, ho, -⟩
    cases lt_size_of_op? ho
  | add op _ hop ih => exact ih.add hop
  | link root _ ih => exact maintains_heirsLater (fun _ hP => hP.link root) _ ih
  | edit edits _ ih =>
    refine maintains_applyEdits
      (fun first last unit keep g hg => hg.replace first last unit keep) ?_ edits
      _ ih
    exact fun root keep exits => maintains_heirsLater fun _ hP => hP.detach root keep exits

/-- **Edits leave a graph with an entry one**, also where they fail. -/
theorem maintains_entry (edits : List Edit) :
    Maintains (fun g => g.entry.isSome) (applyEdits edits) := by
  have kept := stable_entry
  refine maintains_applyEdits (fun first last unit keep => ?_) kept.detach edits
  refine .bind .get fun _ => .bind .get fun _ => .bind (maintains_find _) fun lastOp =>
    .bind .get fun _ =>
    .bind (maintains_childWithin _ _ _ _) fun top => .bind (fun _ h => h) fun new => ?_
  refine .bind (kept.exchange _ _ _ _ _) fun removed => .bind (.modify fun _ h => ?_) fun _ =>
    .bind (.forM (kept.adopt new) _) fun _ => .bind (.modify fun _ h => kept.links _ _ h) fun _ =>
      .bind (.modify fun _ h => h) fun _ => .pure _
  exact foldl_maintains (P := fun g => g.entry.isSome)
    (fun g r => kept.markWithin _ g.size r) removed h

/-- An edit that puts in a unit is a replacement that succeeds. -/
theorem replace_of_applyEdit {owner : OwnerId} {answer : Option OpId}
    (h : applyEdit ⟨owner, .replace first last unit keep⟩ g = .ok answer g') :
    ∃ new, answer = some new ∧ replace first last unit keep g = .ok new g' := by
  by_cases ho : g.owner = owner
  · rw [applyEdit_replace ho] at h
    obtain ⟨new, hnew, rfl⟩ := Effect.map_eq_ok.mp h
    exact ⟨new, rfl, hnew⟩
  · unfold applyEdit at h
    rw [Effect.get_bind, if_pos (Ne.symm ho)] at h
    cases h

/-- **Following heirs in a graph that has come about.**  An heir is a unit of the graph, and younger
than what it replaced.  So heirs are followed to an op that has none; once more changes nothing; and
what is found is the op itself, or a younger unit.  Right after a unit has been put in, it is what
stands in the place of both ends, and of the op that stood at the front.

That heirs are younger units holds of every graph that comes about, by induction on how it does.  An
op that was followed to its end stays there unless it is one of the three that a replacement
names, and from those one step more leads to the new unit. -/
theorem resolve_of_reachable (h : Reachable g) :
    (∀ x y, g.Heir x y → x.index < y.index ∧ y.index < g.size ∧ g.IsUnit y) ∧
    (∀ x, Relation.ReflTransGen g.Heir x (g.resolve x) ∧ ∀ y, ¬ g.Heir (g.resolve x) y) ∧
    (∀ x, g.resolve (g.resolve x) = g.resolve x) ∧
    (∀ x, g.resolve x = x ∨ x.index < (g.resolve x).index ∧ g.IsUnit (g.resolve x)) ∧
    ∀ owner first last unit keep answer g',
      applyEdit ⟨owner, .replace first last unit keep⟩ g = .ok answer g' →
      ∃ new, answer = some new ∧ g'.IsUnit new ∧ g'.resolve first = new ∧ g'.resolve last = new ∧
        g'.resolve (g.resolve first) = new := by
  have later := h.heirsLater
  refine ⟨fun x y hxy => ?_, later.resolve_ends, later.resolve_resolve, later.resolve_cases, ?_⟩
  · obtain ⟨hlt, unit⟩ := later x y hxy
    exact ⟨hlt, unit.lt_size, unit⟩
  · intro owner first last unit keep answer g' happly
    obtain ⟨new, rfl, hreplace⟩ := replace_of_applyEdit happly
    obtain ⟨rfl, inherits, hunit, -, ⟨firstOp, hfirst⟩, ⟨lastOp, hlast⟩⟩ :=
      replace_inherits later hreplace
    have ordered := inherits.ordered later.ordered
    have front := later.stands_resolve hfirst
    obtain ⟨frontOp, hfront, hnone⟩ := front.2
    refine ⟨_, rfl, hunit, ?_, ?_, ?_⟩
    · exact (inherits.stands_new (.inr (.inr rfl)) front).resolve ordered
    · obtain ⟨op, hop⟩ := exists_op?_of_resolve hlast
      exact (inherits.stands_new (.inr (.inl rfl)) (later.stands_resolve hop)).resolve ordered
    · exact (inherits.stands_new (.inr (.inr rfl)) (.refl hfront hnone)).resolve ordered

/-! ### A unit in the place of a unit

Two statements become a unit, which is replaced in turn: an edit names it as the first op, and one
of the statements as the last. -/

def patchedGraph : Graph :=
  let g : Graph := { owner := ⟨0⟩ }
  let g := (g.add { kind := .stub }).2
  let g := (g.add { kind := .stub }).2
  let g := (g.add { kind := .statements, kids := [⟨0⟩, ⟨1⟩] }).2
  let g := stateOf (link ⟨2⟩ g)
  stateOf (applyEdits [⟨⟨0⟩, .replace ⟨0⟩ ⟨1⟩ ⟨"both", [], []⟩ false⟩] g)

theorem patchedGraph_reachable : Reachable patchedGraph := by
  have empty := Reachable.empty ⟨0⟩
  have pair := (empty.add { kind := .stub } rfl).add { kind := .stub } rfl
  have whole := pair.add { kind := .statements, kids := [⟨0⟩, ⟨1⟩] } rfl
  exact (whole.link ⟨2⟩).edit [⟨⟨0⟩, .replace ⟨0⟩ ⟨1⟩ ⟨"both", [], []⟩ false⟩]

theorem resolve_of_reachable_patched : ∃ answer g',
    applyEdit ⟨⟨0⟩, .replace ⟨3⟩ ⟨1⟩ ⟨"again", [], []⟩ false⟩ patchedGraph = .ok answer g' ∧
    patchedGraph.Heir ⟨0⟩ ⟨3⟩ ∧ patchedGraph.IsUnit ⟨3⟩ ∧
    ∃ new, answer = some new ∧ g'.IsUnit new ∧ g'.resolve ⟨3⟩ = new ∧ g'.resolve ⟨1⟩ = new := by
  obtain ⟨heirs, -, -, -, replaced⟩ := resolve_of_reachable patchedGraph_reachable
  have heir : patchedGraph.Heir ⟨0⟩ ⟨3⟩ := ⟨_, rfl, rfl⟩
  have applied : applyEdit ⟨⟨0⟩, .replace ⟨3⟩ ⟨1⟩ ⟨"again", [], []⟩ false⟩ patchedGraph =
      .ok (some ⟨4⟩) _ := rfl
  obtain ⟨new, hnew, unit, first, last, -⟩ := replaced _ _ _ _ _ _ _ applied
  exact ⟨_, _, applied, heir, (heirs _ _ heir).2.2, new, hnew, unit, first, last⟩

end Graph

end Graft
