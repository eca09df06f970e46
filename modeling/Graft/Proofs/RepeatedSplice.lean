import Graft.Proofs.WellFormed

/-! # Replacing a range again

An edit may name ops that an earlier edit has replaced.  Heirs lead from both ends of the
range to the unit that stands there now, but the sibling that the range begins with is found
by climbing from the op that the edit names, and the ops of the old range keep their parents.
So the climb ends at a sibling that the parent no longer lists, and a second replacement of
the same range is refused; unless a fragment of the first unit is met on the way up: it names
the unit as its parent, the climb leads on to the unit, and the second unit takes over its
place (`Graph.replace_again`).

Both outcomes are read off one description of what the first replacement leaves
(`Graph.Substituted`): the parents, kids and successors of all ops, and which heirs there are.
It says nothing of the states of ops, because the fragments of a unit may hold one another and then
the marking has no simple description; the second replacement does not look at states.

Ways up are the other half.  An op has one parent at most, and in a graph that has just been linked
parents are younger than their kids (`Graph.Pristine`), so a way up passes one op below any given
parent.  After the replacement it is the old one as far as the first fragment that it meets, and
from there it leads to the unit.
-/

namespace Graft

open HostTree

variable {g g' : Graph} {x y top : OpId} {op : Op}

namespace Graph

/-! ### What every replacement does -/

theorem getElem?_of_idxOf? {ks : List OpId} {i : Nat} (h : ks.idxOf? x = some i) :
    ks[i]? = some x := by
  obtain ⟨hi, heq, -⟩ := List.findIdx?_eq_some_iff_getElem.mp h
  rw [List.getElem?_eq_getElem hi]
  simpa using heq

/-- **An exchange that succeeds has found a range**, if no kid is listed twice. -/
theorem range_of_exchange {p : Option OpId} {last new : OpId} {fault : Fault} {seg : List OpId}
    (h : exchange p top last new fault g = .ok seg g')
    (hn : ∀ q op, p = some q → g.op? q = some op → op.kids.Nodup) :
    ∃ as bs, g.Range p top last as seg bs := by
  unfold exchange at h
  cases p with
  | none =>
    dsimp only at h
    split at h
    · cases h
      exact ⟨[], [], ‹_›, rfl⟩
    · cases h
  | some q =>
    obtain ⟨op, g₁, hfind, hrest⟩ := Effect.bind_eq_ok.mp h
    obtain ⟨hop, rfl⟩ := find_eq_ok.mp hfind
    cases hi : op.kids.idxOf? top with
    | none =>
      simp only [hi] at hrest
      cases hrest
    | some i =>
      cases hj : op.kids.idxOf? last with
      | none =>
        simp only [hi, hj] at hrest
        cases hrest
      | some j =>
        simp only [hi, hj] at hrest
        split at hrest
        · obtain ⟨-, g₂, -, hseg⟩ := Effect.bind_eq_ok.mp hrest
          cases hseg
          have left := getElem?_of_idxOf? hi
          have right := getElem?_of_idxOf? hj
          have hlt : j < op.kids.length := (List.getElem?_eq_some_iff.mp right).1
          refine ⟨op.kids.take i, op.kids.drop (j + 1), op, hop, hn q op rfl hop, ?_, ?_, ?_⟩
          · have shorter : op.kids.take i = (op.kids.take (j + 1)).take i := by
              rw [List.take_take, Nat.min_eq_left (by omega)]
            rw [shorter, List.take_append_drop, List.take_append_drop]
          · rw [List.head?_drop, List.getElem?_take_of_lt (by omega), left]
          · rw [List.getLast?_drop, if_neg (by simp; omega), List.getLast?_take]
            simp [right]
        · cases hrest

/-- A range below an op that has no kids is none. -/
theorem Range.of_append {p : Option OpId} {last : OpId} {as seg bs : List OpId} {n : Op}
    (h : Range { g with ops := g.ops.push n } p top last as seg bs) (hn : n.kids = []) :
    g.Range p top last as seg bs := by
  cases p with
  | none => exact h
  | some q =>
    obtain ⟨op, hq, hnodup, hkids, hfirst, hlast⟩ := h
    rw [op?_push] at hq
    split at hq
    · cases hq
      rw [hn] at hkids
      have hseg : seg = [] := by simp_all
      rw [hseg] at hfirst
      cases hfirst
    · exact ⟨op, hq, hnodup, hkids, hfirst, hlast⟩

theorem Remarked.ordered {X : OpId → Prop} (h : Remarked X g g') (ho : g.Ordered) : g'.Ordered := by
  rintro x y ⟨op', ho', hheir⟩
  obtain ⟨op, hx⟩ := exists_op? (h.size ▸ lt_size_of_op? ho')
  obtain ⟨s, -, hs⟩ := h.ops x op hx
  rw [ho'] at hs
  cases hs
  exact ho x y ⟨op, hx, hheir⟩

/-- **A unit has been put in the place of a range**, and has adopted `fs`.  The states of ops are
left open: with fragments that hold one another the marking may reach any of them. -/
structure Substituted (first last front : OpId) (fs : List OpId) (p next : Option OpId)
    (as bs : List OpId) (g g' : Graph) : Prop where
  owner : g'.owner = g.owner
  size : g'.size = g.size + 1
  root : g'.root = if p = none ∧ g.root = some last then some ⟨g.size⟩ else g.root
  entry : g'.entry = g.entry.map (turn front ⟨g.size⟩)
  new : ∃ op, g'.op? ⟨g.size⟩ = some op ∧ op.parent = p ∧ op.next = next ∧ op.heir = none
  ops : ∀ x op, g.op? x = some op → ∃ s,
    g'.op? x = some { ({ op with
        state := s
        parent := if x ∈ fs then some ⟨g.size⟩ else op.parent
        kids := if some x = p then as ++ ⟨g.size⟩ :: bs else op.kids } : Op).turned
          (turn front ⟨g.size⟩) with
      heir := if x = first ∨ x = last ∨ x = front then some ⟨g.size⟩ else op.heir }

theorem Substituted.inherits {first last front : OpId} {fs as bs : List OpId} {p next : Option OpId}
    (h : Substituted first last front fs p next as bs g g') : Inherits first last front g g' where
  size := h.size
  new := by
    obtain ⟨op, ho, -, -, hnone⟩ := h.new
    exact ⟨op, ho, hnone⟩
  ops x op ho := by
    obtain ⟨s, ho'⟩ := h.ops x op ho
    exact ⟨_, ho', rfl⟩

/-- **A unit that has taken the place of a range adopts its fragments**, whatever has been marked;
links to the front of the range are turned to it, and it is the heir of the range. -/
theorem Vacated.substituted {first last front : OpId} {unit : CompiledUnit} {p next : Option OpId}
    {fs as bs : List OpId} {g₁ g₂ g₃ : Graph}
    (h : Vacated (fun _ => False) last { kind := .native unit, next := next, parent := p } p as bs g g₁)
    (hmark : Remarked (fun _ => True) g₁ g₂)
    (hadopt : Rewrites (fun x op => { op with
      parent := if x ∈ fs then some ⟨g.size⟩ else op.parent
      kids := if x = ⟨g.size⟩ then op.kids ++ fs else op.kids }) g₂ g₃)
    (hnew : ⟨g.size⟩ ∉ fs) (hends : ∀ x ∈ [first, last, front], x ≠ ⟨g.size⟩) :
    Substituted first last front fs p next as bs g
      ([first, last, front].foldl (bequeath ⟨g.size⟩) (redirectLinks front ⟨g.size⟩ g₃)) where
  owner := by
    show g₃.owner = g.owner
    rw [hadopt.owner, hmark.owner, h.owner]
  size := by
    rw [size_of_map (op?_bequeath first last front ⟨g.size⟩ _),
      size_of_map (op?_redirectLinks front ⟨g.size⟩ g₃), hadopt.size, hmark.size, h.size]
  root := by
    show g₃.root = _
    rw [hadopt.root, hmark.root, h.root]
  entry := by
    show redirect front ⟨g.size⟩ g₃.entry = _
    rw [redirect_eq_map, hadopt.entry, hmark.entry, h.entry]
  new := by
    have fresh : ¬ (⟨g.size⟩ = first ∨ ⟨g.size⟩ = last ∨ ⟨g.size⟩ = front) := by
      rintro (he | he | he)
      · exact hends first (by simp) he.symm
      · exact hends last (by simp) he.symm
      · exact hends front (by simp) he.symm
    obtain ⟨s, -, hs⟩ := hmark.ops _ _ h.new
    refine ⟨_, by rw [op?_bequeath, op?_redirectLinks, hadopt.op_of hs]; rfl, ?_, ?_, ?_⟩
    · simp only [if_true, if_neg hnew]
    · simp only [if_true]
    · simp only [if_true, if_neg fresh]
  ops x op hx := by
    obtain ⟨s, -, hs⟩ := hmark.ops x _ (h.op_of id hx)
    refine ⟨s, ?_⟩
    rw [op?_bequeath, op?_redirectLinks, hadopt.op_of hs]
    simp only [Option.map_some, if_neg (ne_new hx), Op.heir_turned]

/-- **A replacement succeeds** where the climb ends at the first sibling of a range that ends with
what stands for `last`, and the fragments of the unit are ops of the graph. -/
theorem replace_substituted {first last l front : OpId} {unit : CompiledUnit} (keep : Bool)
    {lastOp : Op} {as seg bs fs : List OpId} (ho : g.Ordered) (hfront : g.Stands first front)
    (hl : g.Stands last l) (hlast : g.op? l = some lastOp)
    (hclimb : childWithin lastOp.parent (.notContiguous first l) (g.size + 1) first g = .ok top g)
    (hrange : g.Range lastOp.parent top l as seg bs)
    (hfs : List.Forall₂ g.Stands unit.fragments fs) :
    ∃ g', replace first last unit keep g = .ok ⟨g.size⟩ g' ∧
      Substituted first l front fs lastOp.parent lastOp.next as bs g g' := by
  let state : OpState := if keep then .detached else .dead
  obtain ⟨g₁, hex, opened⟩ := exchange_appended hrange
    { kind := .native unit, next := lastOp.next, parent := lastOp.parent } (.notContiguous first l)
  have marked : Remarked (fun _ => True) g₁ (seg.foldl (fun g r => g.mark state r) g₁) :=
    .foldl (fun g _ hk hc => markWithin_remarked state g.size hk hc) (fun _ _ => trivial)
      fun _ _ _ _ => trivial
  obtain ⟨s, -, hnew⟩ := marked.ops _ _ opened.new
  have placed := hfs.imp fun _ _ hs => hs.mono fun x op hx => by
    obtain ⟨s, -, hs⟩ := marked.ops x _ (opened.op_of id hx)
    exact ⟨_, hs, rfl⟩
  obtain ⟨g₃, hadopt, rw₃⟩ :=
    forM_adopt (marked.ordered (opened.ordered ho rfl)) ⟨_, hnew⟩ placed
  have fresh : ⟨g.size⟩ ∉ fs := fun hmem => by
    obtain ⟨_, -, -, o, hf, -⟩ := exists_of_forall₂ hfs hmem
    exact ne_new hf rfl
  have ends : ∀ x ∈ [first, l, front], x ≠ ⟨g.size⟩ := by
    obtain ⟨o, hfirst⟩ := hfront.exists_op?
    obtain ⟨o', hfront', -⟩ := hfront.2
    simpa using ⟨ne_new hfirst, ne_new hlast, ne_new hfront'⟩
  refine ⟨_, ?_, opened.substituted marked rw₃ fresh ends⟩
  unfold replace
  rw [Effect.get_bind, hfront.resolve ho, Effect.get_bind, hl.resolve ho]
  dsimp only
  rw [Effect.bind_ok (find_of_some hlast), Effect.get_bind, Effect.bind_ok hclimb]
  have appended : append { kind := .native unit, next := lastOp.next, parent := lastOp.parent } g =
      .ok ⟨g.size⟩ _ := rfl
  rw [Effect.bind_ok appended, Effect.bind_ok hex, Effect.modify_bind, Effect.bind_ok hadopt]
  rfl

/-! ### Graphs that have not been edited -/

/-- **No op has been replaced**, and lists name their kids once. -/
structure Heirless (g : Graph) : Prop where
  heirless : ∀ x op, g.op? x = some op → op.heir = none
  once : ∀ x op, g.op? x = some op → op.kids.Nodup

/-- No op has been replaced, kids are there, and a parent is younger than its kids. -/
structure Pristine (g : Graph) : Prop extends Heirless g where
  kids : ∀ x op, g.op? x = some op → ∀ k ∈ op.kids, k.index < g.size
  up : ∀ x y, g.Up x y → x.index < y.index
  root : ∀ r, g.root = some r → r.index < g.size

theorem size_add (g : Graph) (op : Op) : (g.add op).2.size = g.size + 1 := by
  unfold add
  dsimp only
  rw [size, Array.size_push]
  exact congrArg (· + 1) (foldl_adopt ⟨g.size⟩ op.kids g).1

/-- An op is the one that was added, or it was there and may have got a parent. -/
theorem op_of_add {new : Op} (h : (g.add new).2.op? x = some op) : (x = ⟨g.size⟩ ∧ op = new) ∨
    ∃ o, g.op? x = some o ∧
      op = if x ∈ new.kids then { o with parent := some ⟨g.size⟩ } else o := by
  rw [op?_add] at h
  split at h
  · exact .inl ⟨‹_›, (Option.some.inj h).symm⟩
  · obtain ⟨o, ho, rfl⟩ := Option.map_eq_some_iff.mp h
    exact .inr ⟨o, ho, rfl⟩

end Graph

/-- Ops that are assembled have not been edited. -/
theorem Assembled.pristine {owner : OwnerId} {ts : List HostTree}
    (h : Assembled owner g ts) : g.Pristine := by
  induction h with
  | empty =>
    have none : ∀ x op, ({ owner } : Graph).op? x ≠ some op := fun x op => by simp [Graph.op?]
    exact ⟨⟨fun x op ho => absurd ho (none x op), fun x op ho => absurd ho (none x op)⟩,
      fun x op ho => absurd ho (none x op),
      fun x _ hup => hup.elim fun op ho => absurd ho.1 (none x op), fun r hr => by cases hr⟩
  | @add g ts ks rest f hg hperm hf ih =>
    obtain ⟨forest, -⟩ := hg.forest
    let new : Op :=
      { kind := f.kind, kids := ks.map HostTree.root, targ := f.targ, stacked := f.stacked }
    have old : ∀ k ∈ ks.map HostTree.root, k.index < g.size := by
      intro k hk
      obtain ⟨t, ht, rfl⟩ := List.mem_map.mp hk
      exact (forest.reads t (hperm.mem_iff.mpr (by simp [ht]))).lt_size (root_mem_ids t)
    have once : (ks.map HostTree.root).Nodup := by
      have parts := (perm_idsAll hperm).nodup_iff.mp forest.nodup
      exact (List.nodup_append.mp parts).1.sublist (map_root_sublist ks)
    have size := Graph.size_add g new
    refine ⟨⟨fun x op ho => ?_, fun x op ho => ?_⟩, fun x op ho => ?_, fun x y hup => ?_,
      fun r hr => ?_⟩
    · rcases Graph.op_of_add ho with ⟨-, rfl⟩ | ⟨o, ho', rfl⟩
      · rfl
      · have := ih.heirless x o ho'
        split <;> exact this
    · rcases Graph.op_of_add ho with ⟨-, rfl⟩ | ⟨o, ho', rfl⟩
      · exact once
      · have := ih.once x o ho'
        split <;> exact this
    · rw [size]
      rcases Graph.op_of_add ho with ⟨-, rfl⟩ | ⟨o, ho', rfl⟩
      · exact fun k hk => Nat.lt_succ_of_lt (old k hk)
      · have := fun k hk => Nat.lt_succ_of_lt (ih.kids x o ho' k hk)
        split <;> exact this
    · obtain ⟨op, ho, hp⟩ := hup
      rcases Graph.op_of_add ho with ⟨-, rfl⟩ | ⟨o, ho', rfl⟩
      · cases hp
      · split at hp
        · cases hp
          exact Graph.lt_size_of_op? ho'
        · exact ih.up x y ⟨o, ho', hp⟩
    · rw [(Graph.root_add g new).1, forest.root] at hr
      cases hr

namespace Graph

/-- Linking edits nothing. -/
theorem Pristine.linked (h : g.Pristine) {r entry : OpId} (hl : link r g = .ok entry g') :
    g'.Pristine ∧ g'.owner = g.owner := by
  obtain ⟨⟨op, hr⟩, g₁, hwithin, rfl⟩ := link_eq_ok hl
  have relinked := linkWithin_relinked hwithin
  have back : ∀ {x op}, { g₁ with root := some r, entry := some entry : Graph }.op? x = some op →
      ∃ o, g.op? x = some o ∧ o.heir = op.heir ∧ o.kids = op.kids ∧ o.parent = op.parent := by
    intro x op ho
    obtain ⟨o, ho', he⟩ := relinked.symm.op ho
    have heir : o.heir = op.heir := by simpa using congrArg Op.heir he
    have kids : o.kids = op.kids := by simpa using congrArg Op.kids he
    have parent : o.parent = op.parent := by simpa using congrArg Op.parent he
    exact ⟨o, ho', heir, kids, parent⟩
  have lt : ∀ {x : OpId}, x.index < g.size →
      x.index < { g₁ with root := some r, entry := some entry : Graph }.size := by
    intro x hx
    obtain ⟨o, ho⟩ := exists_op? hx
    obtain ⟨o', ho', -⟩ := relinked.op ho
    exact lt_size_of_op? ho'
  refine ⟨⟨⟨fun x op ho => ?_, fun x op ho => ?_⟩, fun x op ho => ?_, fun x y hup => ?_,
    fun r hr' => ?_⟩, relinked.owner⟩
  · obtain ⟨o, ho', heir, -⟩ := back ho
    exact heir ▸ h.heirless x o ho'
  · obtain ⟨o, ho', -, kids, -⟩ := back ho
    exact kids ▸ h.once x o ho'
  · obtain ⟨o, ho', -, kids, -⟩ := back ho
    exact kids ▸ fun k hk => lt (h.kids x o ho' k hk)
  · obtain ⟨op, ho, hp⟩ := hup
    obtain ⟨o, ho', -, -, parent⟩ := back ho
    exact h.up x y ⟨o, ho', parent.trans hp⟩
  · cases hr'
    exact lt (lt_size_of_op? hr)

namespace Heirless

theorem ordered (h : g.Heirless) : g.Ordered := by
  rintro x y ⟨op, ho, hheir⟩
  rw [h.heirless x op ho] at hheir
  cases hheir

theorem stands (h : g.Heirless) (ho : g.op? x = some op) : g.Stands x x :=
  .refl ho (h.heirless x op ho)

theorem resolve (h : g.Heirless) (x : OpId) : g.resolve x = x := by
  unfold Graph.resolve
  cases g.size with
  | zero => rfl
  | succ n =>
    rw [resolveWithin]
    cases ho : g.op? x with
    | none => rfl
    | some op => rw [Option.bind_some, h.heirless x op ho]

/-- **What a first replacement leaves behind.** -/
theorem substituted (h : g.Heirless) {first last new : OpId} {unit : CompiledUnit} {keep : Bool}
    (hfs : ∀ f ∈ unit.fragments, ∃ op, g.op? f = some op)
    (hr : replace first last unit keep g = .ok new g') :
    new = ⟨g.size⟩ ∧ (∃ op, g.op? first = some op) ∧ ∃ lastOp top fault as seg bs,
      g.op? last = some lastOp ∧
      childWithin lastOp.parent fault (g.size + 1) first g = .ok top g ∧
      g.Range lastOp.parent top last as seg bs ∧
      Substituted first last first unit.fragments lastOp.parent lastOp.next as bs g g' := by
  obtain ⟨lastOp, top, seg, g₁, hlast, hclimb, hex⟩ := exchange_of_replace hr
  rw [h.resolve] at hlast hclimb hex
  obtain ⟨as, bs, hrange⟩ := range_of_exchange hex fun q op _ ho => by
    rw [op?_push] at ho
    split at ho
    · cases ho
      exact .nil
    · exact h.once q op ho
  have hrange := hrange.of_append rfl
  obtain ⟨-, path, topOp, htop, -⟩ := childWithin_eq_ok hclimb
  have hfirst : ∃ op, g.op? first = some op := by
    rcases Relation.ReflTransGen.cases_head path with rfl | ⟨_, ⟨op, ho, -⟩, -⟩
    · exact ⟨topOp, htop⟩
    · exact ⟨op, ho⟩
  obtain ⟨op, hop⟩ := hfirst
  obtain ⟨g₂, hr₂, sub⟩ := replace_substituted keep h.ordered (h.stands hop) (h.stands hlast)
    hlast hclimb hrange (List.forall₂_same.mpr fun f hf => h.stands (hfs f hf).choose_spec)
  rw [hr] at hr₂
  cases hr₂
  exact ⟨rfl, ⟨op, hop⟩, lastOp, top, _, as, seg, bs, hlast, hclimb, hrange, sub⟩

end Heirless

namespace Pristine

theorem index_le (h : g.Pristine) (hp : Relation.ReflTransGen g.Up x y) : x.index ≤ y.index := by
  induction hp with
  | refl => exact Nat.le_refl _
  | tail _ step ih => exact Nat.le_trans ih (Nat.le_of_lt (h.up _ _ step))

/-- **A way up leads through one op below a given parent.** -/
theorem top_unique (h : g.Pristine) {t t' : OpId} {o o' : Op}
    (ht : Relation.ReflTransGen g.Up x t) (ht' : Relation.ReflTransGen g.Up x t')
    (ho : g.op? t = some o) (ho' : g.op? t' = some o') (hp : o.parent = o'.parent) : t = t' := by
  have one : ∀ {t t' : OpId} {o o' : Op}, Relation.ReflTransGen g.Up t t' → g.op? t = some o →
      g.op? t' = some o' → o.parent = o'.parent → t = t' := by
    intro t t' o o' path ho ho' hp
    rcases Relation.ReflTransGen.cases_head path with he | ⟨q, ⟨o₁, ho₁, hq⟩, rest⟩
    · exact he
    · obtain rfl : o = o₁ := Option.some.inj (ho.symm.trans ho₁)
      have le := h.index_le rest
      have lt := h.up t' q ⟨o', ho', hp.symm.trans hq⟩
      omega
  have rightUnique : Relator.RightUnique g.Up := by
    rintro a b c ⟨o, ho, hb⟩ ⟨o', ho', hc⟩
    obtain rfl : o = o' := Option.some.inj (ho.symm.trans ho')
    exact Option.some.inj (hb.symm.trans hc)
  rcases Relation.ReflTransGen.total_of_right_unique rightUnique ht ht' with path | path
  · exact one path ho ho' hp
  · exact (one path ho' ho hp.symm).symm

end Pristine

/-! ### The second climb -/

/-- `f` is met on the way from `first` up to the sibling of `last` that holds it. -/
def OnWay (g : Graph) (first last f : OpId) : Prop :=
  Relation.ReflTransGen g.Up first f ∧ ∃ top topOp lastOp, Relation.ReflTransGen g.Up f top ∧
    g.op? top = some topOp ∧ g.op? last = some lastOp ∧ topOp.parent = lastOp.parent

/-- A climb goes the same way again while the ops on it keep their parents. -/
theorem childWithin_keep {p : Option OpId} {fault fault' : Fault} {n m : Nat}
    (h : childWithin p fault n x g = .ok top g)
    (hkeep : ∀ v op, Relation.ReflTransGen g.Up x v → Relation.ReflTransGen g.Up v top →
      g.op? v = some op → ∃ op', g'.op? v = some op' ∧ op'.parent = op.parent) (hn : n ≤ m) :
    childWithin p fault' m x g' = .ok top g' := by
  induction n generalizing x m with
  | zero => cases h
  | succ n ih =>
    obtain ⟨m, rfl⟩ : ∃ k, m = k + 1 := ⟨m - 1, by omega⟩
    obtain ⟨-, path, -⟩ := childWithin_eq_ok h
    rw [childWithin] at h
    obtain ⟨op, g₁, hfind, hrest⟩ := Effect.bind_eq_ok.mp h
    obtain ⟨hop, rfl⟩ := find_eq_ok.mp hfind
    obtain ⟨op', hop', hsame⟩ := hkeep x op .refl path hop
    rw [childWithin, Effect.bind_ok (find_of_some hop'), hsame]
    by_cases hp : op.parent = p
    · rw [if_pos hp] at hrest ⊢
      cases hrest
      rfl
    · rw [if_neg hp] at hrest ⊢
      cases hup : op.parent with
      | none =>
        rw [hup] at hrest
        cases hrest
      | some up =>
        rw [hup] at hrest
        exact ih hrest (fun v o hv => hkeep v o (.head ⟨op, hop, hup⟩ hv)) (by omega)

/-- **A climb that meets an op that `new` has adopted ends at `new`.** -/
theorem childWithin_adopted (hg : g.Pristine) {p : Option OpId} {fault fault' : Fault} {n m : Nat}
    {new f : OpId} {newOp : Op} {fs : List OpId} (h : childWithin p fault n x g = .ok top g)
    (hxf : Relation.ReflTransGen g.Up x f) (hft : Relation.ReflTransGen g.Up f top) (hf : f ∈ fs)
    (hops : ∀ v op, g.op? v = some op →
      ∃ op', g'.op? v = some op' ∧ op'.parent = if v ∈ fs then some new else op.parent)
    (hnew : g'.op? new = some newOp) (hp : newOp.parent = p) (hne : p ≠ some new) (hn : n < m) :
    childWithin p fault' m x g' = .ok new g' := by
  induction n generalizing x m with
  | zero => cases h
  | succ n ih =>
    obtain ⟨m, rfl⟩ : ∃ k, m = k + 2 := ⟨m - 2, by omega⟩
    rw [childWithin] at h
    obtain ⟨op, g₁, hfind, hrest⟩ := Effect.bind_eq_ok.mp h
    obtain ⟨hop, rfl⟩ := find_eq_ok.mp hfind
    obtain ⟨op', hop', hparent⟩ := hops x op hop
    rw [childWithin, Effect.bind_ok (find_of_some hop'), hparent]
    by_cases hx : x ∈ fs
    · -- the adopted op leads to `new`, whose parent is the one asked for
      rw [if_pos hx, if_neg hne.symm]
      show childWithin p fault' (m + 1) new g' = _
      rw [childWithin, Effect.bind_ok (find_of_some hnew), if_pos hp]
      rfl
    · rw [if_neg hx]
      obtain ⟨y, ⟨o, ho, hy⟩, rest⟩ : ∃ y, g₁.Up x y ∧ Relation.ReflTransGen g₁.Up y f := by
        rcases Relation.ReflTransGen.cases_head hxf with rfl | step
        · exact absurd hf hx
        · exact step
      obtain rfl : op = o := Option.some.inj (hop.symm.trans ho)
      have goOn : op.parent ≠ p := by
        intro he
        rw [if_pos he] at hrest
        have same : top = x := by
          cases hrest
          rfl
        have le := hg.index_le (rest.trans hft)
        rw [same] at le
        have lt := hg.up x y ⟨op, hop, hy⟩
        omega
      rw [if_neg goOn, hy] at hrest ⊢
      exact ih hrest rest (by omega)

/-! ### The second replacement -/

/-- **In `g'` the op `new` stands where `old` stood in `g`**: in the list of the same parent or at
the root, before the same successor, and the entry and all links of ops that are not dead lead to
it where they led to `old`. -/
structure TakesOver (old new : OpId) (g g' : Graph) : Prop where
  seat : ∃ o n, g.op? old = some o ∧ g'.op? new = some n ∧ n.next = o.next ∧ n.parent = o.parent ∧
    ∀ p, o.parent = some p → ∃ pre post po pn, g.op? p = some po ∧ g'.op? p = some pn ∧
      po.kids = pre ++ old :: post ∧ pn.kids = pre ++ new :: post
  root : g'.root = redirect old new g.root
  entry : g'.entry = redirect old new g.entry
  links : ∀ x op op', g.op? x = some op → g'.op? x = some op' → op'.state ≠ .dead →
    op'.next = redirect old new op.next ∧ op'.other = redirect old new op.other

/-- A unit that is put in the place of a single op takes over from it. -/
theorem Substituted.takesOver {first old : OpId} {fs as bs : List OpId}
    (h : Substituted first old old fs op.parent op.next as bs g g') (ho : g.op? old = some op)
    (hrange : g.Range op.parent old old as [old] bs) (hroot : op.parent ≠ none → g.root ≠ some old) :
    TakesOver old ⟨g.size⟩ g g' where
  seat := by
    obtain ⟨n, hn, hparent, hnext, -⟩ := h.new
    refine ⟨op, n, ho, hn, hnext, hparent, fun p hp => ?_⟩
    rw [hp] at hrange
    obtain ⟨po, hpo, -, hkids, -⟩ := hrange
    obtain ⟨s, hs⟩ := h.ops p po hpo
    refine ⟨as, bs, po, _, hpo, hs, by simpa using hkids, ?_⟩
    simp only [Op.kids_turned, if_pos hp.symm]
  root := by
    rw [h.root, redirect]
    by_cases hp : op.parent = none
    · simp only [hp, true_and]
    · rw [if_neg (hp ·.1), if_neg (hroot hp)]
  entry := by rw [h.entry, redirect_eq_map]
  links x o o' hx hx' hlive := by
    obtain ⟨s, hs⟩ := h.ops x o hx
    rw [hx'] at hs
    cases hs
    simp only [Op.state_turned] at hlive
    rw [redirect_eq_map, redirect_eq_map, Op.turned_of_live _ hlive]
    exact ⟨rfl, rfl⟩

/-- The new op is a range of its own. -/
theorem Substituted.range (hg : g.Pristine) {first last front : OpId} {p next : Option OpId}
    {fs as seg bs : List OpId} (h : Substituted first last front fs p next as bs g g')
    (hrange : g.Range p top last as seg bs) :
    g'.Range p ⟨g.size⟩ ⟨g.size⟩ as [⟨g.size⟩] bs := by
  cases p with
  | none => exact ⟨rfl, rfl⟩
  | some q =>
    obtain ⟨op, hq, hn, hkids, -⟩ := hrange
    obtain ⟨s, hs⟩ := h.ops q op hq
    have old := hg.kids q op hq
    rw [hkids] at hn old
    have fresh : ⟨g.size⟩ ∉ as ++ bs := by
      intro hmem
      have := old ⟨g.size⟩ (by simp at hmem ⊢; tauto)
      exact Nat.lt_irrefl _ this
    have kept : (as ++ ⟨g.size⟩ :: bs).Nodup :=
      List.nodup_middle.mpr (List.nodup_cons.mpr ⟨fresh, hn.sublist (by simp)⟩)
    refine ⟨_, hs, ?_, ?_, rfl, rfl⟩
    · simpa only [Op.kids_turned, if_true] using kept
    · simp

/-- After the first replacement every op has one that stands for it. -/
theorem Substituted.stands_resolve (hg : g.Pristine) {first last : OpId} {p next : Option OpId}
    {fs as bs : List OpId} (h : Substituted first last first fs p next as bs g g')
    (hx : ∃ op, g'.op? x = some op) : g'.Stands x (g'.resolve x) := by
  have found : ∃ y, g'.Stands x y := by
    obtain ⟨op', hx⟩ := hx
    rcases h.inherits.op_inv hx with rfl | ⟨op, ho⟩
    · exact ⟨_, h.inherits.new_stands⟩
    · obtain ⟨op', ho', he⟩ := h.inherits.ops x op ho
      split at he
      · exact ⟨_, h.inherits.stands_new ‹_› (hg.stands ho)⟩
      · exact ⟨x, .refl ho' (he.trans (hg.heirless x op ho))⟩
  obtain ⟨y, hy⟩ := found
  rwa [hy.resolve (h.inherits.ordered hg.ordered)]

/-- An exchange is refused where the parent does not list the first sibling. -/
theorem exchange_refused {p : Option OpId} {last new : OpId} {fault : Fault}
    (hkids : ∀ q, p = some q → ∃ op, g.op? q = some op ∧ top ∉ op.kids)
    (hroot : p = none → top ≠ last) : exchange p top last new fault g = .error fault g := by
  unfold exchange
  cases p with
  | none =>
    dsimp only
    rw [if_neg (hroot rfl)]
    rfl
  | some q =>
    obtain ⟨op, ho, hmem⟩ := hkids q rfl
    dsimp only
    rw [Effect.bind_ok (find_of_some ho), List.idxOf?_eq_none_iff.mpr hmem]
    rfl

section Twice

variable {first last new : OpId} {unit₁ : CompiledUnit} {keep₁ : Bool} {g₁ : Graph}
  (unit₂ : CompiledUnit) (keep₂ : Bool)

/-- **The second replacement takes over**, if a fragment of the first unit is on the way.

The unit has adopted the fragment, so the climb leads from `first` to the fragment as before and
from there to the unit.  Both ends of the second range are the unit, and it alone is replaced. -/
theorem Pristine.replace_takesOver (hg : g.Pristine)
    (hfs₁ : ∀ f ∈ unit₁.fragments, ∃ op, g.op? f = some op)
    (hr : replace first last unit₁ keep₁ g = .ok new g₁)
    (hfs₂ : ∀ f ∈ unit₂.fragments, ∃ op, g₁.op? f = some op)
    (hway : ∃ f ∈ unit₁.fragments, g.OnWay first last f) :
    ∃ g₂, replace first last unit₂ keep₂ g₁ = .ok ⟨g₁.size⟩ g₂ ∧ TakesOver new ⟨g₁.size⟩ g₁ g₂ ∧
      g₂.resolve first = ⟨g₁.size⟩ ∧ g₂.resolve last = ⟨g₁.size⟩ := by
  obtain ⟨rfl, ⟨firstOp, hfirst⟩, lastOp, top, fault, as, seg, bs, hlast, hclimb, hrange, sub⟩ :=
    hg.substituted hfs₁ hr
  obtain ⟨newOp, hnew, hparent, -⟩ := sub.new
  have ordered := sub.inherits.ordered hg.ordered
  have first₁ : g₁.Stands first ⟨g.size⟩ := sub.inherits.stands_new (.inl rfl) (hg.stands hfirst)
  have last₁ : g₁.Stands last ⟨g.size⟩ :=
    sub.inherits.stands_new (.inr (.inl rfl)) (hg.stands hlast)
  have hne : lastOp.parent ≠ some ⟨g.size⟩ := by
    intro hp
    rw [hp] at hrange
    obtain ⟨o, hq, -⟩ := hrange
    exact ne_new hq rfl
  have climb : childWithin newOp.parent (.notContiguous first ⟨g.size⟩) (g₁.size + 1) first g₁ =
      .ok ⟨g.size⟩ g₁ := by
    obtain ⟨f, hf, hxf, top', topOp', lastOp', hft, htop', hlast', hp'⟩ := hway
    obtain ⟨-, path, topOp, htop, hp⟩ := childWithin_eq_ok hclimb
    obtain rfl : lastOp = lastOp' := Option.some.inj (hlast.symm.trans hlast')
    obtain rfl := hg.top_unique path (hxf.trans hft) htop htop' (hp.trans hp'.symm)
    refine childWithin_adopted hg (hparent ▸ hclimb) hxf hft hf (fun v op hv => ?_) hnew rfl
      (hparent ▸ hne) (by rw [sub.size]; omega)
    obtain ⟨s, hs⟩ := sub.ops v op hv
    exact ⟨_, hs, by simp only [Op.parent_turned]⟩
  have range : g₁.Range newOp.parent ⟨g.size⟩ ⟨g.size⟩ as [⟨g.size⟩] bs :=
    hparent ▸ sub.range hg hrange
  have placed : List.Forall₂ g₁.Stands unit₂.fragments (unit₂.fragments.map g₁.resolve) :=
    List.forall₂_map_right_iff.mpr
      (List.forall₂_same.mpr fun f hf => sub.stands_resolve hg (hfs₂ f hf))
  obtain ⟨g₂, hr₂, sub₂⟩ := replace_substituted keep₂ ordered first₁ last₁ hnew climb range placed
  have hroot : newOp.parent ≠ none → g₁.root ≠ some ⟨g.size⟩ := by
    intro hp he
    rw [hparent] at hp
    rw [sub.root, if_neg (hp ·.1)] at he
    exact Nat.lt_irrefl _ (hg.root _ he)
  have ordered₂ := sub₂.inherits.ordered ordered
  exact ⟨g₂, hr₂, sub₂.takesOver hnew range hroot,
    (sub₂.inherits.stands_new (.inr (.inl rfl)) first₁).resolve ordered₂,
    (sub₂.inherits.stands_new (.inr (.inl rfl)) last₁).resolve ordered₂⟩

/-- **The second replacement is refused**, if none is.

No op on the way has another parent than before, so the climb ends where it ended the first time, at
a sibling that has left the list of its parent. -/
theorem Pristine.replace_refused (hg : g.Pristine)
    (hfs₁ : ∀ f ∈ unit₁.fragments, ∃ op, g.op? f = some op)
    (hr : replace first last unit₁ keep₁ g = .ok new g₁)
    (hway : ∀ f ∈ unit₁.fragments, ¬ g.OnWay first last f) :
    ∃ g₂, replace first last unit₂ keep₂ g₁ = .error (.notContiguous first new) g₂ := by
  obtain ⟨rfl, -, lastOp, top, fault, as, seg, bs, hlast, hclimb, hrange, sub⟩ :=
    hg.substituted hfs₁ hr
  obtain ⟨newOp, hnew, hparent, -⟩ := sub.new
  have last₁ : g₁.Stands last ⟨g.size⟩ :=
    sub.inherits.stands_new (.inr (.inl rfl)) (hg.stands hlast)
  obtain ⟨-, path, topOp, htop, hp⟩ := childWithin_eq_ok hclimb
  -- no op on the way has a new parent, so that the climb ends where the first one ended
  have climb : childWithin newOp.parent (.notContiguous first ⟨g.size⟩) (g₁.size + 1) first g₁ =
      .ok top g₁ := by
    rw [hparent]
    refine childWithin_keep hclimb (fun v op hxv hvt hv => ?_) (by rw [sub.size]; omega)
    obtain ⟨s, hs⟩ := sub.ops v op hv
    have hout : v ∉ unit₁.fragments := fun hmem =>
      hway v hmem ⟨hxv, top, topOp, lastOp, hvt, htop, hlast, hp⟩
    exact ⟨_, hs, by simp only [Op.parent_turned, if_neg hout]⟩
  have gone : ∀ q, newOp.parent = some q → ∃ op, g₁.op? q = some op ∧ top ∉ op.kids := by
    intro q hq
    rw [hparent] at hq
    rw [hq] at hrange sub
    obtain ⟨op, hop, hn, hkids, hhead, -⟩ := hrange
    obtain ⟨s, hs⟩ := sub.ops q op hop
    refine ⟨_, hs, ?_⟩
    obtain ⟨seg, rfl⟩ := List.head?_eq_some_iff.mp hhead
    rw [hkids, List.append_assoc, List.cons_append, List.nodup_middle, List.nodup_cons] at hn
    have hne := ne_new htop
    simp only [List.mem_append, not_or] at hn
    simp [hn.1, hne]
  unfold replace
  rw [Effect.get_bind, Effect.get_bind, last₁.resolve (sub.inherits.ordered hg.ordered)]
  dsimp only
  rw [Effect.bind_ok (find_of_some hnew), Effect.get_bind, Effect.bind_ok climb]
  have appended : append { kind := .native unit₂, next := newOp.next, parent := newOp.parent } g₁ =
      .ok ⟨g₁.size⟩ _ := rfl
  refine ⟨_, (Effect.bind_ok appended).trans (Effect.bind_error (exchange_refused (fun q hq => ?_) ?_))⟩
  · obtain ⟨op, ho, hmem⟩ := gone q hq
    exact ⟨op, by rw [op?_push, if_neg (ne_new ho), ho], hmem⟩
  · exact fun _ => ne_new htop

/-- **Replacing a range again.**  In a graph that has just been linked, when a unit has been put
in the place of a range, a second replacement of that range takes over from the unit if one of
its fragments is met on the way from `first` up to the siblings of the range.  If none is, the
second replacement is refused.

What stands for `last` is the first unit, by its heirs, so the second range has to end with it.  It
begins where the climb from `first` ends, in the graph that the first replacement has left: at the
unit if the climb meets a fragment that the unit has adopted, and else at the sibling that the range
began with before, which is in no list any more. -/
theorem replace_again {owner : OwnerId} {ts : List HostTree} {g₀ : Graph} {r entry : OpId}
    (hg : Assembled owner g₀ ts) (hlink : link r g₀ = .ok entry g)
    (hfs : ∀ f ∈ unit₁.fragments, ∃ op, g.op? f = some op)
    (hr : applyEdit ⟨owner, .replace first last unit₁ keep₁⟩ g = .ok (some new) g₁) :
    ((∃ f ∈ unit₁.fragments, g.OnWay first last f) →
      (∀ f ∈ unit₂.fragments, ∃ op, g₁.op? f = some op) →
      ∃ new' g₂, applyEdit ⟨owner, .replace first last unit₂ keep₂⟩ g₁ = .ok (some new') g₂ ∧
        TakesOver new new' g₁ g₂ ∧ g₂.resolve first = new' ∧ g₂.resolve last = new') ∧
    ((∀ f ∈ unit₁.fragments, ¬ g.OnWay first last f) →
      ∃ g₂, applyEdit ⟨owner, .replace first last unit₂ keep₂⟩ g₁ =
        .error (.notContiguous first new) g₂) := by
  obtain ⟨pristine, same⟩ := hg.pristine.linked hlink
  have owner₀ : g.owner = owner := same.trans hg.forest.2
  rw [applyEdit_replace owner₀] at hr
  obtain ⟨id, hr, hid⟩ := Effect.map_eq_ok.mp hr
  cases hid
  obtain ⟨-, -, lastOp, top, fault, as, seg, bs, -, -, -, sub⟩ := pristine.substituted hfs hr
  rw [applyEdit_replace (sub.owner.trans owner₀)]
  constructor
  · intro hway hfs₂
    obtain ⟨g₂, hr₂, takes, hfirst, hlast⟩ :=
      pristine.replace_takesOver unit₂ keep₂ hfs hr hfs₂ hway
    exact ⟨⟨g₁.size⟩, g₂, Effect.map_ok hr₂, takes, hfirst, hlast⟩
  · intro hway
    obtain ⟨g₂, hr₂⟩ := pristine.replace_refused unit₂ keep₂ hfs hr hway
    exact ⟨g₂, Effect.map_error hr₂⟩

/-- The guard of the sum gives way to a unit that keeps its condition, and then to another. -/
theorem replace_again_guard : ∃ g g₁ new' g₂, link ⟨4⟩ sumGraph = .ok ⟨0⟩ g ∧
    applyEdit ⟨⟨0⟩, .replace ⟨1⟩ ⟨3⟩ ⟨"first", [], [⟨1⟩]⟩ false⟩ g = .ok (some ⟨5⟩) g₁ ∧
    applyEdit ⟨⟨0⟩, .replace ⟨1⟩ ⟨3⟩ ⟨"second", [], []⟩ false⟩ g₁ = .ok (some new') g₂ ∧
    TakesOver ⟨5⟩ new' g₁ g₂ ∧ g₂.resolve ⟨1⟩ = new' ∧ g₂.resolve ⟨3⟩ = new' := by
  obtain ⟨g, hlink⟩ : ∃ g, link ⟨4⟩ sumGraph = .ok ⟨0⟩ g := ⟨_, rfl⟩
  obtain ⟨g₁, hr⟩ : ∃ g₁, applyEdit ⟨⟨0⟩, .replace ⟨1⟩ ⟨3⟩ ⟨"first", [], [⟨1⟩]⟩ false⟩ g =
      .ok (some ⟨5⟩) g₁ := by
    cases hlink
    exact ⟨_, rfl⟩
  obtain ⟨o₁, o₃, h₁, h₃, hup⟩ : ∃ o₁ o₃, g.op? ⟨1⟩ = some o₁ ∧ g.op? ⟨3⟩ = some o₃ ∧
      o₁.parent = some ⟨3⟩ := by
    cases hlink
    exact ⟨_, _, rfl, rfl, rfl⟩
  have onWay : g.OnWay ⟨1⟩ ⟨3⟩ ⟨1⟩ := ⟨.refl, ⟨3⟩, o₃, o₃, .single ⟨o₁, h₁, hup⟩, h₃, h₃, rfl⟩
  have known : ∀ f ∈ (⟨"first", [], [⟨1⟩]⟩ : CompiledUnit).fragments, ∃ op, g.op? f = some op := by
    intro f hf
    obtain rfl := List.mem_singleton.mp hf
    exact ⟨o₁, h₁⟩
  obtain ⟨new', g₂, hr₂, takes, hfirst, hlast⟩ :=
    (replace_again ⟨"second", [], []⟩ false sumGraph_assembled hlink known hr).1
      ⟨⟨1⟩, by simp, onWay⟩ (by simp)
  exact ⟨g, g₁, new', g₂, hlink, hr, hr₂, takes, hfirst, hlast⟩

/-- If the unit keeps nothing of the guard, the second replacement of the guard is refused. -/
theorem replace_again_refused : ∃ g g₁ g₂, link ⟨4⟩ sumGraph = .ok ⟨0⟩ g ∧
    applyEdit ⟨⟨0⟩, .replace ⟨1⟩ ⟨3⟩ ⟨"first", [], []⟩ false⟩ g = .ok (some ⟨5⟩) g₁ ∧
    applyEdit ⟨⟨0⟩, .replace ⟨1⟩ ⟨3⟩ ⟨"second", [], []⟩ false⟩ g₁ =
      .error (.notContiguous ⟨1⟩ ⟨5⟩) g₂ :=
  ⟨_, _, _, rfl, rfl, rfl⟩

end Twice

end Graph

end Graft
