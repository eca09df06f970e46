import Graft.Proofs.Linking
import Graft.Proofs.Mirror
import Graft.Proofs.Replacement

/-! # Assembled graphs

A graph that is assembled op by op is a forest: every op is in one of its trees, once, and
names its parent there.  When one of the trees is linked it stands in the graph
(`Forest.loaded`), as the edits of the compiler expect to find it.

Assembling adds an op with kids that are roots so far.  The trees of the forest are the
invariant: a new op takes the trees of its kids below it, and the others stay as they are
(`Forest.add`).  That kids are roots, and none is named twice, is what keeps the trees apart;
no op is then in two of them, and linking one leaves the others without links.
-/

namespace Graft

open HostTree

/-- **The graph is a forest of ops that have not been linked.** -/
structure Forest (g : Graph) (ts : List HostTree) : Prop where
  root : g.root = none
  reads : ∀ t ∈ ts, Reads g t
  seated : ∀ t ∈ ts, Seated g none t
  nodup : (idsAll ts).Nodup
  all : ∀ x op, g.op? x = some op → x ∈ idsAll ts
  plain : ∀ x op, g.op? x = some op →
    op.heir = none ∧ op.other = none ∧ op.state = .live ∧ op.kind.shape ≠ .unit

namespace Graph

variable {g : Graph} {x : OpId}

/-- The kids of a new op get it as their parent. -/
theorem foldl_adopt (id : OpId) (ks : List OpId) (g : Graph) :
    (ks.foldl (fun h kid => h.update kid fun k => { k with parent := some id }) g).size = g.size ∧
      ∀ x, (ks.foldl (fun h kid => h.update kid fun k => { k with parent := some id }) g).op? x =
        (g.op? x).map fun o => if x ∈ ks then { o with parent := some id } else o := by
  induction ks generalizing g with
  | nil => simp
  | cons k ks ih =>
    obtain ⟨hsize, hops⟩ := ih (g.update k fun k => { k with parent := some id })
    refine ⟨by rw [List.foldl_cons, hsize, size_update], fun x => ?_⟩
    rw [List.foldl_cons, hops, op?_update]
    by_cases hx : x = k
    · rw [if_pos hx, Option.map_map]
      refine congrArg (fun f => Option.map f _) (funext fun o => ?_)
      simp [hx]
    · rw [if_neg hx]
      simp [hx]

/-- The ops after one was added. -/
theorem op?_add (g : Graph) (op : Op) (x : OpId) : (g.add op).2.op? x =
    if x = ⟨g.size⟩ then some op
    else (g.op? x).map fun o =>
      if x ∈ op.kids then { o with parent := some ⟨g.size⟩ } else o := by
  obtain ⟨hsize, hops⟩ := foldl_adopt ⟨g.size⟩ op.kids g
  unfold add
  dsimp only
  rw [op?_push, hops, hsize]

theorem root_add (g : Graph) (op : Op) : (g.add op).2.root = g.root ∧ (g.add op).2.owner = g.owner := by
  unfold add
  dsimp only
  generalize OpId.mk g.size = id
  induction op.kids generalizing g with
  | nil => exact ⟨rfl, rfl⟩
  | cons k ks ih => exact ih (g.update k fun k => { k with parent := some id })

/-- The ops that were there before one was added. -/
theorem op?_add_of_lt (op : Op) (hx : x.index < g.size) : (g.add op).2.op? x =
    (g.op? x).map fun o => if x ∈ op.kids then { o with parent := some ⟨g.size⟩ } else o := by
  rw [op?_add, if_neg]
  rintro rfl
  exact Nat.lt_irrefl _ hx

/-- An op that the new one does not take keeps its seat. -/
theorem sameSeat_add {op : Op} (hx : x.index < g.size) (hout : x ∉ op.kids) :
    SameSeat g (g.add op).2 x := by
  intro op' ho'
  rw [op?_add_of_lt op hx] at ho'
  obtain ⟨o, ho, rfl⟩ := Option.map_eq_some_iff.mp ho'
  rw [if_neg hout]
  exact ⟨o, ho, rfl, fun h => h, fun h => h⟩

end Graph

theorem perm_idsAll {ts ks rest : List HostTree} (h : ts.Perm (ks ++ rest)) :
    (idsAll ts).Perm (idsAll ks ++ idsAll rest) := by
  rw [← idsAll_append, idsAll_eq_flatMap, idsAll_eq_flatMap]
  exact h.flatMap_right _

theorem HostTree.Reads.add {g : Graph} {t : HostTree} (h : Reads g t) (op : Op) :
    Reads (g.add op).2 t := by
  intro s hs
  obtain ⟨o, ho, hface, hkids⟩ := h s hs
  have hx := Graph.op?_add_of_lt op (Graph.lt_size_of_op? ho)
  rw [ho, Option.map_some] at hx
  refine ⟨_, hx, ?_, ?_⟩
  · split <;> exact hface
  · split <;> exact hkids

/-- A tree that a new op takes is seated below it. -/
theorem HostTree.Seated.adopted {g : Graph} {p : Option OpId} {t : HostTree} {op : Op}
    (h : Seated g p t) (hr : Reads g t) (hn : t.ids.Nodup) (ht : t.root ∈ op.kids)
    (hout : ∀ x ∈ t.ids, x ≠ t.root → x ∉ op.kids) : Seated (g.add op).2 (some ⟨g.size⟩) t := by
  refine h.reroot hn (fun op' ho' => ?_) fun x hx hne =>
    Graph.sameSeat_add (hr.lt_size hx) (hout x hx hne)
  rw [Graph.op?_add_of_lt op (hr.lt_size (root_mem_ids t))] at ho'
  obtain ⟨o, ho, rfl⟩ := Option.map_eq_some_iff.mp ho'
  rw [if_pos ht]
  exact ⟨o, ho, rfl, fun h => h, fun h => h⟩

/-- **A forest in which a new op takes some of the trees is a forest.** -/
theorem Forest.add {g : Graph} {ts ks rest : List HostTree} {f : Face} (h : Forest g ts)
    (hperm : ts.Perm (ks ++ rest)) (hf : f.kind.shape ≠ .unit) :
    Forest
      (g.add { kind := f.kind, kids := ks.map HostTree.root, targ := f.targ, stacked := f.stacked }).2
      (node ⟨g.size⟩ f ks :: rest) := by
  have perm := perm_idsAll hperm
  have parts := perm.nodup_iff.mp h.nodup
  obtain ⟨hks, -, hdisj⟩ := List.nodup_append.mp parts
  have mem : ∀ {t}, t ∈ ks ++ rest → t ∈ ts := fun ht => hperm.mem_iff.mpr ht
  generalize hop :
    { kind := f.kind, kids := ks.map HostTree.root, targ := f.targ, stacked := f.stacked : Op } = op
  have kids : op.kids = ks.map HostTree.root := by rw [← hop]
  have new : (g.add op).2.op? ⟨g.size⟩ = some op := by rw [Graph.op?_add, if_pos rfl]
  have reads : ∀ t ∈ ts, Reads (g.add op).2 t := fun t ht => (h.reads t ht).add op
  refine ⟨(Graph.root_add g op).1.trans h.root, fun t ht => ?_, fun t ht => ?_, ?_,
    fun x o ho => ?_, fun x o ho => ?_⟩
  · rcases List.mem_cons.mp ht with rfl | ht
    · have face : op.face = f := by rw [← hop]; rfl
      exact reads_node.mpr ⟨⟨op, new, face, kids⟩, fun k hk => reads k (mem (by simp [hk]))⟩
    · exact reads t (mem (by simp [ht]))
  · rcases List.mem_cons.mp ht with rfl | ht
    · refine seated_node.mpr ⟨fun o ho => ?_, fun k hk => ?_⟩
      · obtain rfl : op = o := Option.some.inj (new.symm.trans ho)
        rw [← hop]
        exact ⟨rfl, by simp, fun _ _ => rfl⟩
      · have hkt : k ∈ ts := mem (by simp [hk])
        refine (h.seated k hkt).adopted (h.reads k hkt) (nodup_of_mem hk hks)
          (by rw [kids]; exact List.mem_map_of_mem hk) fun x hx hne hmem => ?_
        rw [kids] at hmem
        obtain ⟨u, hu, rfl⟩ := List.mem_map.mp hmem
        exact hne (eq_of_mem_ids hks hk hu hx (root_mem_ids u) ▸ rfl)
    · have htt : t ∈ ts := mem (by simp [ht])
      refine (h.seated t htt).transport fun x hx =>
        Graph.sameSeat_add ((h.reads t htt).lt_size hx) fun hmem => ?_
      rw [kids] at hmem
      obtain ⟨u, hu, rfl⟩ := List.mem_map.mp hmem
      exact hdisj _ (mem_idsAll.mpr ⟨u, hu, root_mem_ids u⟩) _ (mem_idsAll.mpr ⟨t, ht, hx⟩) rfl
  · rw [idsAll_cons, ids_node, List.cons_append, List.nodup_cons]
    refine ⟨fun hmem => ?_, parts⟩
    obtain ⟨t, ht, hx⟩ := mem_idsAll.mp (perm.mem_iff.mpr hmem)
    exact Nat.lt_irrefl _ ((h.reads t ht).lt_size hx)
  · rw [idsAll_cons, ids_node, List.cons_append, List.mem_cons, ← perm.mem_iff]
    rw [Graph.op?_add] at ho
    split at ho
    · exact .inl ‹_›
    · obtain ⟨o', ho', -⟩ := Option.map_eq_some_iff.mp ho
      exact .inr (h.all x o' ho')
  · rw [Graph.op?_add] at ho
    split at ho
    · cases ho
      rw [← hop]
      exact ⟨rfl, rfl, rfl, hf⟩
    · obtain ⟨o', ho', rfl⟩ := Option.map_eq_some_iff.mp ho
      have := h.plain x o' ho'
      split <;> exact this

/-- **Assembling gives a forest.** -/
theorem Assembled.forest {owner : OwnerId} {g : Graph} {ts : List HostTree}
    (h : Assembled owner g ts) : Forest g ts ∧ g.owner = owner := by
  induction h with
  | empty =>
    refine ⟨⟨rfl, by simp, by simp, by simp, fun x op ho => ?_, fun x op ho => ?_⟩, rfl⟩
    · simp [Graph.op?] at ho
    · simp [Graph.op?] at ho
  | add f _ hperm hf ih => exact ⟨ih.1.add hperm hf, (Graph.root_add _ _).2.trans ih.2⟩

/-- Linking leaves a tree seated: the branches that it sets are those of ops that choose. -/
theorem HostTree.Seated.relinked {g g' : Graph} {p : Option OpId} {t : HostTree} (h : Seated g p t)
    (hr : Reads g t) (hl : g.Relinked g') : Seated g' p t := by
  induction t using induction generalizing p with
  | step id f ks ih =>
    obtain ⟨here, below⟩ := seated_node.mp h
    obtain ⟨⟨op, ho, rfl, -⟩, reads⟩ := reads_node.mp hr
    refine seated_node.mpr ⟨fun op' ho' => ?_, fun k hk => ih k hk (below k hk) (reads k hk)⟩
    obtain ⟨op₁, ho₁, he⟩ := hl.op ho
    obtain rfl : op' = op₁ := Option.some.inj (ho'.symm.trans ho₁)
    obtain ⟨hp, hlive, hstraight⟩ := here op ho
    have parent : op'.parent = op.parent := by simpa using congrArg Op.parent he
    have state : op'.state = op.state := by simpa using congrArg Op.state he
    refine ⟨parent.trans hp, state ▸ hlive, fun h₁ h₂ => ?_⟩
    exact (Op.other_of_skeleton he h₁ h₂).trans (hstraight h₁ h₂)

/-- What edits start from: a program that is linked as the whole graph. -/
structure Loaded (g : Graph) (T : HostTree) : Prop where
  standing : Standing g none none [T]
  root : g.root = some T.root
  entry : g.entry = some T.start
  /-- Nothing has been replaced, and there is no unit yet. -/
  plain : ∀ x op, g.op? x = some op → op.heir = none ∧ op.kind.shape ≠ .unit
  live : ∀ x op, g.op? x = some op → op.state ≠ .dead
  /-- Ops outside the program have no kids in it. -/
  apart : ∀ x op, g.op? x = some op → x ∉ T.ids → ∀ k ∈ op.kids, k ∉ T.ids ∧ k.index < g.size

/-- **A tree of a forest that is linked is loaded.** -/
theorem Forest.loaded {g g' : Graph} {ts : List HostTree} {T : HostTree} {entry : OpId}
    (h : Forest g ts) (hT : T ∈ ts) (hl : Graph.link T.root g = .ok entry g') :
    Loaded g' T ∧ g'.owner = g.owner := by
  obtain ⟨-, g₁, hwithin, rfl⟩ := Graph.link_eq_ok hl
  have nodup := nodup_of_mem hT h.nodup
  have reads := h.reads T hT
  have interpreted : ∀ s ∈ T.subtrees, s.shape ≠ .unit := by
    intro s hs
    obtain ⟨op, ho, hface, -⟩ := reads s hs
    unfold HostTree.shape
    rw [← hface]
    exact (h.plain s.root op ho).2.2.2
  obtain ⟨rfl, threads⟩ := Graph.linkWithin_linked nodup interpreted reads hwithin
  have relinked := Graph.linkWithin_relinked hwithin
  have same : ∀ x, { g₁ with root := some T.root, entry := some T.start : Graph }.op? x = g₁.op? x :=
    fun _ => rfl
  have back : ∀ {x op}, g₁.op? x = some op → ∃ op₀, g.op? x = some op₀ ∧ op₀.skeleton = op.skeleton :=
    fun ho => relinked.symm.op ho
  refine ⟨⟨⟨⟨threads.linked.congr fun x _ => same x, trivial⟩,
    ⟨((h.seated T hT).relinked reads relinked).transport fun x hx op ho =>
      ⟨op, ho, rfl, fun h => h, fun h => h⟩, trivial⟩, by simpa using nodup,
    fun c hc => by (cases hc), fun q hq => by (cases hq), fun r hr => ?_, fun r hr t ht hrt => ?_⟩,
    rfl, rfl, fun x op ho => ?_, fun x op ho => ?_, fun x op ho hx k hk => ?_⟩, relinked.owner⟩
  · cases hr
    exact threads.linked.reads.lt_size (root_mem_ids T)
  · cases hr
    obtain rfl := List.mem_singleton.mp ht
    exact ⟨rfl, rfl⟩
  · obtain ⟨op₀, ho₀, he⟩ := back ho
    have heir : op₀.heir = op.heir := by simpa using congrArg Op.heir he
    have kind : op₀.kind = op.kind := by simpa using congrArg Op.kind he
    obtain ⟨hheir, -, -, hunit⟩ := h.plain x op₀ ho₀
    exact ⟨heir ▸ hheir, kind ▸ hunit⟩
  · obtain ⟨op₀, ho₀, he⟩ := back ho
    have state : op₀.state = op.state := by simpa using congrArg Op.state he
    rw [← state, (h.plain x op₀ ho₀).2.2.1]
    simp
  · -- the op is in another tree, and so are its kids
    obtain ⟨op₀, ho₀, he⟩ := back ho
    have kids : op₀.kids = op.kids := by simpa using congrArg Op.kids he
    obtain ⟨u, hu, hxu⟩ := mem_idsAll.mp (h.all x op₀ ho₀)
    obtain ⟨s, hs, rfl⟩ := mem_ids.mp hxu
    obtain ⟨op', ho', -, hkids⟩ := h.reads u hu s hs
    obtain rfl : op₀ = op' := Option.some.inj (ho₀.symm.trans ho')
    rw [← kids, hkids] at hk
    obtain ⟨v, hv, rfl⟩ := List.mem_map.mp hk
    have hvu : v.root ∈ u.ids :=
      ids_subset hs (ids_subset (subtrees_of_kid hv) (root_mem_ids v))
    refine ⟨fun hmem => hx (eq_of_mem_ids h.nodup hu hT hvu hmem ▸ hxu), ?_⟩
    obtain ⟨ov, hov⟩ := Graph.exists_op? ((h.reads u hu).lt_size hvu)
    obtain ⟨ov', hov', -⟩ := relinked.op hov
    exact Graph.lt_size_of_op? hov'

end Graft
