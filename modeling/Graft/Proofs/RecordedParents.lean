import Graft.Proofs.RepeatedSplice

/-! # Parents as ops record them

An op that is added makes itself the parent of the kids that it lists, as far as they are in the
graph by then.  A kid that is added later is listed by an op that it does not name: it keeps no
parent, though the tree is linked and run as if it had one.  So the parents that ops record are
those that list them (`Graph.Unedited.listed`), but only ops that were added before the op that
lists them are sure to record it (`Graph.Built.up_of_kid`).

The links of execution do not depend on parents.  To use what is known of rows that stand in a
graph (`HostTree.Standing`), where parents are recorded throughout, a graph is looked at as if
every op of the tree named the op that lists it (`Graph.reseated`); its ops, links and kids are
those of the graph itself.

Edits do read parents, so what is shown with their help in the reseated graph is only about links.
Whether an edit succeeds is decided in the graph itself.
-/

namespace Graft

open HostTree

namespace Graph

variable {g g' : Graph} {x y : OpId} {op : Op} {owner : OwnerId} {T : HostTree}

/-! ### Graphs that have been built -/

/-- **A graph that has been built and not edited.**  Ops are added one by one, in any order and with
any kids, also with some that are not there yet; and what has been added may be linked. -/
inductive Built (owner : OwnerId) : Graph → Prop where
  | empty : Built owner { owner }
  | add {g : Graph} (f : Face) (kids : List OpId) : Built owner g → f.kind.shape ≠ .unit →
      Built owner (g.add { kind := f.kind, kids, targ := f.targ, stacked := f.stacked }).2
  | link {g g' : Graph} {root entry : OpId} : Built owner g → Graph.link root g = .ok entry g' →
      Built owner g'

/-- **Nothing has been replaced or taken out**, and a parent that is recorded lists the op. -/
structure Unedited (g : Graph) : Prop where
  heirless : ∀ x op, g.op? x = some op → op.heir = none
  live : ∀ x op, g.op? x = some op → op.state = .live
  interpreted : Interpreted g
  straight : ∀ x op, g.op? x = some op → op.kind.shape ≠ .short → op.kind.shape ≠ .choice →
    op.other = none
  listed : ∀ x y, g.Up x y → g.Kid y x

theorem kid_add_of_kid {new : Op} (h : g.Kid x y) : (g.add new).2.Kid x y := by
  obtain ⟨op, ho, hy⟩ := h
  have kept := op?_add_of_lt new (lt_size_of_op? ho)
  rw [ho, Option.map_some] at kept
  refine ⟨_, kept, ?_⟩
  split <;> exact hy

theorem kid_add_new {new : Op} (h : y ∈ new.kids) : (g.add new).2.Kid ⟨g.size⟩ y :=
  ⟨new, by rw [op?_add, if_pos rfl], h⟩

/-- A kid is one of the op that was added, or was one before. -/
theorem kid_of_kid_add {new : Op} (h : (g.add new).2.Kid x y) :
    x = ⟨g.size⟩ ∧ y ∈ new.kids ∨ g.Kid x y := by
  obtain ⟨op, ho, hy⟩ := h
  rcases op_of_add ho with ⟨rfl, rfl⟩ | ⟨o, ho', rfl⟩
  · exact .inl ⟨rfl, hy⟩
  · refine .inr ⟨o, ho', ?_⟩
    split at hy <;> exact hy

theorem Unedited.add (h : g.Unedited) {new : Op} (hheir : new.heir = none)
    (hlive : new.state = .live) (hkind : new.kind.shape ≠ .unit) (hother : new.other = none)
    (hparent : new.parent = none) : (g.add new).2.Unedited where
  heirless x op ho := by
    rcases op_of_add ho with ⟨-, rfl⟩ | ⟨o, ho', rfl⟩
    · exact hheir
    · have old := h.heirless x o ho'
      split <;> exact old
  live x op ho := by
    rcases op_of_add ho with ⟨-, rfl⟩ | ⟨o, ho', rfl⟩
    · exact hlive
    · have old := h.live x o ho'
      split <;> exact old
  interpreted x op ho := by
    rcases op_of_add ho with ⟨-, rfl⟩ | ⟨o, ho', rfl⟩
    · exact hkind
    · have old := h.interpreted x o ho'
      split <;> exact old
  straight x op ho := by
    rcases op_of_add ho with ⟨-, rfl⟩ | ⟨o, ho', rfl⟩
    · exact fun _ _ => hother
    · have old := h.straight x o ho'
      split <;> exact old
  listed x y hup := by
    obtain ⟨op, ho, hp⟩ := hup
    rcases op_of_add ho with ⟨-, rfl⟩ | ⟨o, ho', rfl⟩
    · rw [hparent] at hp
      cases hp
    · split at hp
      · next hx =>
        cases hp
        exact kid_add_new hx
      · exact kid_add_of_kid (h.listed x y ⟨o, ho', hp⟩)

/-- An op of a graph that was linked, as it was before. -/
theorem op_of_link {root entry : OpId} (hl : link root g = .ok entry g') (ho : g'.op? x = some op) :
    ∃ o, g.op? x = some o ∧ o.skeleton = op.skeleton := by
  obtain ⟨-, g₁, hwithin, rfl⟩ := link_eq_ok hl
  exact (linkWithin_relinked hwithin).symm.op ho

theorem op_link {root entry : OpId} (hl : link root g = .ok entry g') (ho : g.op? x = some op) :
    ∃ o, g'.op? x = some o ∧ o.skeleton = op.skeleton := by
  obtain ⟨-, g₁, hwithin, rfl⟩ := link_eq_ok hl
  exact (linkWithin_relinked hwithin).op ho

theorem kid_link {root entry : OpId} (hl : link root g = .ok entry g') : g'.Kid x y ↔ g.Kid x y := by
  constructor
  · rintro ⟨op, ho, hy⟩
    obtain ⟨o, ho', he⟩ := op_of_link hl ho
    have kids : o.kids = op.kids := by simpa using congrArg Op.kids he
    exact ⟨o, ho', kids ▸ hy⟩
  · rintro ⟨op, ho, hy⟩
    obtain ⟨o, ho', he⟩ := op_link hl ho
    have kids : o.kids = op.kids := by simpa using congrArg Op.kids he
    exact ⟨o, ho', kids ▸ hy⟩

theorem up_link {root entry : OpId} (hl : link root g = .ok entry g') : g'.Up x y ↔ g.Up x y := by
  constructor
  · rintro ⟨op, ho, hy⟩
    obtain ⟨o, ho', he⟩ := op_of_link hl ho
    have parent : o.parent = op.parent := by simpa using congrArg Op.parent he
    exact ⟨o, ho', parent.trans hy⟩
  · rintro ⟨op, ho, hy⟩
    obtain ⟨o, ho', he⟩ := op_link hl ho
    have parent : o.parent = op.parent := by simpa using congrArg Op.parent he
    exact ⟨o, ho', parent.trans hy⟩

theorem Unedited.link {root entry : OpId} (h : g.Unedited) (hl : link root g = .ok entry g') :
    g'.Unedited where
  heirless x op ho := by
    obtain ⟨o, ho', he⟩ := op_of_link hl ho
    have heir : o.heir = op.heir := by simpa using congrArg Op.heir he
    exact heir ▸ h.heirless x o ho'
  live x op ho := by
    obtain ⟨o, ho', he⟩ := op_of_link hl ho
    have state : o.state = op.state := by simpa using congrArg Op.state he
    exact state ▸ h.live x o ho'
  interpreted x op ho := by
    obtain ⟨o, ho', he⟩ := op_of_link hl ho
    have kind : o.kind = op.kind := by simpa using congrArg Op.kind he
    exact kind ▸ h.interpreted x o ho'
  straight x op ho h₁ h₂ := by
    obtain ⟨o, ho', he⟩ := op_of_link hl ho
    have kind : o.kind = op.kind := by simpa using congrArg Op.kind he
    rw [← kind] at h₁ h₂
    exact (Op.other_of_skeleton he.symm h₁ h₂).trans (h.straight x o ho' h₁ h₂)
  listed x y hup := (kid_link hl).mpr (h.listed x y ((up_link hl).mp hup))

theorem Built.unedited (h : Built owner g) : g.Unedited := by
  induction h with
  | empty =>
    have none : ∀ x op, ({ owner } : Graph).op? x ≠ some op := fun x op => by simp [op?]
    exact ⟨fun x op ho => absurd ho (none x op), fun x op ho => absurd ho (none x op),
      fun x op ho => absurd ho (none x op), fun x op ho => absurd ho (none x op),
      fun x _ hup => hup.elim fun op ho => absurd ho.1 (none x op)⟩
  | add f kids _ hf ih => exact ih.add rfl rfl hf rfl rfl
  | link _ hl ih => exact ih.link hl

/-- A graph that was assembled kids first has been built. -/
theorem Built.of_assembled {ts : List HostTree} (h : Assembled owner g ts) : Built owner g := by
  induction h with
  | empty => exact .empty
  | add f _ _ hf ih => exact ih.add f _ hf

theorem Built.owner_eq (h : Built owner g) : g.owner = owner := by
  induction h with
  | empty => rfl
  | add f kids _ _ ih => exact (root_add _ _).2.trans ih
  | link _ hl ih =>
    obtain ⟨-, g₁, hwithin, rfl⟩ := link_eq_ok hl
    exact (linkWithin_relinked hwithin).owner.trans ih

/-- **An op that was added before the one that lists it names it as its parent**, if no other op
lists it. -/
theorem Built.up_of_kid (h : Built owner g) (hu : ∀ a b x, g.Kid a x → g.Kid b x → a = b)
    (hk : g.Kid y x) (hlt : x.index < y.index) : g.Up x y := by
  induction h generalizing x y with
  | empty =>
    obtain ⟨op, ho, -⟩ := hk
    simp [op?] at ho
  | @add g f kids _ _ ih =>
    generalize hnew :
      { kind := f.kind, kids, targ := f.targ, stacked := f.stacked : Op } = new at hu hk ⊢
    rcases kid_of_kid_add hk with ⟨rfl, hx⟩ | hk'
    · obtain ⟨o, ho⟩ := exists_op? hlt
      have adopted := op?_add_of_lt new hlt
      rw [ho, Option.map_some, if_pos hx] at adopted
      exact ⟨_, adopted, rfl⟩
    · -- no op that is added later lists `x` again
      have out : x ∉ new.kids := fun hx => by
        obtain ⟨o, ho, -⟩ := hk'
        exact ne_new ho (hu y _ x hk (kid_add_new hx))
      obtain ⟨o, ho, hp⟩ := ih (fun a b z ha hb => hu a b z (kid_add_of_kid ha) (kid_add_of_kid hb))
        hk' hlt
      have kept := op?_add_of_lt new (lt_size_of_op? ho)
      rw [ho, Option.map_some, if_neg out] at kept
      exact ⟨o, kept, hp⟩
  | link _ hl ih =>
    refine (up_link hl).mpr (ih (fun a b z ha hb => ?_) ((kid_link hl).mp hk) hlt)
    exact hu a b z ((kid_link hl).mpr ha) ((kid_link hl).mpr hb)

/-! ### Trees that have just been linked -/

/-- **The tree has just been linked as the whole graph**, in which nothing has been edited. -/
structure Fresh (g : Graph) (T : HostTree) : Prop where
  linked : Linked g T none
  nodup : T.ids.Nodup
  root : g.root = some T.root
  entry : g.entry = some T.start
  once : ∀ x op, g.op? x = some op → op.kids.Nodup
  unedited : g.Unedited

theorem Built.fresh {r entry : OpId} (h : Built owner g) (hu : Unshared g) (ha : Acyclic g)
    (hl : Graph.link r g = .ok entry g') : ∃ T : HostTree, T.root = r ∧ Fresh g' T := by
  obtain ⟨T, rfl, -, nodup, -, rfl, linked, hentry, hroot⟩ :=
    link_linked h.unedited.interpreted hu ha hl
  refine ⟨T, rfl, linked, nodup, hroot, hentry, fun x op ho => ?_, (h.link hl).unedited⟩
  obtain ⟨o, ho', he⟩ := op_of_link hl ho
  have kids : o.kids = op.kids := by simpa using congrArg Op.kids he
  exact kids ▸ hu.nodup ho'

theorem Fresh.heirless (h : Fresh g T) : g.Heirless := ⟨h.unedited.heirless, h.once⟩

end Graph

/-- The op of the tree that lists `x`. -/
def HostTree.parentIn (T : HostTree) (x : OpId) : Option OpId :=
  (T.subtrees.find? fun s => decide (x ∈ s.kids.map root)).map root

namespace HostTree

variable {s t T : HostTree}

theorem idsAll_kids_subset (s : HostTree) : idsAll s.kids ⊆ s.ids := by
  cases s with
  | node id f ks => simp [kids]

theorem root_mem_ids_of_kid (hs : s ∈ T.subtrees) (ht : t ∈ s.kids) : t.root ∈ T.ids :=
  ids_subset hs (idsAll_kids_subset s (mem_idsAll.mpr ⟨t, ht, root_mem_ids t⟩))

/-- The root of a tree without repetitions is listed by none of its ops. -/
theorem root_not_listed (hn : T.ids.Nodup) (hs : s ∈ T.subtrees) : T.root ∉ s.kids.map root := by
  intro hmem
  obtain ⟨k, hk, hroot⟩ := List.mem_map.mp hmem
  cases T with
  | node id f ks =>
    refine (nodup_kids hn).1 ?_
    rw [show id = k.root from hroot.symm, mem_idsAll]
    rcases mem_subtrees_iff.mp hs with rfl | ⟨u, hu, hsu⟩
    · exact ⟨k, hk, root_mem_ids k⟩
    · exact ⟨u, hu, root_mem_ids_of_kid hsu hk⟩

/-- A tree without repetitions lists no op twice. -/
theorem root_eq_of_listed {x : OpId} (hn : T.ids.Nodup) (hs : s ∈ T.subtrees)
    (ht : t ∈ T.subtrees) (hxs : x ∈ s.kids.map root) (hxt : x ∈ t.kids.map root) :
    s.root = t.root := by
  induction T using induction with
  | step id f ks ih =>
    obtain ⟨-, hkids⟩ := nodup_kids hn
    -- what the root lists is the root of a kid, and not listed below that kid
    have below : ∀ {u v : HostTree}, u ∈ ks → v ∈ u.subtrees → x ∈ v.kids.map root →
        x ∉ ks.map root := by
      intro u v hu hv hxv hx
      obtain ⟨w, hw, rfl⟩ := List.mem_map.mp hx
      obtain ⟨c, hc, he⟩ := List.mem_map.mp hxv
      obtain rfl : u = w := eq_of_mem_ids hkids hu hw (root_mem_ids_of_kid hv hc)
        (he ▸ root_mem_ids w)
      exact root_not_listed (nodup_of_mem hu hkids) hv hxv
    rcases mem_subtrees_iff.mp hs with rfl | ⟨k, hk, hsk⟩ <;>
      rcases mem_subtrees_iff.mp ht with rfl | ⟨l, hl, htl⟩
    · rfl
    · exact absurd hxs (below hl htl hxt)
    · exact absurd hxt (below hk hsk hxs)
    · obtain ⟨a, ha, rfl⟩ := List.mem_map.mp hxs
      obtain ⟨b, hb, hab⟩ := List.mem_map.mp hxt
      obtain rfl : k = l := eq_of_mem_ids hkids hk hl (root_mem_ids_of_kid hsk ha)
        (hab ▸ root_mem_ids_of_kid htl hb)
      exact ih k hk (nodup_of_mem hk hkids) hsk htl

theorem parentIn_kid (hn : T.ids.Nodup) (hs : s ∈ T.subtrees) (ht : t ∈ s.kids) :
    T.parentIn t.root = some s.root := by
  have listed : t.root ∈ s.kids.map root := List.mem_map_of_mem ht
  unfold parentIn
  cases hfind : T.subtrees.find? fun s => decide (t.root ∈ s.kids.map root) with
  | none => exact absurd (by simpa using listed) (List.find?_eq_none.mp hfind s hs)
  | some u =>
    have hu := List.mem_of_find?_eq_some hfind
    have hmem : t.root ∈ u.kids.map root := by simpa using List.find?_some hfind
    rw [Option.map_some, root_eq_of_listed hn hs hu listed hmem]

theorem parentIn_root (hn : T.ids.Nodup) : T.parentIn T.root = none := by
  unfold parentIn
  rw [Option.map_eq_none_iff, List.find?_eq_none]
  intro s hs
  simpa using root_not_listed hn hs

end HostTree

namespace Graph

variable {g g' : Graph} {x y : OpId} {op : Op} {T : HostTree}

/-- The graph as it would be if every op named the op of the tree that lists it. -/
def reseated (g : Graph) (T : HostTree) : Graph :=
  { g with ops := g.ops.mapIdx fun i op => { op with parent := T.parentIn ⟨i⟩ } }

@[simp]
theorem op?_reseated (g : Graph) (T : HostTree) (x : OpId) :
    (g.reseated T).op? x = (g.op? x).map fun op => { op with parent := T.parentIn x } := by
  simp [reseated, op?, Array.getElem?_mapIdx]

theorem size_reseated (g : Graph) (T : HostTree) : (g.reseated T).size = g.size := by
  simp [reseated, size]

theorem kid_reseated : (g.reseated T).Kid x y ↔ g.Kid x y := by
  simp [Kid]

theorem leads_reseated : (g.reseated T).Leads x y ↔ g.Leads x y := by
  simp [Leads]

theorem turned_reseated (x : OpId) : Turned g (g.reseated T) (fun c => c) x := by
  intro op ho
  exact ⟨{ op with parent := T.parentIn x }, by rw [op?_reseated, ho]; rfl, rfl, rfl, rfl, rfl⟩

theorem reads_reseated {t : HostTree} (h : Reads (g.reseated T) t) : Reads g t := by
  intro s hs
  obtain ⟨op', ho', hface, hkids⟩ := h s hs
  rw [op?_reseated] at ho'
  obtain ⟨op, ho, rfl⟩ := Option.map_eq_some_iff.mp ho'
  exact ⟨op, ho, hface, hkids⟩

/-- **With its own parents a tree that has just been linked stands in the graph.**

Its links are not touched by that, and each op of it has the parent that lists it, by induction over
the subtrees. -/
theorem Fresh.standing (h : Fresh g T) : Standing (g.reseated T) none none [T] := by
  have linked : Linked (g.reseated T) T none :=
    h.linked.turned (τ := fun c => c) rfl (fun _ _ => rfl) fun x _ => turned_reseated x
  have seated : ∀ s ∈ T.subtrees, Seated (g.reseated T) (T.parentIn s.root) s := by
    intro s
    induction s using HostTree.induction with
    | step id f ks ih =>
      intro hs
      refine seated_node.mpr ⟨fun op' ho' => ?_, fun k hk => ?_⟩
      · rw [op?_reseated] at ho'
        obtain ⟨op, ho, rfl⟩ := Option.map_eq_some_iff.mp ho'
        obtain ⟨op₁, ho₁, hface, -⟩ := h.linked.reads _ hs
        obtain rfl : op = op₁ := Option.some.inj (ho.symm.trans ho₁)
        have kind : op.kind = f.kind := congrArg Face.kind hface
        refine ⟨rfl, by simp [h.unedited.live id op ho], fun h₁ h₂ => ?_⟩
        exact h.unedited.straight id op ho (kind ▸ h₁) (kind ▸ h₂)
      · have below := ih k hk (subtrees_trans (subtrees_of_kid (t := node id f ks) hk) hs)
        rwa [parentIn_kid h.nodup hs hk] at below
  have top := seated T (mem_subtrees_self T)
  rw [parentIn_root h.nodup] at top
  refine ⟨⟨linked, trivial⟩, ⟨top, trivial⟩, by simpa using h.nodup, fun c hc => by (cases hc),
    fun q hq => by (cases hq), fun r hr => ?_, fun r hr t ht hrt => ?_⟩
  · rw [size_reseated]
    cases h.root.symm.trans hr
    exact h.linked.reads.lt_size (root_mem_ids T)
  · cases h.root.symm.trans hr
    obtain rfl := List.mem_singleton.mp ht
    exact ⟨rfl, rfl⟩

end Graph

end Graft
