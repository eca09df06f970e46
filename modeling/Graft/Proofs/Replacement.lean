import Graft.Proofs.Extraction

/-! # Putting a unit in the place of trees

When the fragments of some sibling trees have been taken out, a unit takes the place of the
trees and adopts the fragments.  `Ready.close` says that this is a regraft, with the unit's op
and the fragments below it as the new tree.

What is left of the trees then is their stems, the ops that the unit stands for, and `Ready` is what
is known of them: they still stand in their row, no link leads into one from outside but to the
front of the row, and the fragments are alive and linked by themselves.  From the first op of the
row parents lead up through the stem, so the climb ends at the first tree (`Ready.climbs`) and the
edit succeeds (`Ready.replaced`).

Each of the lemmas after that is one part of what a regraft asks for: the unit and its fragments
are linked, seated and standing; parents lead from the old ops to the parent of the unit; what has
gone out of use owns nothing that is in use; and outside the row nothing has changed but links to
its front.  They all read the same summary of the edit (`Graph.Replaced`) and do not go back to its
steps.
-/

namespace Graft

namespace Graph.Replaced

variable {g g' : Graph} {X : OpId → Prop} {first last front : OpId} {unit : CompiledUnit}
  {p next : Option OpId} {as bs : List OpId} {x y : OpId}

theorem inherits (h : Replaced X first last front unit p next as bs g g') :
    Inherits first last front g g' where
  size := h.size
  new := ⟨_, h.new, rfl⟩
  ops x op ho := by
    obtain ⟨s, -, ho'⟩ := h.ops x op ho
    exact ⟨_, ho', rfl⟩

theorem kinds (h : Replaced X first last front unit p next as bs g g') (x : OpId) (op : Op)
    (ho : g.op? x = some op) : ∃ op', g'.op? x = some op' ∧ op'.kind = op.kind := by
  obtain ⟨s, -, ho'⟩ := h.ops x op ho
  exact ⟨_, ho', by simp⟩

/-- Only the unit is added. -/
theorem added (h : Replaced X first last front unit p next as bs g g') (x : OpId) (op : Op)
    (hx : g.size ≤ x.index) (ho : g'.op? x = some op) : op.kind.shape = .unit := by
  rcases h.inherits.op_inv ho with rfl | ⟨op₁, ho₁⟩
  · rw [h.new] at ho
    cases ho
    rfl
  · exact absurd (lt_size_of_op? ho₁) (Nat.not_lt.mpr hx)

/-- Parents are kept, but fragments are adopted. -/
theorem up (h : Replaced X first last front unit p next as bs g g') (hxy : g.Up x y) :
    g'.Up x (if x ∈ unit.fragments then ⟨g.size⟩ else y) := by
  obtain ⟨op, ho, hup⟩ := hxy
  obtain ⟨s, -, ho'⟩ := h.ops x op ho
  refine ⟨_, ho', ?_⟩
  dsimp only
  rw [Op.parent_turned]
  dsimp only
  split
  · rfl
  · exact hup

end Graph.Replaced

namespace HostTree

variable {g g₀ g' : Graph} {p cont : Option OpId} {t : HostTree} {ts fs done : List HostTree}

theorem eq_of_mem_ids {u : HostTree} {x : OpId} (hn : (idsAll ts).Nodup) (ht : t ∈ ts) (hu : u ∈ ts)
    (hx : x ∈ t.ids) (hx' : x ∈ u.ids) : t = u := by
  induction ts with
  | nil => cases ht
  | cons v ts ih =>
    rw [idsAll_cons, List.nodup_append] at hn
    rcases List.mem_cons.mp ht with htv | htv <;> rcases List.mem_cons.mp hu with huv | huv
    · exact htv.trans huv.symm
    · exact absurd rfl (hn.2.2 x (htv ▸ hx) x (mem_idsAll.mpr ⟨u, huv, hx'⟩))
    · exact absurd rfl (hn.2.2 x (huv ▸ hx') x (mem_idsAll.mpr ⟨t, htv, hx⟩))
    · exact ih hn.2.1 htv huv

theorem split_unique {as bs as' bs' rs : List OpId} {r : OpId}
    (hn : (as ++ (r :: rs) ++ bs).Nodup) (h : as ++ (r :: rs) ++ bs = as' ++ (r :: rs) ++ bs') :
    as = as' ∧ bs = bs' := by
  have place : as.length = as'.length := by
    have same : as ++ r :: (rs ++ bs) = as' ++ r :: (rs ++ bs') := by simpa using h
    have nodup : (as ++ r :: (rs ++ bs)).Nodup := by simpa using hn
    have first := Graph.idxOf?_of_split nodup
    have second := Graph.idxOf?_of_split (same ▸ nodup)
    rw [same, second] at first
    exact (Option.some.inj first).symm
  rw [List.append_assoc, List.append_assoc] at h
  obtain ⟨hl, hr⟩ := List.append_inj h place
  exact ⟨hl, List.append_cancel_left hr⟩

/-- The parent lists the row, or the row is a single tree at the top. -/
def Placed (g : Graph) (p : Option OpId) (ts : List HostTree) : Prop :=
  match p with
  | some q => ∃ op as bs, g.op? q = some op ∧ op.kids.Nodup ∧ op.kids = as ++ ts.map root ++ bs
  | none => ∃ t, ts = [t]

/-- **All fragments of the trees have been taken out**, and a unit may take their place. -/
structure Ready (g₀ g : Graph) (p cont : Option OpId) (head last : HostTree)
    (ts fs done : List HostTree) : Prop where
  standing : Standing g₀ p cont ts
  carves : Carves ts fs
  opened : Opened g₀ g ts fs fs done []
  top : ∀ t ∈ ts, t.root ∉ idsAll fs
  unitless : ∀ s ∈ subtreesAll ts, s.shape ≠ .unit
  placed : Placed g₀ p ts
  first : ts.head? = some head
  final : ts.getLast? = some last
  plain : last.shape = .plain
  ordered : g₀.Ordered
  stands_start : g₀.Stands head.start head.start
  stands_last : g₀.Stands last.root last.root
  stands_roots : ∀ F ∈ fs, g₀.Stands F.root F.root

namespace Ready

variable {head last : HostTree} {unit : CompiledUnit}

section

variable (h : Ready g₀ g p cont head last ts fs done)
include h

theorem head_mem : head ∈ ts := List.mem_of_head? h.first

theorem last_mem : last ∈ ts := List.mem_of_getLast? h.final

theorem entry : entryOf ts none = some head.start := by
  obtain ⟨us, rfl⟩ := List.head?_eq_some_iff.mp h.first
  rfl

/-- The roots of the trees are in the stem. -/
theorem stem_root (ht : t ∈ ts) : Stem ts fs t.root :=
  ⟨mem_idsAll.mpr ⟨t, ht, root_mem_ids t⟩, h.top t ht⟩

/-- The last op leads where the row leads. -/
theorem last_next {c : Option OpId} (hs : Standing g₀ p c ts) :
    ∃ op, g₀.op? last.root = some op ∧ op.next = c := by
  obtain ⟨us, rfl⟩ := List.getLast?_eq_some_iff.mp h.final
  have linked := (linkedRow_append.mp hs.linked).2.1
  have shape := h.plain
  cases last with
  | node id f ks =>
    obtain ⟨op, ho, -, -, hn, -⟩ := (linked_plain shape).mp linked
    exact ⟨op, ho, hn⟩

/-- The roots of the trees name the parent. -/
theorem root_parent (ht : t ∈ ts) : ∃ op, g₀.op? t.root = some op ∧ op.parent = p ∧
    op.state ≠ .dead := by
  obtain ⟨op, ho⟩ := h.standing.exists_op? (mem_idsAll.mpr ⟨t, ht, root_mem_ids t⟩)
  have seated := seatedAll_iff.mp h.standing.seated t ht
  cases t with
  | node id f ks =>
    obtain ⟨hp, hlive, -⟩ := (seated_node.mp seated).1 op ho
    exact ⟨op, ho, hp, hlive⟩

/-- What is taken out has nothing in common with the stem. -/
theorem stem_done {x : OpId} (hx : Stem ts fs x) : x ∉ idsAll done := fun hmem => by
  rcases h.opened.within x hmem with hw | hw
  · exact hx.2 hw
  · exact Nat.not_lt.mpr hw (h.standing.lt_size hx.1)

/-- **The first op rises to the first tree.** -/
theorem climbs : g.Rises (Within g₀ ts) head.start head.root := by
  have up := h.opened.up head h.head_mem
  have stem : ∀ x, Stem ts fs x → Within g₀ ts x := fun x hx => .inl hx.1
  by_cases hin : head.start ∈ idsAll fs
  · obtain ⟨F, hF, hstart⟩ := mem_idsAll.mp hin
    obtain ⟨t, ht, hsub, d, hd, hstem, -, htops⟩ := h.opened.reach F hF
    obtain rfl := eq_of_mem_ids h.standing.nodup ht h.head_mem (hsub hstart) (start_mem_ids head)
    obtain ⟨top, op, path, -, ho, hup⟩ := htops _ hstart
    have inside : ∀ u, Within g₀ [F] u → Within g₀ ts u := fun u hu =>
      hu.imp (fun hu => h.carves.sublist.subset (mem_idsAll.mpr ⟨F, hF, by simpa using hu⟩))
        fun hu => hu
    exact (path.mono inside).trans
      (.head ⟨⟨op, ho, hup⟩, stem d hstem⟩ ((up d hd hstem.2).mono stem))
  · exact (up _ (start_mem_ids head) hin).mono stem

/-- The stem holds the kids of its ops now. -/
theorem closed : g.Closed (Stem ts fs) := by
  obtain ⟨τ, hτ, -⟩ := h.opened.shifts
  rintro a b ha ⟨op, ho, hb⟩
  obtain ⟨op₀, ho₀⟩ := h.standing.exists_op? ha.1
  rw [hτ.stem a op₀ ha ho₀] at ho
  cases ho
  obtain ⟨hb, hout⟩ := List.mem_filter.mp hb
  exact (h.carves.kids h.standing.nodup (fun t ht => h.standing.reads ht) ha
    ⟨op₀, ho₀, hb⟩).resolve_right (of_decide_eq_true hout)

/-- The ops of what is taken out are live, and neither in the stem nor the parent. -/
theorem done_outside {x : OpId} (hx : x ∈ idsAll done) :
    ¬ Stem ts fs x ∧ some x ≠ p ∧ x.index < g.size ∧ ∀ op, g.op? x = some op → op.state ≠ .dead := by
  obtain ⟨t, ht, hxt⟩ := mem_idsAll.mp hx
  obtain ⟨d, -, hst⟩ := h.opened.detached t ht
  have hxt' : x ∈ idsAll [t] := by simpa using hxt
  refine ⟨fun hs => h.stem_done hs hx, fun hp => ?_, hst.lt_size hxt', fun op ho => hst.live hxt' ho⟩
  have within : Within g₀ ts x :=
    (h.opened.within x hx).imp (fun hw => h.carves.sublist.subset hw) fun hw => hw
  exact (h.standing.parent_outside x hp.symm).not_within within

/-- The trees are a range of siblings now, as they were. -/
theorem range {τ : OpId → OpId} (hτ : Shifts g₀ g ts fs fs τ) :
    ∃ as bs, g.Range p head.root last.root as (ts.map HostTree.root) bs ∧
      ∀ q op, p = some q → g₀.op? q = some op →
        op.kids.Nodup ∧ op.kids = as ++ ts.map HostTree.root ++ bs := by
  have placed := h.placed
  cases p with
  | none =>
    obtain ⟨t, rfl⟩ := placed
    have first := h.first
    have final := h.final
    obtain rfl : t = head := by simpa using first
    obtain rfl : t = last := by simpa using final
    exact ⟨[], [], ⟨rfl, rfl⟩, fun q _ hq => by cases hq⟩
  | some q =>
    obtain ⟨op, as, bs, ho, hn, hk⟩ := placed
    have outside := (h.standing.parent_outside q rfl).1
    refine ⟨as, bs, ⟨_, hτ.outer q op outside ho, by simpa using hn, by simpa using hk, ?_, ?_⟩, ?_⟩
    · rw [List.head?_map, h.first]
      rfl
    · rw [List.getLast?_map, h.final]
      rfl
    · intro q' op' hq' ho'
      cases hq'
      obtain rfl : op = op' := Option.some.inj (ho.symm.trans ho')
      exact ⟨hn, hk⟩

/-- **The unit can be put in.** -/
theorem replaced {τ : OpId → OpId} (hτ : Shifts g₀ g ts fs fs τ)
    (hfront : g.Stands head.start (τ head.start)) (hfr : unit.fragments = fs.map HostTree.root) :
    ∃ g' as bs, Graph.replace head.start last.root unit false g = .ok ⟨g.size⟩ g' ∧
      g.Replaced (Stem ts fs) head.start last.root (τ head.start) unit p cont as bs g' ∧
      ∀ q op, p = some q → g₀.op? q = some op →
        op.kids.Nodup ∧ op.kids = as ++ ts.map HostTree.root ++ bs := by
  obtain ⟨lastOp, hlast, hp, hnext, hheir⟩ : ∃ op, g.op? last.root = some op ∧ op.parent = p ∧
      op.next = cont ∧ op.heir = none := by
    obtain ⟨op, ho, hparent, hlive⟩ := h.root_parent h.last_mem
    obtain ⟨op', ho', hnext⟩ := h.last_next h.standing
    obtain ⟨op'', ho'', hheir⟩ := h.stands_last.2
    obtain rfl : op = op' := Option.some.inj (ho.symm.trans ho')
    obtain rfl : op = op'' := Option.some.inj (ho.symm.trans ho'')
    refine ⟨_, hτ.stem _ op (h.stem_root h.last_mem) ho, ?_, ?_, ?_⟩
    · simpa using hparent
    · dsimp only
      rw [Op.turned_of_live τ hlive, hnext]
      cases cont with
      | none => rfl
      | some c => exact congrArg some (hτ.fixes c (h.standing.cont_outside c rfl))
    · simpa using hheir
  obtain ⟨topOp, htop, hp'⟩ : ∃ op, g.op? head.root = some op ∧ op.parent = p := by
    obtain ⟨op, ho, hparent, -⟩ := h.root_parent h.head_mem
    exact ⟨_, hτ.stem _ op (h.stem_root h.head_mem) ho, by simpa using hparent⟩
  obtain ⟨as, bs, hrange, hplaced⟩ := h.range hτ
  have old : ∀ x, Stem ts fs x → x.index < g.size := fun x hx =>
    Nat.lt_of_lt_of_le (h.standing.lt_size hx.1) h.opened.size_le
  have roots : ∀ x ∈ ts.map HostTree.root, Stem ts fs x := fun x hx => by
    obtain ⟨t, ht, rfl⟩ := List.mem_map.mp hx
    exact h.stem_root ht
  have fragments : ∀ f ∈ unit.fragments, ∃ o, g.op? f = some o ∧ o.heir = none := fun f hf => by
    rw [hfr] at hf
    obtain ⟨F, hF, rfl⟩ := List.mem_map.mp hf
    exact (h.opened.stands_roots F hF _ (h.stands_roots F hF)).2
  obtain ⟨g', hreplace, hrep, -⟩ := Graph.replace_replaced (S := Within g₀ ts)
    (h.opened.ordered h.ordered) hfront hlast hheir h.climbs htop (hp'.trans hp.symm)
    (fun q hq => (h.standing.parent_outside q (hp ▸ hq)).not_within) (hp ▸ hrange) h.closed old
    roots (fun q hq hx => (h.standing.parent_outside q (hp ▸ hq)).1 hx.1) fragments
  rw [hp, hnext] at hrep
  exact ⟨g', as, bs, hreplace, hrep, hplaced⟩

end

/-! What the replacement makes of the ops, with the facts about the fragments. -/

section Replaced

variable {τ : OpId → OpId} {as bs : List OpId} (h : Ready g₀ g p cont head last ts fs done)
  (hfr : unit.fragments = fs.map HostTree.root)
  (hrep : g.Replaced (Stem ts fs) head.start last.root (τ head.start) unit p cont as bs g')
include h hfr hrep

/-- The ops of a fragment have their links turned; its root has the unit as its parent. -/
theorem done_op {x : OpId} {op : Op} (hx : x ∈ idsAll done) (ho : g.op? x = some op) :
    ∃ heir, g'.op? x = some { op with
      next := op.next.map (Graph.turn (τ head.start) ⟨g.size⟩)
      other := op.other.map (Graph.turn (τ head.start) ⟨g.size⟩)
      parent := if x ∈ done.map HostTree.root then some ⟨g.size⟩ else op.parent
      heir := heir } := by
  obtain ⟨hout, hp, -, hlive⟩ := h.done_outside hx
  obtain ⟨s, hs, ho'⟩ := hrep.ops x op ho
  obtain rfl := hs hout
  simp only [Op.turned, if_neg (hlive op ho), if_neg hp, hfr, ← h.opened.roots] at ho'
  exact ⟨_, ho'⟩

/-- **The unit and its fragments are linked.** -/
theorem linked_unit (hfront : Stem ts fs (τ head.start) ∨ ∃ t ∈ done, t.start = τ head.start) :
    Linked g' (node ⟨g.size⟩ ⟨.native unit, none, false⟩ done) cont := by
  refine (HostTree.linked_unit rfl).mpr ⟨_, hrep.new, rfl, hfr.trans h.opened.roots.symm, rfl,
    linkedEach_iff.mpr fun t ht => ?_⟩
  obtain ⟨d, -, hst⟩ := h.opened.detached t ht
  have inDone : ∀ x ∈ t.ids, x ∈ idsAll done := fun x hx => mem_idsAll.mpr ⟨t, ht, hx⟩
  have nodup : t.ids.Nodup := by simpa using hst.nodup
  -- only the start of the fragment that runs first may be turned
  refine hst.linked.1.turned_start (τ := Option.map (Graph.turn (τ head.start) ⟨g.size⟩)) rfl nodup
    (fun x hx hne => congrArg some (if_neg fun he => ?_)) fun x hx op ho => ?_
  · rcases hfront with hstem | ⟨u, hu, hstart⟩
    · exact h.stem_done (he ▸ hstem) (inDone x hx)
    · have same : t = u := eq_of_mem_ids h.opened.nodup ht hu hx
        (by rw [he, ← hstart]; exact start_mem_ids u)
      exact hne (he.trans (same ▸ hstart.symm))
  · obtain ⟨heir, ho'⟩ := h.done_op hfr hrep (inDone x hx) ho
    exact ⟨_, ho', rfl, rfl, rfl, rfl⟩

/-- **The unit is seated, and its fragments below it.** -/
theorem seated_unit : Seated g' p (node ⟨g.size⟩ ⟨.native unit, none, false⟩ done) := by
  refine seated_node.mpr ⟨fun op ho => ?_, fun t ht => ?_⟩
  · rw [hrep.new] at ho
    cases ho
    exact ⟨rfl, by simp, fun _ _ => rfl⟩
  · obtain ⟨d, -, hst⟩ := h.opened.detached t ht
    have inDone : ∀ x ∈ t.ids, x ∈ idsAll done := fun x hx => mem_idsAll.mpr ⟨t, ht, hx⟩
    have nodup : t.ids.Nodup := by simpa using hst.nodup
    refine hst.seated.1.reroot nodup (fun op' ho' => ?_) fun x hx hne op' ho' => ?_
    · obtain ⟨op, ho⟩ := hst.exists_op? (x := t.root) (by simp [root_mem_ids])
      obtain ⟨heir, hnew⟩ := h.done_op hfr hrep (inDone _ (root_mem_ids t)) ho
      rw [ho'] at hnew
      cases hnew
      have hroot : t.root ∈ done.map HostTree.root := List.mem_map.mpr ⟨t, ht, rfl⟩
      exact ⟨op, ho, if_pos hroot, fun h => h, fun hnone => by rw [hnone]; rfl⟩
    · obtain ⟨op, ho⟩ := hst.exists_op? (x := x) (by simpa using hx)
      obtain ⟨heir, hnew⟩ := h.done_op hfr hrep (inDone x hx) ho
      rw [ho'] at hnew
      cases hnew
      have notRoot : x ∉ done.map HostTree.root := fun hmem => by
        obtain ⟨u, hu, rfl⟩ := List.mem_map.mp hmem
        exact hne (eq_of_mem_ids h.opened.nodup ht hu hx (root_mem_ids u) ▸ rfl)
      exact ⟨op, ho, if_neg notRoot, fun h => h, fun hnone => by rw [hnone]; rfl⟩

omit hfr hrep in
/-- What is in the new tree was in the row, or is new. -/
theorem within_unit {f : Face} {x : OpId} (hx : x ∈ idsAll [node ⟨g.size⟩ f done]) :
    Within g₀ ts x := by
  rw [idsAll_cons, idsAll_nil, List.append_nil, ids_node, List.mem_cons] at hx
  rcases hx with rfl | hx
  · exact .inr h.opened.size_le
  · exact (h.opened.within x hx).imp (fun hw => h.carves.sublist.subset hw) fun hw => hw

/-- **The unit stands in the place of the row.** -/
theorem standing_unit (hfront : Stem ts fs (τ head.start) ∨ ∃ t ∈ done, t.start = τ head.start) :
    Standing g' p cont [node ⟨g.size⟩ ⟨.native unit, none, false⟩ done] := by
  have old : ∀ x, Outside g₀ ts x → Outside g' [node ⟨g.size⟩ ⟨.native unit, none, false⟩ done] x :=
    fun x hx => ⟨fun hmem => hx.not_within (h.within_unit hmem), by
      have := hx.2
      have := h.opened.size_le
      rw [hrep.size]
      omega⟩
  refine ⟨⟨h.linked_unit hfr hrep hfront, trivial⟩, ⟨h.seated_unit hfr hrep, trivial⟩, ?_,
    fun c hc => old c (h.standing.cont_outside c hc),
    fun q hq => old q (h.standing.parent_outside q hq), fun r hr => ?_, fun r hr t ht hrt => ?_⟩
  · rw [idsAll_cons, idsAll_nil, List.append_nil, ids_node, List.nodup_cons]
    exact ⟨fun hmem => Nat.lt_irrefl _ (h.done_outside hmem).2.2.1, h.opened.nodup⟩
  · rw [hrep.root] at hr
    rw [hrep.size]
    split at hr
    · cases hr
      exact Nat.lt_succ_self _
    · rw [h.opened.root] at hr
      have := h.standing.root_old r hr
      have := h.opened.size_le
      omega
  · obtain rfl := List.mem_singleton.mp ht
    rw [hrep.root] at hr
    split at hr
    · next hnone =>
      cases hr
      exact ⟨hnone.1, rfl⟩
    · rw [ids_node, List.mem_cons] at hrt
      rcases hrt with rfl | hrt
      · have lt := h.standing.root_old _ (h.opened.root ▸ hr)
        exact absurd lt (Nat.not_lt.mpr h.opened.size_le)
      · obtain ⟨u, hu, hru⟩ := mem_idsAll.mp hrt
        obtain ⟨d, -, hst⟩ := h.opened.detached u hu
        exact absurd (hst.root_outside r hr u (by simp) hru).1 (by simp)

/-- **From the old ops parents lead to the parent of the unit**, by the stem or by the unit. -/
theorem rises_unit {x : OpId} (hx : x ∈ idsAll ts) : Tops g' (Within g₀ ts) p x := by
  obtain ⟨τ', hτ, -⟩ := h.opened.shifts
  have newIn : Within g₀ ts ⟨g.size⟩ := .inr h.opened.size_le
  have new : Tops g' (Within g₀ ts) p ⟨g.size⟩ := ⟨_, _, .refl, newIn, hrep.new, rfl⟩
  have notFragment : ∀ u, Stem ts fs u → u ∉ unit.fragments := fun u hu hmem => by
    rw [hfr] at hmem
    obtain ⟨F, hF, rfl⟩ := List.mem_map.mp hmem
    exact hu.2 (mem_idsAll.mpr ⟨F, hF, root_mem_ids F⟩)
  -- up the stem to the root of a tree
  have stem : ∀ u, Stem ts fs u → Tops g' (Within g₀ ts) p u := by
    intro u hu
    obtain ⟨t, ht, hut⟩ := mem_idsAll.mp hu.1
    have path := h.opened.up t ht u hut hu.2
    obtain ⟨op, ho, hparent, -⟩ := h.root_parent ht
    obtain ⟨s, -, ho'⟩ := hrep.ops _ _ (hτ.stem _ op (h.stem_root ht) ho)
    have top : Tops g' (Within g₀ ts) p t.root := by
      refine ⟨_, _, .refl, .inl (h.stem_root ht).1, ho', ?_⟩
      dsimp only
      rw [Op.parent_turned]
      dsimp only
      rw [if_neg (notFragment _ (h.stem_root ht)), Op.parent_turned]
      exact hparent
    clear hut
    induction path using Relation.ReflTransGen.head_induction_on with
    | refl => exact top
    | @head a b step _ ih =>
      have up := hrep.up step.1
      rw [if_neg (notFragment a hu)] at up
      exact .head up (.inl step.2.1) (ih step.2)
  by_cases hin : x ∈ idsAll fs
  · obtain ⟨F, hF, hxF⟩ := mem_idsAll.mp hin
    obtain ⟨t, -, -, d, -, hd, -, htops⟩ := h.opened.reach F hF
    obtain ⟨top, op, path, -, ho, hup⟩ := htops x hxF
    -- at the root of a fragment the way leads to the unit
    have goOn : ∀ u v, g.Up u v → Within g₀ ts v → Tops g' (Within g₀ ts) p v →
        Tops g' (Within g₀ ts) p u := by
      intro u v huv hv htop
      have up := hrep.up huv
      by_cases hu : u ∈ unit.fragments
      · rw [if_pos hu] at up
        exact .head up newIn new
      · rw [if_neg hu] at up
        exact .head up hv htop
    have last := goOn top d ⟨op, ho, hup⟩ (.inl hd.1) (stem d hd)
    clear hx hin hxF
    induction path using Relation.ReflTransGen.head_induction_on with
    | refl => exact last
    | @head a b step _ ih =>
      refine goOn a b step.1 (step.2.imp (fun hb => ?_) fun hb => hb) ih
      exact h.carves.sublist.subset (mem_idsAll.mpr ⟨F, hF, by simpa using hb⟩)
  · exact stem x ⟨hx, hin⟩

omit hfr in
/-- **What is out of use owns nothing that is in use.** -/
theorem shed_unit {f : Face} {y k : OpId} (hy : y ∈ idsAll ts)
    (hy' : y ∉ idsAll [node ⟨g.size⟩ f done]) (hk : g'.Kid y k) :
    Within g₀ ts k ∧ k ∉ idsAll [node ⟨g.size⟩ f done] ∧ k.index < g'.size := by
  rw [idsAll_cons, idsAll_nil, List.append_nil, ids_node, List.mem_cons, not_or] at hy' ⊢
  obtain ⟨op₀, ho₀⟩ := h.standing.exists_op? hy
  obtain ⟨op, ho, -⟩ := h.opened.kinds y op₀ ho₀
  obtain ⟨op', ho', hmem⟩ := hk
  obtain ⟨s, -, ho''⟩ := hrep.ops y op ho
  rw [ho'] at ho''
  cases ho''
  have notParent : some y ≠ p := fun hp => (h.standing.parent_outside y hp.symm).1 hy
  dsimp only at hmem
  rw [Op.kids_turned] at hmem
  dsimp only at hmem
  rw [if_neg notParent] at hmem
  have fresh : ∀ {k}, Within g₀ ts k → k ∉ idsAll done → k.index < g.size →
      Within g₀ ts k ∧ (k ≠ ⟨g.size⟩ ∧ k ∉ idsAll done) ∧ k.index < g'.size := by
    intro k hw hout hlt
    refine ⟨hw, ⟨?_, hout⟩, by rw [hrep.size]; omega⟩
    rintro rfl
    exact Nat.lt_irrefl _ hlt
  by_cases hin : y ∈ idsAll fs
  · obtain ⟨hw, hout, hlt⟩ := h.opened.shed y hin hy'.2 k ⟨op, ho, hmem⟩
    exact fresh (hw.imp (fun hw => h.carves.sublist.subset hw) fun hw => hw) hout hlt
  · have hstem := h.closed y k ⟨hy, hin⟩ ⟨op, ho, hmem⟩
    exact fresh (.inl hstem.1) (h.stem_done hstem)
      (Nat.lt_of_lt_of_le (h.standing.lt_size hstem.1) h.opened.size_le)

omit hfr in
/-- An op that was outside the row has its links turned once more; the parent lists the
unit. -/
theorem outer_op {σ : OpId → OpId} {x : OpId} {op : Op} (hσ : Shifts g₀ g ts fs fs σ)
    (hfr : unit.fragments = fs.map HostTree.root)
    (hτ : Within g₀ ts (τ head.start)) (hx : x ∉ idsAll ts) (ho : g₀.op? x = some op) :
    g'.op? x = some { op.turned (fun y => Graph.turn (τ head.start) ⟨g.size⟩ (σ y)) with
      kids := if some x = p then as ++ ⟨g.size⟩ :: bs else op.kids } := by
  obtain ⟨s, hs, ho'⟩ := hrep.ops x _ (hσ.outer x op hx ho)
  have notStem : ¬ Stem ts fs x := fun hst => hx hst.1
  have notFragment : x ∉ unit.fragments := fun hmem => by
    rw [hfr] at hmem
    obtain ⟨F, hF, rfl⟩ := List.mem_map.mp hmem
    exact hx (h.carves.sublist.subset (mem_idsAll.mpr ⟨F, hF, root_mem_ids F⟩))
  have notNamed : ¬ (x = head.start ∨ x = last.root ∨ x = τ head.start) := by
    rintro (rfl | rfl | rfl)
    · exact hx (mem_idsAll.mpr ⟨head, h.head_mem, start_mem_ids head⟩)
    · exact hx (mem_idsAll.mpr ⟨last, h.last_mem, root_mem_ids last⟩)
    · exact Outside.not_within ⟨hx, Graph.lt_size_of_op? ho⟩ hτ
  obtain rfl := hs notStem
  rw [ho', if_neg notFragment, if_neg notNamed]
  by_cases hd : op.state = .dead
  · simp [Op.turned, hd]
  · simp only [Op.turned, if_neg hd, Option.map_map]
    rfl

omit hfr in
/-- **The only units are the new one and those in its fragments.** -/
theorem units_unit {f : Face} {x : OpId} {op : Op} (hx : Within g₀ ts x) (ho : g'.op? x = some op)
    (hu : op.kind.shape = .unit) : x ∈ idsAll [node ⟨g.size⟩ f done] := by
  rw [idsAll_cons, idsAll_nil, List.append_nil, ids_node, List.mem_cons]
  rcases hrep.inherits.op_inv ho with rfl | ⟨op₁, ho₁⟩
  · exact .inl rfl
  · obtain ⟨op₂, ho₂, hk⟩ := hrep.kinds x op₁ ho₁
    obtain rfl : op = op₂ := Option.some.inj (ho.symm.trans ho₂)
    rw [hk] at hu
    refine .inr (h.opened.units x op₁ ?_ ho₁ hu)
    rcases hx with hx | hx
    · -- the row has no units, so this one has been put in a fragment
      obtain ⟨t, ht, hxt⟩ := mem_idsAll.mp hx
      obtain ⟨u, hut, rfl⟩ := mem_ids.mp hxt
      obtain ⟨op₀, ho₀, hface, -⟩ := h.standing.reads ht u hut
      obtain ⟨op₃, ho₃, hk₃⟩ := h.opened.kinds _ op₀ ho₀
      obtain rfl : op₁ = op₃ := Option.some.inj (ho₁.symm.trans ho₃)
      have notUnit := h.unitless u (mem_subtreesAll.mpr ⟨t, ht, hut⟩)
      rw [HostTree.shape, ← hface] at notUnit
      rw [hk₃] at hu
      exact absurd hu notUnit
    · exact .inr hx

/-- **What becomes of the ops outside the row**: links to its front lead to the unit, and the parent
lists the unit. -/
theorem moves_unit (hτ : Shifts g₀ g ts fs fs τ) (hfront : Within g₀ ts (τ head.start))
    (hplaced : ∀ q op, p = some q → g₀.op? q = some op →
      op.kids.Nodup ∧ op.kids = as ++ ts.map HostTree.root ++ bs) :
    Moves g₀ g' p ts [node ⟨g.size⟩ ⟨.native unit, none, false⟩ done]
      (fun y => Graph.turn (τ head.start) ⟨g.size⟩ (τ y)) where
  fixes x hx := by
    have notFront : x ≠ τ head.start := fun he => hx.not_within (he ▸ hfront)
    rw [hτ.fixes x hx]
    exact if_neg notFront
  maps x hx := by
    obtain ⟨hw, hlt⟩ := hτ.maps x hx
    rw [hrep.size]
    unfold Graph.turn
    split
    · exact ⟨.inr h.opened.size_le, Nat.lt_succ_self _⟩
    · exact ⟨hw, by omega⟩
  start := by
    rw [h.entry]
    exact congrArg some ((if_pos rfl).trans (start_unit rfl).symm)
  entry := by
    rw [hrep.entry, hτ.entry, Option.map_map]
    rfl
  ops x op hx hp ho := by
    rw [h.outer_op hrep hτ hfr hfront hx ho, if_neg hp, ← Op.kids_turned _ op]
  parent q op hq ho := by
    have hout := (h.standing.parent_outside q hq).1
    obtain ⟨hn, hk⟩ := hplaced q op hq ho
    refine ⟨_, h.outer_op hrep hτ hfr hfront hout ho, fun as' bs' _ hk' => ?_⟩
    rw [if_pos hq.symm]
    obtain ⟨us, hus⟩ := List.head?_eq_some_iff.mp h.first
    rw [hus, List.map_cons] at hk hk'
    obtain ⟨rfl, rfl⟩ := split_unique (hk ▸ hn) (hk.symm.trans hk')
    simp

end Replaced

/-- A row of one tree. -/
theorem eq_last (h : Ready g₀ g p cont head last ts fs done) {t : HostTree} (ht : ts = [t]) :
    t = last := by
  have final := h.final
  rw [ht] at final
  simpa using final

/-- **Putting in the unit is a regraft** of the row to the unit with its fragments. -/
theorem close (h : Ready g₀ g p cont head last ts fs done)
    (hfr : unit.fragments = fs.map HostTree.root) :
    ∃ g', Graph.replace head.start last.root unit false g = .ok ⟨g.size⟩ g' ∧
      Regraft g₀ g' p ts [node ⟨g.size⟩ ⟨.native unit, none, false⟩ done] := by
  obtain ⟨τ, hτ, hstart⟩ := h.opened.shifts
  obtain ⟨hplace, hstands⟩ := hstart _ h.entry
  rw [List.append_nil] at hplace
  have front := hstands _ h.stands_start
  have frontIn : Within g₀ ts (τ head.start) :=
    (hτ.maps _ (mem_idsAll.mpr ⟨head, h.head_mem, start_mem_ids head⟩)).1
  obtain ⟨g', as, bs, hreplace, hrep, hplaced⟩ := h.replaced hτ front hfr
  have lastStands : g.Stands last.root last.root :=
    h.opened.stands _ _ (h.top _ h.last_mem) h.stands_last
  have toUnit : ∀ x, g₀.Stands x last.root → g'.Stands x ⟨g.size⟩ := fun x hx =>
    hrep.inherits.stands_new (.inr (.inl rfl)) (h.opened.stands x _ (h.top _ h.last_mem) hx)
  refine ⟨g', hreplace, ?_⟩
  exact {
    owner := hrep.owner.trans h.opened.owner
    size_le := by
      have := h.opened.size_le
      rw [hrep.size]
      omega
    kinds := Graph.kinds_trans h.opened.kinds hrep.kinds
    within := fun x hx => h.within_unit hx
    added := Graph.added_trans hrep.kinds h.opened.added hrep.added
    units := fun x op hx ho hu => h.units_unit hrep hx ho hu
    standing := fun c hs => by
      obtain ⟨op, ho, hn⟩ := h.last_next h.standing
      obtain ⟨op', ho', hn'⟩ := h.last_next hs
      obtain rfl : op = op' := Option.some.inj (ho.symm.trans ho')
      obtain rfl : cont = c := hn.symm.trans hn'
      exact h.standing_unit hfr hrep hplace
    moves := ⟨_, h.moves_unit hfr hrep hτ frontIn hplaced⟩
    root_inner := fun hp => by
      rw [hrep.root, if_neg fun hnone => hp hnone.1, h.opened.root]
    root_outer := fun hp t t' ht ht' hr => by
      cases ht'
      obtain rfl := h.eq_last ht
      rw [hrep.root, h.opened.root, if_pos ⟨hp, hr⟩]
      rfl
    rises := fun x hx => h.rises_unit hfr hrep hx
    shed := fun y hy hy' k hk => h.shed_unit hrep hy hy' hk
    ordered := fun ho => hrep.inherits.ordered (h.opened.ordered ho)
    stands := fun x y hy hs => by
      have before := h.opened.stands x y (fun hf => hy (h.carves.sublist.subset hf)) hs
      obtain ⟨op, ho, -⟩ := hs.2
      refine hrep.inherits.stands_other front lastStands (fun he => ?_) (fun he => ?_) before
      · exact Outside.not_within ⟨hy, Graph.lt_size_of_op? ho⟩ (he ▸ frontIn)
      · exact hy (he ▸ mem_idsAll.mpr ⟨last, h.last_mem, root_mem_ids last⟩)
    stands_start := fun x y y' hy hy' hs => by
      rw [h.entry] at hy
      cases hy
      cases hy'
      rw [start_unit rfl]
      exact hrep.inherits.stands_new (.inr (.inr rfl)) (hstands x hs)
    stands_root := fun t t' ht ht' x hx => by
      cases ht'
      obtain rfl := h.eq_last ht
      exact toUnit x hx
    stands_exits := fun t t' ht ht' => by
      cases ht'
      obtain rfl := h.eq_last ht
      have shape := h.plain
      cases t with
      | node id f ks =>
        change f.kind.shape = .plain at shape
        rw [exits_single (by simp [shape]) (by simp [shape]),
          exits_single (by simp [OpKind.shape]) (by simp [OpKind.shape])]
        exact .cons toUnit .nil }

end Ready

end HostTree

end Graft
