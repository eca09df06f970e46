import Graft.Proofs.Blocks
import Graft.Proofs.StatementRows

/-! # Edits among nested statements

A unit may take the place of a range that starts or ends inside a block, and then links into
the range are not all turned: the row is no longer linked.  What is left of it does not matter
for the edits that follow.  `Edited` says only that: outside the row nothing has changed but
links, and the op above it lists the same siblings around the row.

The range is found in the list `P` of a block, or in the list of the run itself (`Level`).  If
the run is contiguous the unit can be put in (`Level.replace`).

For runs that are not contiguous it is shown that the replacement fails, whatever else has been done
by then.  There are three reasons: what the range ends with has been taken out, so it is in no list;
what it starts with has been, so the climb from it ends outside; or the two ends are in different
lists, because one of them is deeper in a block.  In each case the climb from the first op is
followed to where it ends, and it is not a sibling of the last.
-/

namespace Graft

namespace HostTree

variable {g g' g'' : Graph} {p cont : Option OpId} {q : OpId} {ts us ks : List HostTree}

/-- Among the kids of `q` is the row. -/
def Lists (g : Graph) (q : OpId) (ts : List HostTree) : Prop :=
  ∃ op as bs, g.op? q = some op ∧ op.kids.Nodup ∧ (∀ k ∈ op.kids, k.index < g.size) ∧
    op.kids = as ++ ts.map root ++ bs

theorem Lists.placed (h : Lists g q ts) : Placed g (some q) ts := by
  obtain ⟨op, as, bs, ho, hn, -, hk⟩ := h
  exact ⟨op, as, bs, ho, hn, hk⟩

/-- **The row below `q` has been edited.** -/
structure Edited (g g' : Graph) (q : OpId) (ts : List HostTree) : Prop where
  owner : g'.owner = g.owner
  root : g'.root = g.root
  size_le : g.size ≤ g'.size
  ordered : g.Ordered → g'.Ordered
  stands : ∀ x y, y ∉ idsAll ts → g.Stands x y → g'.Stands x y
  /-- Only links of other ops have been turned. -/
  ops : ∃ τ : OpId → OpId, (∀ x, Outside g ts x → τ x = x) ∧
    ∀ x op, x ∉ idsAll ts → g.op? x = some op →
      ∃ kids, g'.op? x = some { op.turned τ with kids := kids } ∧ (x ≠ q → kids = op.kids)
  /-- What came after the row still does. -/
  lists : ∀ us, Lists g q (ts ++ us) → Lists g' q us

namespace Edited

theorem refl (g : Graph) (q : OpId) (ts : List HostTree) : Edited g g q ts where
  owner := rfl
  root := rfl
  size_le := Nat.le_refl _
  ordered h := h
  stands _ _ _ h := h
  ops := ⟨fun x => x, fun _ _ => rfl, fun x op _ ho =>
    ⟨op.kids, by rw [ho, Op.turned_id], fun _ => rfl⟩⟩
  lists us h := by
    obtain ⟨op, as, bs, ho, hn, hlt, hk⟩ := h
    exact ⟨op, as ++ ts.map HostTree.root, bs, ho, hn, hlt, by simpa using hk⟩

/-- Rows are edited one after the other. -/
theorem trans (h : Edited g g' q ks) (h' : Edited g' g'' q us) : Edited g g'' q (ks ++ us) where
  owner := h'.owner.trans h.owner
  root := h'.root.trans h.root
  size_le := Nat.le_trans h.size_le h'.size_le
  ordered ho := h'.ordered (h.ordered ho)
  stands x y hy hs := by
    rw [idsAll_append, List.mem_append, not_or] at hy
    exact h'.stands x y hy.2 (h.stands x y hy.1 hs)
  ops := by
    obtain ⟨τ, fixes, ops⟩ := h.ops
    obtain ⟨τ', fixes', ops'⟩ := h'.ops
    refine ⟨fun x => τ' (τ x), fun x hx => ?_, fun x op hx ho => ?_⟩
    · have outside := hx.1
      rw [idsAll_append, List.mem_append, not_or] at outside
      dsimp only
      rw [fixes x ⟨outside.1, hx.2⟩]
      exact fixes' x ⟨outside.2, Nat.lt_of_lt_of_le hx.2 h.size_le⟩
    · rw [idsAll_append, List.mem_append, not_or] at hx
      obtain ⟨kids, ho', hkids⟩ := ops x op hx.1 ho
      obtain ⟨kids', ho'', hkids'⟩ := ops' x _ hx.2 ho'
      refine ⟨kids', ?_, fun hne => (hkids' hne).trans (hkids hne)⟩
      rw [ho'', Op.turned_with_kids, Op.turned_turned]
  lists vs hvs := by
    rw [List.append_assoc] at hvs
    exact h'.lists vs (h.lists _ hvs)

/-- **A block is edited when its row is.** -/
theorem block {L : OpId} {f : Face} (h : Edited g g' q ts) (hL : L ∉ idsAll [node q f ts]) :
    Edited g g' L [node q f ts] where
  owner := h.owner
  root := h.root
  size_le := h.size_le
  ordered := h.ordered
  stands x y hy := h.stands x y fun hmem => hy (by simp [hmem])
  ops := by
    obtain ⟨τ, fixes, ops⟩ := h.ops
    refine ⟨τ, fun x hx => fixes x ⟨fun hmem => hx.1 (by simp [hmem]), hx.2⟩, fun x op hx ho => ?_⟩
    simp only [idsAll_cons, ids_node, idsAll_nil, List.append_nil, List.mem_cons, not_or] at hx
    obtain ⟨kids, ho', hkids⟩ := ops x op hx.2 ho
    exact ⟨kids, ho', fun _ => hkids hx.1⟩
  lists us hus := by
    obtain ⟨τ, -, ops⟩ := h.ops
    simp only [idsAll_cons, ids_node, idsAll_nil, List.append_nil, List.mem_cons, not_or] at hL
    obtain ⟨op, as, bs, ho, hn, hlt, hk⟩ := hus
    obtain ⟨kids, ho', hkids⟩ := ops L op hL.2 ho
    obtain rfl := hkids hL.1
    exact ⟨_, as ++ [q], bs, ho', hn, fun k hk => Nat.lt_of_lt_of_le (hlt k hk) h.size_le,
      by simpa using hk⟩

/-- An expression that keeps its root has been edited. -/
theorem of_regraft {T T' : HostTree} (h : Regraft g g' (some q) [T] [T']) (hroot : T'.root = T.root) :
    Edited g g' q [T] where
  owner := h.owner
  root := h.root_inner (by simp)
  size_le := h.size_le
  ordered := h.ordered
  stands := h.stands
  ops := by
    obtain ⟨τ, hτ⟩ := h.moves
    refine ⟨τ, hτ.fixes, fun x op hx ho => ?_⟩
    obtain ⟨kids, ho', hkids⟩ := hτ.op hx ho
    exact ⟨kids, ho', fun hne => hkids fun he => hne (Option.some.inj he)⟩
  lists us hus := by
    obtain ⟨τ, hτ⟩ := h.moves
    obtain ⟨op, as, bs, ho, hn, hlt, hk⟩ := hus
    obtain ⟨kids, ho', hkids⟩ := hτ.parent q op rfl ho
    have same : kids = op.kids := by
      rw [hkids as (us.map HostTree.root ++ bs) hn (by simpa using hk), hk]
      simp [hroot]
    subst same
    exact ⟨_, as ++ [T.root], bs, ho', hn, fun k hk => Nat.lt_of_lt_of_le (hlt k hk) h.size_le,
      by simpa using hk⟩

/-- **The rest of a row is at its place still.** -/
theorem site {owner : OwnerId} (h : Edited g g' q ks) (hs : Site owner g (some q) cont (ks ++ us))
    (hl : Lists g q (ks ++ us)) : Site owner g' (some q) cont us ∧ Lists g' q us := by
  obtain ⟨τ, fixes, ops⟩ := h.ops
  have nodup := hs.standing.nodup
  rw [idsAll_append, List.nodup_append] at nodup
  have parent := hs.standing.parent_outside q rfl
  rw [Outside, idsAll_append, List.mem_append, not_or] at parent
  have outside : ∀ x ∈ idsAll us, Outside g ks x := fun x hx =>
    ⟨fun hx' => nodup.2.2 x hx' x hx rfl, hs.standing.lt_size (by simp [hx])⟩
  -- the ops of the rest are the same, up to links that are turned
  have rest : ∀ x ∈ idsAll us, ∀ op, g.op? x = some op →
      g'.op? x = some (op.turned τ) ∧ op.state ≠ .dead := by
    intro x hx op ho
    obtain ⟨kids, ho', hkids⟩ := ops x op (outside x hx).1 ho
    obtain rfl := hkids fun he => parent.1.2 (he ▸ hx)
    refine ⟨by rw [ho', ← Op.kids_turned τ op], hs.standing.live (by simp [hx]) ho⟩
  have turned : ∀ x ∈ idsAll us, Turned g g' (Option.map τ) x := by
    intro x hx op ho
    obtain ⟨ho', live⟩ := rest x hx op ho
    refine ⟨_, ho', by simp, by simp, ?_, ?_⟩ <;> rw [Op.turned_of_live τ live]
  have seats : ∀ x ∈ idsAll us, SameSeat g g' x := by
    intro x hx op' ho'
    obtain ⟨op, ho⟩ := hs.standing.exists_op? (x := x) (by simp [hx])
    obtain ⟨ho'', live⟩ := rest x hx op ho
    rw [ho'] at ho''
    cases ho''
    refine ⟨op, ho, by simp, fun hlive => by simpa using hlive, fun hother => ?_⟩
    rw [Op.turned_of_live τ live, hother]
    rfl
  have contFixed : cont.map τ = cont := by
    cases cont with
    | none => rfl
    | some c =>
      obtain ⟨hc, hlt⟩ := hs.standing.cont_outside c rfl
      rw [idsAll_append, List.mem_append, not_or] at hc
      rw [Option.map_some, fixes c ⟨hc.1, hlt⟩]
  have linked : LinkedRow g' us (cont.map τ) := (linkedRow_append.mp hs.standing.linked).2.turned rfl
    (fun x hx => by rw [Option.map_some, fixes x (outside x hx)]) turned
  rw [contFixed] at linked
  have grown : ∀ {x : OpId}, x.index < g.size → x.index < g'.size := fun hx =>
    Nat.lt_of_lt_of_le hx h.size_le
  have lists := h.lists us hl
  refine ⟨⟨⟨linked, ?_, nodup.2.1, fun c hc => ?_, fun p hp => ?_, fun r hr => ?_, fun r hr t ht hx => ?_⟩,
    lists.placed, fun x hx => ?_, h.ordered hs.ordered, h.owner.trans hs.owner⟩, lists⟩
  · refine seatedAll_iff.mpr fun u hu => ?_
    exact (seatedAll_iff.mp hs.standing.seated u (by simp [hu])).transport fun x hx =>
      seats x (mem_idsAll.mpr ⟨u, hu, hx⟩)
  · obtain ⟨hout, hlt⟩ := hs.standing.cont_outside c hc
    rw [idsAll_append, List.mem_append, not_or] at hout
    exact ⟨hout.2, grown hlt⟩
  · cases hp
    exact ⟨parent.1.2, grown parent.2⟩
  · rw [h.root] at hr
    exact grown (hs.standing.root_old r hr)
  · rw [h.root] at hr
    exact hs.standing.root_outside r hr t (by simp [ht]) hx
  · exact h.stands x x (outside x hx).1 (hs.own x (by simp [hx]))

end Edited

/-! ### The list that a run ends in -/

variable {g₀ : Graph} {L P : OpId} {fs done lead tail : List HostTree} {head last : HostTree}

/-- Of the row below `L` all fragments have been taken out. -/
structure Cleared (g₀ g : Graph) (L : OpId) (cont : Option OpId) (ts fs done : List HostTree) :
    Prop where
  standing : Standing g₀ (some L) cont ts
  lists : Lists g₀ L ts
  own : ∀ x ∈ idsAll ts, g₀.Stands x x
  ordered : g₀.Ordered
  carves : Carves ts fs
  top : ∀ t ∈ ts, t.root ∉ idsAll fs
  opened : Opened g₀ g ts fs fs done []

/-- The row `us` below `P` is the row `ts` below `L`, or that of a block in it; all fragments
are in it. -/
structure Level (g₀ : Graph) (L : OpId) (ts fs : List HostTree) (P : OpId) (us : List HostTree) :
    Prop where
  standing : ∃ c, Standing g₀ (some P) c us
  carves : Carves us fs
  within : ∀ x ∈ idsAll us, x ∈ idsAll ts
  home : (P = L ∧ us = ts) ∨ (Stem ts fs P ∧ ∃ op, g₀.op? P = some op ∧ op.kids = us.map root)

theorem Cleared.level (h : Cleared g₀ g L cont ts fs done) : Level g₀ L ts fs L ts :=
  ⟨⟨cont, h.standing⟩, h.carves, fun _ hx => hx, .inl ⟨rfl, rfl⟩⟩

/-- A kid of what is left names its parent still. -/
theorem Cleared.kid_parent (h : Cleared g₀ g L cont ts fs done) {K k : OpId} (hK : Stem ts fs K)
    (hk : g₀.Kid K k) : g.Stands k k ∧ ∃ op, g.op? k = some op ∧ op.parent = some K := by
  have up := h.standing.up_of_kid hK.1 hk
  rcases h.carves.kids h.standing.nodup (fun t ht => h.standing.reads ht) hK hk with hstem | hroot
  · obtain ⟨τ, hτ, -⟩ := h.opened.shifts
    obtain ⟨op, ho, hup⟩ := up
    exact ⟨h.opened.stands k k hstem.2 (h.own k hstem.1), _, hτ.stem k op hstem ho, by simpa using hup⟩
  · obtain ⟨F, hF, rfl⟩ := List.mem_map.mp hroot
    have mem := h.carves.sublist.subset (mem_idsAll.mpr ⟨F, hF, root_mem_ids F⟩)
    refine ⟨h.opened.stands_roots F hF _ (h.own _ mem), ?_⟩
    obtain ⟨t, -, -, d, -, hd, hkid, htops⟩ := h.opened.reach F hF
    obtain ⟨o, ho, hup⟩ := up
    obtain ⟨o', ho', hup'⟩ := h.standing.up_of_kid hd.1 hkid
    obtain rfl : o = o' := Option.some.inj (ho.symm.trans ho')
    obtain rfl : K = d := Option.some.inj (hup.symm.trans hup')
    obtain ⟨top, op, path, -, htop, hparent⟩ := htops F.root (root_mem_ids F)
    rcases Relation.ReflTransGen.cases_head path with rfl | ⟨v, ⟨⟨o₁, ho₁, hup₁⟩, hv⟩, -⟩
    · exact ⟨op, htop, hparent⟩
    · -- what has been taken out is below the stem, and not below another op of its own
      obtain ⟨F', hF', he⟩ := List.mem_map.mp (h.opened.roots ▸ List.mem_map_of_mem hF)
      obtain ⟨e, he', standing⟩ := h.opened.detached F' hF'
      obtain ⟨o₂, ho₂⟩ := standing.exists_op? (x := F'.root) (by simp [root_mem_ids])
      have seat := (seated_root standing.seated.1 o₂ ho₂).1
      rw [he, ho₁] at ho₂
      cases ho₂
      obtain rfl : v = e := Option.some.inj (hup₁.symm.trans seat)
      rcases hv with hv | hv
      · exact absurd (mem_idsAll.mpr ⟨F, hF, by simpa using hv⟩) he'.2
      · exact absurd (h.standing.lt_size he'.1) (Nat.not_lt.mpr hv)

theorem nodup_exchange {as seg bs : List OpId} {new : OpId} (hn : (as ++ seg ++ bs).Nodup)
    (hnew : new ∉ as ++ seg ++ bs) : (as ++ new :: bs).Nodup := by
  have sub : (as ++ bs).Sublist (as ++ seg ++ bs) :=
    (List.sublist_append_left as seg).append (List.Sublist.refl bs)
  rw [List.nodup_middle, List.nodup_cons]
  exact ⟨fun hmem => hnew (sub.subset hmem), hn.sublist sub⟩

namespace Level

/-- The row of a block that is in a row. -/
theorem block {id : OpId} {f : Face} (h : Level g₀ L ts fs P us) (hb : node id f ks ∈ us)
    (hf : f.kind.shape = .listed) (hc : Carves ks fs) (hid : id ∉ idsAll fs) :
    Level g₀ L ts fs id ks := by
  obtain ⟨c, standing⟩ := h.standing
  obtain ⟨c', single⟩ := standing.single hb
  have alone : Standing g₀ (some P) c' [node id f ([] ++ ks ++ [])] := by simpa using single
  obtain ⟨⟨op, ho, -, hk⟩, -⟩ := reads_node.mp single.linked.1.reads
  have below : ∀ x ∈ (node id f ks).ids, x ∈ idsAll ts := fun x hx =>
    h.within x (mem_idsAll.mpr ⟨_, hb, hx⟩)
  exact ⟨⟨_, (alone.row (.inr hf)).2.1⟩, hc, fun x hx => below x (by simp [hx]),
    .inr ⟨⟨below id (by simp), hid⟩, op, ho, hk⟩⟩

/-- What is left of the row is left of the whole. -/
theorem stem (h : Level g₀ L ts fs P us) {x : OpId} (hx : Stem us fs x) : Stem ts fs x :=
  ⟨h.within x hx.1, hx.2⟩

theorem stem_root {t : HostTree} (ht : t ∈ us) (hr : t.root ∉ idsAll fs) : Stem us fs t.root :=
  ⟨mem_idsAll.mpr ⟨t, ht, root_mem_ids t⟩, hr⟩

section

variable (h : Level g₀ L ts fs P us) (hcl : Cleared g₀ g L cont ts fs done)
include h hcl

/-- Parents of what is left are the same as before. -/
theorem up {x y : OpId} (hx : Stem us fs x) (hxy : g₀.Up x y) : g.Up x y := by
  obtain ⟨τ, hτ, -⟩ := hcl.opened.shifts
  obtain ⟨op, ho, hup⟩ := hxy
  exact ⟨_, hτ.stem x op (h.stem hx) ho, by simpa using hup⟩

/-- The parent of a tree of the row. -/
theorem root_up {t : HostTree} (ht : t ∈ us) (hr : t.root ∉ idsAll fs) :
    ∃ op, g.op? t.root = some op ∧ op.parent = some P := by
  obtain ⟨c, standing⟩ := h.standing
  obtain ⟨op, ho⟩ := standing.exists_op? (mem_idsAll.mpr ⟨t, ht, root_mem_ids t⟩)
  have seat := seated_root (seatedAll_iff.mp standing.seated t ht) op ho
  exact h.up hcl (stem_root ht hr) ⟨op, ho, seat.1⟩

/-- **From every op of a tree that is left parents lead to its root.** -/
theorem climbs {x : OpId} (ht : head ∈ us) (hr : head.root ∉ idsAll fs) (hx : x ∈ head.ids) :
    g.Rises (Within g₀ [head]) x head.root := by
  obtain ⟨c, standing⟩ := h.standing
  have seated := seatedAll_iff.mp standing.seated head ht
  have reads := standing.reads ht
  -- in the stem the way is that of the tree
  have inStem : ∀ y ∈ head.ids, y ∉ idsAll fs → g.Rises (Within g₀ [head]) y head.root := by
    intro y hy hout
    have path := h.carves.rises standing.nodup (fun _ h => h) (fun t ht => standing.reads ht)
      (fun t ht => ⟨_, seatedAll_iff.mp standing.seated t ht⟩) head ht y hy hout
    have start : Stem us fs y := ⟨mem_idsAll.mpr ⟨head, ht, hy⟩, hout⟩
    clear hout
    induction path using Relation.ReflTransGen.head_induction_on with
    | refl => exact .refl
    | @head u v step _ ih =>
      rcases Relation.ReflTransGen.cases_head (seated.rises reads hy) with rfl | ⟨w, ⟨huw, hw⟩, -⟩
      · exact .refl
      · obtain ⟨o, ho, hup⟩ := step.1
        obtain ⟨o', ho', hup'⟩ := huw
        obtain rfl : o = o' := Option.some.inj (ho.symm.trans ho')
        obtain rfl : v = w := Option.some.inj (hup.symm.trans hup')
        exact .head ⟨h.up hcl start step.1, .inl (by simpa using hw)⟩ (ih hw step.2)
  by_cases hin : x ∈ idsAll fs
  · -- from a fragment the way leads to its parent in the tree
    obtain ⟨F, hF, hxF⟩ := mem_idsAll.mp hin
    obtain ⟨t, -, -, d, -, hd, hkid, htops⟩ := hcl.opened.reach F hF
    obtain ⟨top, op, path, -, ho, hup⟩ := htops x hxF
    rcases h.carves.standing standing.nodup (fun t ht => standing.single ht) F hF with
      hmem | ⟨u, hu, hsub, e, -, he, hstem, hkid', -⟩
    · obtain rfl := eq_of_mem_ids standing.nodup hmem ht hxF hx
      exact absurd (mem_idsAll.mpr ⟨F, hF, root_mem_ids F⟩) hr
    · obtain rfl := eq_of_mem_ids standing.nodup hu ht (hsub hxF) hx
      obtain ⟨o, ho₁, hup₁⟩ := hcl.standing.up_of_kid hd.1 hkid
      obtain ⟨o', ho₂, hup₂⟩ := standing.up_of_kid hstem.1 hkid'
      obtain rfl : o = o' := Option.some.inj (ho₁.symm.trans ho₂)
      obtain rfl : d = e := Option.some.inj (hup₁.symm.trans hup₂)
      have inside : ∀ v, Within g₀ [F] v → Within g₀ [u] v := fun v hv =>
        hv.imp (fun hv => by simpa using hsub (by simpa using hv)) fun hv => hv
      exact (path.mono inside).trans (.head ⟨⟨op, ho, hup⟩, .inl (by simpa using he)⟩
        (inStem d he hd.2))
  · exact inStem x hx hin

/-- The kids of the op above the row, and what of the row is left among them. -/
theorem kids : ∃ op as bs, g.op? P = some op ∧ op.kids.Nodup ∧
    op.kids = as ++ (us.map HostTree.root).filter (fun k => k ∉ fs.map HostTree.root) ++ bs ∧
    (P = L → ∀ op₀, g₀.op? L = some op₀ →
      op.kids = op₀.kids ∧ op₀.kids = as ++ ts.map HostTree.root ++ bs) := by
  obtain ⟨τ, hτ, -⟩ := hcl.opened.shifts
  have outside := (hcl.standing.parent_outside L rfl).1
  rcases h.home with ⟨rfl, rfl⟩ | ⟨hP, op, ho, hk⟩
  · obtain ⟨op, as, bs, ho, hn, -, hk⟩ := hcl.lists
    have all : (us.map HostTree.root).filter (fun k => k ∉ fs.map HostTree.root) =
        us.map HostTree.root := by
      refine List.filter_eq_self.mpr fun k hk => decide_eq_true fun hmem => ?_
      obtain ⟨t, ht, rfl⟩ := List.mem_map.mp hk
      obtain ⟨F, hF, he⟩ := List.mem_map.mp hmem
      exact hcl.top t ht (mem_idsAll.mpr ⟨F, hF, he ▸ root_mem_ids F⟩)
    refine ⟨_, as, bs, hτ.outer P op outside ho, by simpa using hn, ?_, fun _ op₀ ho₀ => ?_⟩
    · rw [Op.kids_turned, all]
      exact hk
    · obtain rfl : op = op₀ := Option.some.inj (ho.symm.trans ho₀)
      exact ⟨by simp, hk⟩
  · refine ⟨_, [], [], hτ.stem P op hP ho, ?_, by simp [hk], fun he => ?_⟩
    · exact (hcl.standing.kids_nodup hP.1 ho).filter _
    · exact absurd (he ▸ hP.1) outside

/-- What is left of the row holds its own kids. -/
theorem closed : g.Closed (Stem us fs) := by
  obtain ⟨c, standing⟩ := h.standing
  obtain ⟨τ, hτ, -⟩ := hcl.opened.shifts
  rintro a b ha ⟨op, ho, hb⟩
  obtain ⟨op₀, ho₀⟩ := standing.exists_op? ha.1
  rw [hτ.stem a op₀ (h.stem ha) ho₀] at ho
  cases ho
  obtain ⟨hb, hout⟩ := List.mem_filter.mp hb
  exact (h.carves.kids standing.nodup (fun t ht => standing.reads ht) ha
    ⟨op₀, ho₀, hb⟩).resolve_right (of_decide_eq_true hout)

/-- Where the first op of a range stands now. -/
theorem front {first : OpId} (hf : first ∈ idsAll us)
    (hs : first ∉ idsAll fs ∨ ∃ F ∈ fs, F.start = first) :
    ∃ front, g.Stands first front ∧ Within g₀ ts front := by
  have own := hcl.own first (h.within first hf)
  rcases hs with hout | ⟨F, hF, rfl⟩
  · exact ⟨first, hcl.opened.stands _ _ hout own, .inl (h.within first hf)⟩
  · obtain ⟨F', hF', hstands⟩ := hcl.opened.stands_starts F hF
    rw [List.append_nil] at hF'
    refine ⟨F'.start, hstands _ own, ?_⟩
    exact (hcl.opened.within _ (mem_idsAll.mpr ⟨F', hF', start_mem_ids F'⟩)).imp
      (fun hx => hcl.carves.sublist.subset hx) fun hx => hx

/-- **What is left between two trees of a row is a range of siblings**, and what comes after the
row comes after it. -/
theorem range (hus : us = lead ++ head :: tail) (hlast : (head :: tail).getLast? = some last)
    (hhead : head.root ∉ idsAll fs) (hend : last.root ∉ idsAll fs) :
    ∃ as seg bs, g.Range (some P) head.root last.root as seg bs ∧ (∀ x ∈ seg, Stem us fs x) ∧
      (P = L → ∀ op, g₀.op? L = some op → op.kids.Nodup → op.kids = as ++ seg ++ bs ∧
        ∀ vs as' bs', op.kids = as' ++ (ts ++ vs).map HostTree.root ++ bs' →
          bs = vs.map HostTree.root ++ bs') := by
  obtain ⟨c, standing⟩ := h.standing
  obtain ⟨op, as, bs, ho, hn, hk, hL⟩ := h.kids hcl
  let left : OpId → Bool := fun k => k ∉ fs.map HostTree.root
  have kept : ∀ {t : HostTree}, t.root ∉ idsAll fs → left t.root = true := fun {t} ht =>
    decide_eq_true fun hmem => by
      obtain ⟨F, hF, he⟩ := List.mem_map.mp hmem
      exact ht (mem_idsAll.mpr ⟨F, hF, he ▸ root_mem_ids F⟩)
  have split : op.kids = (as ++ (lead.map HostTree.root).filter left) ++
      ((head :: tail).map HostTree.root).filter left ++ bs := by
    rw [hk, hus, List.map_append, List.filter_append]
    simp only [List.append_assoc]
    rfl
  refine ⟨_, _, bs, ⟨op, ho, hn, split, ?_, ?_⟩, fun x hx => ?_, fun hP op₀ ho₀ hn₀ => ?_⟩
  · rw [List.map_cons, List.filter_cons_of_pos (kept hhead)]
    rfl
  · obtain ⟨init, hinit⟩ := List.getLast?_eq_some_iff.mp hlast
    rw [hinit, List.map_append, List.filter_append, List.map_singleton,
      List.filter_cons_of_pos (kept hend)]
    simp
  · obtain ⟨hx, hleft⟩ := List.mem_filter.mp hx
    obtain ⟨t, ht, rfl⟩ := List.mem_map.mp hx
    have mem : t ∈ us := by rw [hus]; exact List.mem_append_right _ ht
    exact (h.carves.root_mem standing.nodup mem).resolve_right (of_decide_eq_true hleft)
  · obtain ⟨same, hk₀⟩ := hL hP op₀ ho₀
    refine ⟨same ▸ split, fun vs as' bs' hvs => ?_⟩
    obtain rfl : us = ts := by
      rcases h.home with ⟨-, hts⟩ | ⟨hstem, -⟩
      · exact hts
      · exact absurd (hP ▸ hstem.1) (hcl.standing.parent_outside L rfl).1
    obtain ⟨r, rs, hr⟩ : ∃ r rs, us.map HostTree.root = r :: rs := by
      rw [hus]
      cases lead with
      | nil => exact ⟨_, _, rfl⟩
      | cons t lead => exact ⟨_, _, rfl⟩
    rw [hr] at hk₀
    have both : as ++ r :: rs ++ bs = as' ++ r :: rs ++ (vs.map HostTree.root ++ bs') := by
      rw [← hk₀, hvs, List.map_append, hr]
      simp
    exact (split_unique (hk₀ ▸ hn₀) both).2

/-- An op outside the row is none of those that a replacement in it changes. -/
theorem apart {first front x : OpId} {unit : CompiledUnit} (hfr : unit.fragments = fs.map HostTree.root)
    (hfirst : first ∈ idsAll us) (hlast : last ∈ us) (hfront : Within g₀ ts front)
    (hx : Outside g₀ ts x) :
    ¬ Stem us fs x ∧ x ∉ unit.fragments ∧ x ≠ first ∧ x ≠ last.root ∧ x ≠ front := by
  refine ⟨fun hs => hx.1 (h.within x hs.1), fun hmem => ?_, ?_, ?_, ?_⟩
  · rw [hfr] at hmem
    obtain ⟨F, hF, rfl⟩ := List.mem_map.mp hmem
    exact hx.1 (hcl.carves.sublist.subset (mem_idsAll.mpr ⟨F, hF, root_mem_ids F⟩))
  · rintro rfl
    exact hx.1 (h.within _ hfirst)
  · rintro rfl
    exact hx.1 (h.within _ (mem_idsAll.mpr ⟨last, hlast, root_mem_ids last⟩))
  · rintro rfl
    exact hx.not_within hfront

/-- Such an op has its links turned, and if it is the parent of the row it lists the unit. -/
theorem outer_op {τ : OpId → OpId} {first front x : OpId} {unit : CompiledUnit} {next : Option OpId}
    {as bs : List OpId} {op : Op} (hτ : Shifts g₀ g ts fs fs τ)
    (hrep : g.Replaced (Stem us fs) first last.root front unit (some P) next as bs g')
    (hfr : unit.fragments = fs.map HostTree.root) (hfirst : first ∈ idsAll us) (hlast : last ∈ us)
    (hfront : Within g₀ ts front) (hx : x ∉ idsAll ts) (ho : g₀.op? x = some op) :
    g'.op? x = some { op.turned (fun y => Graph.turn front ⟨g.size⟩ (τ y)) with
      kids := if x = P then as ++ ⟨g.size⟩ :: bs else op.kids } := by
  obtain ⟨notStem, notFragment, h₁, h₂, h₃⟩ :=
    h.apart hcl hfr hfirst hlast hfront ⟨hx, Graph.lt_size_of_op? ho⟩
  obtain ⟨s, hs, ho'⟩ := hrep.ops x _ (hτ.outer x op hx ho)
  obtain rfl : s = op.state := by simpa using hs notStem
  rw [ho']
  simp only [if_neg notFragment, h₁, h₂, h₃, or_self, if_false, Option.some.injEq]
  unfold Op.turned
  by_cases hdead : op.state = .dead <;> simp [hdead, Function.comp_def]

theorem stands_root {t : HostTree} (ht : t ∈ us) (hr : t.root ∉ idsAll fs) : g.Stands t.root t.root :=
  hcl.opened.stands _ _ hr (hcl.own _ (h.stem (stem_root ht hr)).1)

/-- The graph lets the unit in. -/
theorem exists_replaced {first front : OpId} {unit : CompiledUnit} {as seg bs : List OpId}
    (hhead : head ∈ us ∧ head.root ∉ idsAll fs) (hlast : last ∈ us ∧ last.root ∉ idsAll fs)
    (hfirst : first ∈ head.ids) (hfront : g.Stands first front)
    (hrange : g.Range (some P) head.root last.root as seg bs) (hseg : ∀ x ∈ seg, Stem us fs x)
    (hfr : unit.fragments = fs.map HostTree.root) :
    ∃ g' next, Graph.replace first last.root unit false g = .ok ⟨g.size⟩ g' ∧
      g.Replaced (Stem us fs) first last.root front unit (some P) next as bs g' := by
  obtain ⟨c, standing⟩ := h.standing
  obtain ⟨lastOp, hlastOp, hparent⟩ := h.root_up hcl hlast.1 hlast.2
  obtain ⟨topOp, htop, hparent'⟩ := h.root_up hcl hhead.1 hhead.2
  have hheir : lastOp.heir = none := by
    obtain ⟨op, ho, hn⟩ := (h.stands_root hcl hlast.1 hlast.2).2
    obtain rfl : lastOp = op := Option.some.inj (hlastOp.symm.trans ho)
    exact hn
  have old : ∀ x, Stem us fs x → x.index < g.size := fun x hx =>
    Nat.lt_of_lt_of_le (standing.lt_size hx.1) hcl.opened.size_le
  have fragments : ∀ f ∈ unit.fragments, ∃ o, g.op? f = some o ∧ o.heir = none := fun f hf => by
    rw [hfr] at hf
    obtain ⟨F, hF, rfl⟩ := List.mem_map.mp hf
    have mem := hcl.carves.sublist.subset (mem_idsAll.mpr ⟨F, hF, root_mem_ids F⟩)
    exact (hcl.opened.stands_roots F hF _ (hcl.own _ mem)).2
  have above := standing.parent_outside P rfl
  have notWithin : ¬ Within g₀ [head] P := fun hw => by
    refine above.not_within (hw.imp (fun hw => ?_) fun hw => hw)
    exact mem_idsAll.mpr ⟨head, hhead.1, by simpa using hw⟩
  obtain ⟨g', hreplace, hrep, -⟩ := Graph.replace_replaced (X := Stem us fs) (S := Within g₀ [head])
    (hcl.opened.ordered hcl.ordered) hfront hlastOp hheir (h.climbs hcl hhead.1 hhead.2 hfirst) htop
    (hparent'.trans hparent.symm)
    (fun q hq => by cases hparent.symm.trans hq; exact notWithin) (hparent ▸ hrange) (h.closed hcl)
    old hseg (fun q hq hx => by cases hparent.symm.trans hq; exact above.1 hx.1) fragments
  exact ⟨g', lastOp.next, hreplace, hparent ▸ hrep⟩

/-- What comes after the row comes after it still, whether the unit is in the row or in a block. -/
theorem lists_replaced {τ : OpId → OpId} {first front : OpId} {unit : CompiledUnit}
    {next : Option OpId} {as seg bs : List OpId} {vs : List HostTree} (hτ : Shifts g₀ g ts fs fs τ)
    (hrep : g.Replaced (Stem us fs) first last.root front unit (some P) next as bs g')
    (hfr : unit.fragments = fs.map HostTree.root) (hfirst : first ∈ idsAll us) (hlast : last ∈ us)
    (hfront : Within g₀ ts front)
    (hkids : P = L → ∀ op, g₀.op? L = some op → op.kids.Nodup → op.kids = as ++ seg ++ bs ∧
      ∀ vs as' bs', op.kids = as' ++ (ts ++ vs).map HostTree.root ++ bs' →
        bs = vs.map HostTree.root ++ bs')
    (hvs : Lists g₀ L (ts ++ vs)) : Lists g' L vs := by
  obtain ⟨op, as', bs', ho, hn, hlt, hk⟩ := hvs
  have ho' := h.outer_op hcl hτ hrep hfr hfirst hlast hfront
    (hcl.standing.parent_outside L rfl).1 ho
  have grown : ∀ k ∈ op.kids, k.index < g'.size := fun k hk => by
    rw [hrep.size]
    exact Nat.lt_succ_of_lt (Nat.lt_of_lt_of_le (hlt k hk) hcl.opened.size_le)
  by_cases hP : P = L
  · obtain ⟨hsplit, hafter⟩ := hkids hP op ho hn
    have fresh : ⟨g.size⟩ ∉ op.kids := fun hmem =>
      Nat.lt_irrefl _ (Nat.lt_of_lt_of_le (hlt _ hmem) hcl.opened.size_le)
    rw [if_pos hP.symm] at ho'
    rw [hsplit] at hn fresh grown
    refine ⟨_, as ++ [⟨g.size⟩], bs', ho', nodup_exchange hn fresh, fun k hk => ?_, ?_⟩
    · simp only [List.mem_append, List.mem_cons] at hk
      rcases hk with hk | rfl | hk
      · exact grown k (by simp [hk])
      · rw [hrep.size]
        exact Nat.lt_succ_self _
      · exact grown k (by simp [hk])
    · rw [hafter vs as' bs' hk]
      simp
  · rw [if_neg fun he => hP he.symm] at ho'
    exact ⟨_, as' ++ ts.map HostTree.root, bs', ho', hn, grown, by simpa using hk⟩

/-- **A unit can be put in the place of a range.**

The range is found, since the climb from its first op ends at a sibling that is still listed; so the
replacement is known in full, and what has changed outside the row is read off it field by field. -/
theorem replace {first : OpId} {unit : CompiledUnit} (hus : us = lead ++ head :: tail)
    (hlast : (head :: tail).getLast? = some last) (hhead : head.root ∉ idsAll fs)
    (hend : last.root ∉ idsAll fs) (hfirst : first ∈ head.ids)
    (hstart : first ∉ idsAll fs ∨ ∃ F ∈ fs, F.start = first)
    (hfr : unit.fragments = fs.map HostTree.root) :
    ∃ g', Graph.replace first last.root unit false g = .ok ⟨g.size⟩ g' ∧ Edited g₀ g' L ts := by
  obtain ⟨τ, hτ, -⟩ := hcl.opened.shifts
  have headMem : head ∈ us := by rw [hus]; simp
  have lastMem : last ∈ us := by rw [hus]; exact List.mem_append_right _ (List.mem_of_getLast? hlast)
  have firstMem : first ∈ idsAll us := mem_idsAll.mpr ⟨head, headMem, hfirst⟩
  obtain ⟨front, hfront, frontIn⟩ := h.front hcl firstMem hstart
  obtain ⟨as, seg, bs, hrange, hseg, hkids⟩ := h.range hcl hus hlast hhead hend
  obtain ⟨g', next, hreplace, hrep⟩ :=
    h.exists_replaced hcl ⟨headMem, hhead⟩ ⟨lastMem, hend⟩ hfirst hfront hrange hseg hfr
  have apart := fun {x} => h.apart hcl (x := x) hfr firstMem lastMem frontIn
  refine ⟨g', hreplace, ?_⟩
  exact {
    owner := hrep.owner.trans hcl.opened.owner
    root := by
      rw [hrep.root, if_neg (by simp)]
      exact hcl.opened.root
    size_le := by
      rw [hrep.size]
      exact Nat.le_succ_of_le hcl.opened.size_le
    ordered := fun ho => hrep.inherits.ordered (hcl.opened.ordered ho)
    stands := fun x y hy hs => by
      obtain ⟨op, ho, -⟩ := hs.2
      obtain ⟨-, -, -, h₂, h₃⟩ := apart ⟨hy, Graph.lt_size_of_op? ho⟩
      have kept := hcl.opened.stands x y (fun hmem => hy (hcl.carves.sublist.subset hmem)) hs
      exact hrep.inherits.stands_other hfront (h.stands_root hcl lastMem hend) h₃ h₂ kept
    ops := by
      refine ⟨_, fun x hx => ?_, fun x op hx ho =>
        ⟨_, h.outer_op hcl hτ hrep hfr firstMem lastMem frontIn hx ho, fun hne => ?_⟩⟩
      · obtain ⟨-, -, -, -, h₃⟩ := apart hx
        rw [hτ.fixes x hx, Graph.turn, if_neg h₃]
      · rcases h.home with ⟨rfl, -⟩ | ⟨hP, -⟩
        · exact if_neg hne
        · exact if_neg fun he : x = P => hx (he ▸ hP.1)
    lists := fun _ => h.lists_replaced hcl hτ hrep hfr firstMem lastMem frontIn hkids }

/-! What keeps a unit out. -/

/-- The way up from an op of the row. -/
theorem tops {x : OpId} (ht : head ∈ us) (hx : x ∈ head.ids) :
    Tops g (Within g₀ [head]) (some P) x := by
  obtain ⟨c, standing⟩ := h.standing
  by_cases hr : head.root ∈ idsAll fs
  · obtain ⟨o, ho⟩ := standing.exists_op? (mem_idsAll.mpr ⟨head, ht, root_mem_ids head⟩)
    have seat := (seated_root (seatedAll_iff.mp standing.seated head ht) o ho).1
    have parent : ∀ {d : OpId}, g₀.Up head.root d → d = P := by
      rintro d ⟨o', ho', hup⟩
      obtain rfl : o = o' := Option.some.inj (ho.symm.trans ho')
      exact Option.some.inj (hup.symm.trans seat)
    -- the tree is one of the fragments
    have fragment : head ∈ fs := by
      obtain ⟨F, hF, he⟩ := List.mem_map.mp
        ((h.carves.root_mem standing.nodup ht).resolve_left fun hs => hs.2 hr)
      rcases h.carves.standing standing.nodup (fun t ht => standing.single ht) F hF with
        hmem | ⟨u, hu, hsub, d, -, hd, hstem, hkid, -⟩
      · exact eq_of_mem_ids standing.nodup hmem ht (root_mem_ids F) (he ▸ root_mem_ids head) ▸ hF
      · have up := standing.up_of_kid hstem.1 hkid
        obtain rfl := parent (he ▸ up)
        exact absurd (mem_idsAll.mpr ⟨u, hu, hd⟩) (standing.parent_outside d rfl).1
    obtain ⟨t, -, -, d, -, hd, hkid, htops⟩ := hcl.opened.reach head fragment
    obtain rfl := parent (hcl.standing.up_of_kid hd.1 hkid)
    exact htops x hx
  · obtain ⟨op, ho, hp⟩ := h.root_up hcl ht hr
    exact ⟨head.root, op, h.climbs hcl ht hr hx, .inl (by simp [root_mem_ids]), ho, hp⟩

/-- Only in a block a tree of the row is a fragment itself; it is no kid of the block any more. -/
theorem fragment {F : HostTree} (hF : F ∈ fs) (hu : F ∈ us) :
    Stem ts fs P ∧ (∀ t ∈ us, g₀.Kid P t.root) ∧
      ∀ op, g.op? P = some op → ∀ k ∈ op.kids, k ∈ us.map HostTree.root ∧ k ∉ fs.map HostTree.root := by
  rcases h.home with ⟨rfl, rfl⟩ | ⟨hP, op₀, ho₀, hk₀⟩
  · exact absurd (mem_idsAll.mpr ⟨F, hF, root_mem_ids F⟩) (hcl.top F hu)
  · refine ⟨hP, fun t ht => ⟨op₀, ho₀, by rw [hk₀]; exact List.mem_map_of_mem ht⟩, fun op ho k hk => ?_⟩
    obtain ⟨τ, hτ, -⟩ := hcl.opened.shifts
    rw [hτ.stem P op₀ hP ho₀] at ho
    cases ho
    obtain ⟨hk, hout⟩ := List.mem_filter.mp hk
    exact ⟨hk₀ ▸ hk, of_decide_eq_true hout⟩

/-- **No unit is put in up to a tree that has been taken out.** -/
theorem not_replace_last {first new : OpId} {F : HostTree} {unit : CompiledUnit} {keep : Bool}
    (hF : F ∈ fs) (hu : F ∈ us) : Graph.replace first F.root unit keep g ≠ .ok new g' := by
  intro hr
  obtain ⟨hP, hkid, hleft⟩ := h.fragment hcl hF hu
  obtain ⟨stands, op, ho, hparent⟩ := hcl.kid_parent hP (hkid F hu)
  obtain ⟨lastOp, top, fault, hlast, -, hkids⟩ := Graph.replace_eq_ok hr
  rw [stands.resolve (hcl.opened.ordered hcl.ordered)] at hlast hkids
  obtain rfl : lastOp = op := Option.some.inj (hlast.symm.trans ho)
  obtain ⟨above, habove, -, hmem⟩ := hkids P hparent
  exact (hleft above habove F.root hmem).2 (List.mem_map_of_mem hF)

/-- **No unit is put in from a tree that has been taken out.** -/
theorem not_replace_first {first new : OpId} {F : HostTree} {unit : CompiledUnit} {keep : Bool}
    (hF : F ∈ fs) (hu : F ∈ us) (hfirst : first ∈ F.ids) (hl : last ∈ us) :
    Graph.replace first last.root unit keep g ≠ .ok new g' := by
  intro hr
  obtain ⟨c, standing⟩ := h.standing
  obtain ⟨hP, hkid, hleft⟩ := h.fragment hcl hF hu
  obtain ⟨stands, op, ho, hparent⟩ := hcl.kid_parent hP (hkid last hl)
  obtain ⟨lastOp, top, fault, hlast, hclimb, hkids⟩ := Graph.replace_eq_ok hr
  rw [stands.resolve (hcl.opened.ordered hcl.ordered)] at hlast hkids
  obtain rfl : lastOp = op := Option.some.inj (hlast.symm.trans ho)
  -- the climb ends in the fragment
  obtain ⟨top', topOp, path, inside, htop, hparent'⟩ := h.tops hcl hu hfirst
  have climb := path.childWithin htop hparent' (fun q hq hw => by
    cases hq
    refine (standing.parent_outside P rfl).not_within (hw.imp (fun hw => ?_) fun hw => hw)
    exact mem_idsAll.mpr ⟨F, hu, by simpa using hw⟩) fault
  rw [hparent, climb] at hclimb
  cases hclimb
  obtain ⟨above, habove, hmem, -⟩ := hkids P hparent
  obtain ⟨hroot, hout⟩ := hleft above habove _ hmem
  obtain ⟨t, ht, rfl⟩ := List.mem_map.mp hroot
  have old := standing.lt_size (mem_idsAll.mpr ⟨t, ht, root_mem_ids t⟩)
  rcases inside with hin | hin
  · obtain rfl := eq_of_mem_ids standing.nodup ht hu (root_mem_ids t) (by simpa using hin)
    exact hout (List.mem_map_of_mem hF)
  · exact Nat.not_lt.mpr hin old

/-- **No unit is put in up to an op that is deeper in another tree.**

For that the climb would have to end below the parent of the last op.  But from the first op parents
lead up through its own tree and then above the row, and never through that parent. -/
theorem not_replace_deeper {first x K r new : OpId} {t : HostTree} {op : Op} {unit : CompiledUnit}
    {keep : Bool} (hh : head ∈ us) (hfirst : first ∈ head.ids) (ht : t ∈ us) (hne : head ≠ t)
    (hK : K ∈ t.ids) (hout : K ∉ idsAll fs) (hkid : g₀.Kid K x)
    (hup : g.Rises (fun y => y ∉ idsAll us) P r) (hr : g.op? r = some op) (hp : op.parent = none) :
    Graph.replace first x unit keep g ≠ .ok new g' := by
  intro hrep
  obtain ⟨c, standing⟩ := h.standing
  have inUs : K ∈ idsAll us := mem_idsAll.mpr ⟨t, ht, hK⟩
  obtain ⟨stands, o, ho, hparent⟩ := hcl.kid_parent ⟨h.within K inUs, hout⟩ hkid
  obtain ⟨lastOp, top, fault, hlast, hclimb, -⟩ := Graph.replace_eq_ok hrep
  rw [stands.resolve (hcl.opened.ordered hcl.ordered)] at hlast
  obtain rfl : lastOp = o := Option.some.inj (hlast.symm.trans ho)
  obtain ⟨-, climbed, topOp, htop, hparent'⟩ := Graph.childWithin_eq_ok hclimb
  -- the way up from the first op does not lead through the parent of the last
  obtain ⟨top', topOp', path, -, htop', hup'⟩ := h.tops hcl hh hfirst
  have old := standing.lt_size inUs
  have way : g.Rises (fun y => y ≠ K) first r := by
    refine (path.mono fun y hy he => ?_).trans (.head ⟨⟨topOp', htop', hup'⟩, fun he => ?_⟩
      (hup.mono fun y hy he => hy (he ▸ inUs)))
    · subst he
      rcases hy with hy | hy
      · exact hne (eq_of_mem_ids standing.nodup hh ht (by simpa using hy) hK)
      · exact Nat.not_lt.mpr hy old
    · exact (standing.parent_outside P rfl).1 (he ▸ inUs)
  exact way.mem_of_up hr hp (.tail' climbed ⟨topOp, htop, hparent'.trans hparent⟩) rfl

end

end Level

end HostTree

end Graft
