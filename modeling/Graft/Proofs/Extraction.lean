import Graft.Proofs.Fragments

/-! # Taking fragments out

Before a unit is put in the place of some trees, their fragments are dealt with one after the
other: a fragment is regrafted itself, and then taken out of its tree.  `Taken` is what both
steps together do.  `Opened` describes the graph in between: of the fragments, some have been
taken out and stand for themselves, the others are where they were, and of the stem only lists
of kids have changed.

`Opened` is the invariant of the loop over the fragments.  It has to say of each of them which
way it is: one that has been taken out is a tree of its own, without a way out and with a root
that the graph keeps; one that has not is still linked into the stem, and its continuation may
be the start of a fragment that has been regrafted in the meantime, so links inside the trees
are those of the beginning up to a turning of starts.  That turning is kept as one function and
grows by one start with every fragment.

Taking out the next fragment keeps all this (`Opened.take`).  The parts of the proof are lemmas
about the fragment at hand: where its root is listed, that cutting its exits touches no op of
another one, and that what has been taken out before stays as it is.
-/

namespace Graft.HostTree

variable {g g₁ g₂ g' : Graph} {p cont : Option OpId} {t F F' : HostTree} {d : OpId}
  {ts us : List HostTree}

/-! ### One fragment -/

/-- A row that has nothing to do with a regraft stays. -/
theorem Regraft.apart (h : Regraft g g' (some d) [F] [F']) (hs : Standing g p cont us)
    (hd : d ∉ idsAll us) (hF : ∀ x ∈ idsAll us, x ∉ F.ids) :
    ∃ c, Standing g' p c us ∧ (cont = none → c = none) := by
  obtain ⟨τ, hτ⟩ := h.moves
  have outF : ∀ x ∈ idsAll us, Outside g [F] x := fun x hx =>
    ⟨by simpa using hF x hx, hs.lt_size hx⟩
  obtain ⟨linked, seats⟩ := hτ.apart us fun x hx =>
    ⟨outF x hx, fun he => hd (he ▸ hx), fun op ho => hs.live hx ho⟩
  refine ⟨cont.map τ, ⟨linked hs.linked, ?_, hs.nodup, fun c hc => ?_, fun q hq => ?_,
    fun r hr => ?_, fun r hr => ?_⟩, fun hc => by rw [hc]; rfl⟩
  · refine seatedAll_iff.mpr fun u hu => (seatedAll_iff.mp hs.seated u hu).transport fun x hx => ?_
    exact (seats x (mem_idsAll.mpr ⟨u, hu, hx⟩)).2
  · obtain ⟨y, hy, rfl⟩ := Option.map_eq_some_iff.mp hc
    by_cases hyF : y ∈ idsAll [F]
    · obtain ⟨hw, hlt⟩ := hτ.maps y hyF
      refine ⟨fun hmem => ?_, hlt⟩
      exact (outF _ hmem).not_within hw
    · obtain ⟨hout, hlt⟩ := hs.cont_outside y hy
      rw [hτ.fixes y ⟨hyF, hlt⟩]
      exact ⟨hout, Nat.lt_of_lt_of_le hlt h.size_le⟩
  · obtain ⟨hout, hlt⟩ := hs.parent_outside q hq
    exact ⟨hout, Nat.lt_of_lt_of_le hlt h.size_le⟩
  · rw [h.root_inner (by simp)] at hr
    exact Nat.lt_of_lt_of_le (hs.root_old r hr) h.size_le
  · rw [h.root_inner (by simp)] at hr
    exact hs.root_outside r hr

section Detach

variable {r : OpId} {es : List OpId}

/-- An op that taking out a fragment does not concern. -/
theorem detached_of_ne {x : OpId} {op : Op} (h₁ : x ≠ d) (h₂ : x ≠ r) (h₃ : x ∉ es) :
    Graph.detached d r es x op = op := by
  simp only [Graph.detached, if_neg h₁, if_neg h₂, if_neg h₃]

/-- A row that has nothing to do with a fragment stays when it is taken out. -/
theorem Standing.detached_apart (h : Graph.Rewrites (Graph.detached d r es) g g')
    (hs : Standing g p cont us) (hus : ∀ x ∈ idsAll us, x ≠ d ∧ x ≠ r ∧ x ∉ es) :
    Standing g' p cont us := by
  have same : ∀ x ∈ idsAll us, g'.op? x = g.op? x := by
    intro x hx
    obtain ⟨op, ho⟩ := hs.exists_op? hx
    obtain ⟨h₁, h₂, h₃⟩ := hus x hx
    rw [h.op_of ho, detached_of_ne h₁ h₂ h₃, ho]
  refine ⟨hs.linked.congr same, ?_, hs.nodup, fun c hc => ?_, fun q hq => ?_, fun r hr => ?_,
    fun r hr => ?_⟩
  · refine seatedAll_iff.mpr fun u hu => (seatedAll_iff.mp hs.seated u hu).transport
      fun x hx op' ho' => ?_
    rw [same x (mem_idsAll.mpr ⟨u, hu, hx⟩)] at ho'
    exact ⟨op', ho', rfl, fun h => h, fun h => h⟩
  · obtain ⟨hout, hlt⟩ := hs.cont_outside c hc
    exact ⟨hout, h.size ▸ hlt⟩
  · obtain ⟨hout, hlt⟩ := hs.parent_outside q hq
    exact ⟨hout, h.size ▸ hlt⟩
  · rw [h.root] at hr
    exact h.size ▸ hs.root_old r hr
  · rw [h.root] at hr
    exact hs.root_outside r hr

/-- **A fragment that is taken out stands for itself.** -/
theorem Standing.detached (h : Graph.Rewrites (Graph.detached d t.root t.exits) g g')
    (hs : Standing g (some d) cont [t]) (hl : Listless t) : Standing g' (some d) none [t] := by
  have apart : ∀ x ∈ t.ids, x ≠ d := fun x hx he =>
    (hs.parent_outside d rfl).1 (by simpa [he] using hx)
  have nodup : t.ids.Nodup := by simpa using hs.nodup
  have linked : Linked g' t none := by
    refine hs.linked.1.cut t.exits hl nodup (fun _ _ => Iff.rfl) fun x hx op ho => ?_
    refine ⟨_, h.op_of ho, rfl, ?_, rfl, rfl⟩
    simp only [Graph.detached, if_neg (apart x hx)]
  refine ⟨⟨linked, trivial⟩, ⟨hs.seated.1.transport fun x hx op' ho' => ?_, trivial⟩, hs.nodup,
    fun c hc => by (cases hc), fun q hq => ?_, fun r hr => ?_, fun r hr => ?_⟩
  · obtain ⟨op, ho, rfl⟩ := h.op_inv ho'
    refine ⟨op, ho, rfl, fun hlive => ?_, fun hnone => hnone⟩
    simp only [Graph.detached]
    split
    · simp
    · exact hlive
  · obtain ⟨hout, hlt⟩ := hs.parent_outside q hq
    exact ⟨hout, h.size ▸ hlt⟩
  · rw [h.root] at hr
    exact h.size ▸ hs.root_old r hr
  · rw [h.root] at hr
    exact hs.root_outside r hr

end Detach

/-- What becomes of the ops outside a fragment that is taken out. -/
structure TakenMoves (g g' : Graph) (d : OpId) (F F' : HostTree) (τ : OpId → OpId) : Prop where
  fixes : ∀ x, Outside g [F] x → τ x = x
  maps : ∀ x ∈ F.ids, Within g [F] (τ x) ∧ (τ x).index < g'.size
  start : τ F.start = F'.start
  entry : g'.entry = g.entry.map τ
  ops : ∀ x op, x ∉ F.ids → x ≠ d → g.op? x = some op → g'.op? x = some (op.turned τ)
  parent : ∀ op, g.op? d = some op → op.kids.Nodup → F.root ∈ op.kids →
    g'.op? d = some { op.turned τ with kids := op.kids.filter fun k => k ≠ F.root }

/-- **The fragment `F` below `d` has become `F'` and been taken out.** -/
structure Taken (g g' : Graph) (d : OpId) (F F' : HostTree) : Prop where
  owner : g'.owner = g.owner
  root : g'.root = g.root
  size_le : g.size ≤ g'.size
  kinds : ∀ x op, g.op? x = some op → ∃ op', g'.op? x = some op' ∧ op'.kind = op.kind
  roots : F'.root = F.root
  within : ∀ x ∈ F'.ids, Within g [F] x
  added : ∀ x op, g.size ≤ x.index → g'.op? x = some op → op.kind.shape = .unit
  units : ∀ x op, Within g [F] x → g'.op? x = some op → op.kind.shape = .unit → x ∈ F'.ids
  standing : Standing g' (some d) none [F']
  apart : ∀ p c us, Standing g p c us → d ∉ idsAll us → (∀ x ∈ idsAll us, x ∉ F.ids) →
    ∃ c', Standing g' p c' us ∧ (c = none → c' = none)
  moves : ∃ τ, TakenMoves g g' d F F' τ
  parents : ∀ u v, u ∉ F.ids → g.Up u v → g'.Up u v
  rises : ∀ x ∈ F.ids, Tops g' (Within g [F]) (some d) x
  shed : ∀ y ∈ F.ids, y ∉ F'.ids → ∀ k, g'.Kid y k →
    Within g [F] k ∧ k ∉ F'.ids ∧ k.index < g'.size
  ordered : g.Ordered → g'.Ordered
  stands : ∀ x y, y ∉ F.ids → g.Stands x y → g'.Stands x y
  stands_start : ∀ x, g.Stands x F.start → g'.Stands x F'.start
  stands_root : ∀ x, g.Stands x F.root → g'.Stands x F.root

/-- A way up is one in another graph, if the parents on it are the same. -/
theorem Tops.of_parents {S : OpId → Prop} {e x : OpId} (h : Tops g S (some e) x)
    (hp : ∀ u v, S u → g.Up u v → g'.Up u v) (hx : S x) : Tops g' S (some e) x := by
  obtain ⟨top, op, path, hs, ho, hup⟩ := h
  obtain ⟨op', ho', hup'⟩ := hp top e hs ⟨op, ho, hup⟩
  refine ⟨top, op', ?_, hs, ho', hup'⟩
  clear hs ho ho'
  induction path using Relation.ReflTransGen.head_induction_on with
  | refl => exact .refl
  | head step _ ih => exact .head ⟨hp _ _ hx step.1, step.2⟩ (ih step.2)

/-- **A fragment is regrafted and then taken out.** -/
theorem Regraft.take (h : Regraft g g₁ (some d) [F] [F']) (hF : Standing g (some d) cont [F])
    (hroot : F'.root = F.root) (hl : Listless F')
    (hd : Graph.Rewrites (Graph.detached d F'.root F'.exits) g₁ g₂) : Taken g g₂ d F F' := by
  obtain ⟨τ, hτ⟩ := h.moves
  have new := h.standing cont hF
  have keeps : ∀ x op, (Graph.detached d F'.root F'.exits x op).heir = op.heir := fun _ _ => rfl
  have dOut := hF.parent_outside d rfl
  have within : ∀ x ∈ F'.ids, Within g [F] x := fun x hx => h.within x (by simpa using hx)
  have outside : ∀ {x}, Outside g [F] x → x ∉ F'.ids := fun hx hmem =>
    hx.not_within (within _ hmem)
  -- ops that are neither in the fragment nor its parent are not touched by the second step
  have untouched : ∀ {x op}, x ∉ F'.ids → x ≠ d → g₁.op? x = some op → g₂.op? x = some op := by
    intro x op hx hne ho
    rw [hd.op_of ho, detached_of_ne hne (fun he => hx (he ▸ root_mem_ids F'))
      fun he => hx (exits_subset F' he)]
  exact {
    owner := hd.owner.trans h.owner
    root := hd.root.trans (h.root_inner (by simp))
    size_le := hd.size ▸ h.size_le
    kinds := fun x op ho => by
      obtain ⟨op₁, ho₁, hk⟩ := h.kinds x op ho
      exact ⟨_, hd.op_of ho₁, hk⟩
    roots := hroot
    within := within
    added := fun x op hx ho => by
      obtain ⟨op₁, ho₁, rfl⟩ := hd.op_inv ho
      exact h.added x op₁ hx ho₁
    units := fun x op hx ho hu => by
      obtain ⟨op₁, ho₁, rfl⟩ := hd.op_inv ho
      simpa using h.units x op₁ hx ho₁ hu
    standing := new.detached hd hl
    apart := fun p c us hs hdus hus => by
      obtain ⟨c', hs', hc'⟩ := h.apart hs hdus hus
      refine ⟨c', hs'.detached_apart hd fun x hx => ?_, hc'⟩
      have hxF' : x ∉ F'.ids := outside ⟨by simpa using hus x hx, hs.lt_size hx⟩
      exact ⟨fun he => hdus (he ▸ hx), fun he => hxF' (he ▸ root_mem_ids F'),
        fun he => hxF' (exits_subset F' he)⟩
    moves := by
      refine ⟨τ, hτ.fixes, fun x hx => ?_, Option.some.inj hτ.start, ?_, fun x op hx hne ho => ?_,
        fun op ho hn hmem => ?_⟩
      · rw [hd.size]
        exact hτ.maps x (by simpa using hx)
      · rw [hd.entry, hτ.entry]
      · have hx' : x ∉ idsAll [F] := by simpa using hx
        exact untouched (outside ⟨hx', Graph.lt_size_of_op? ho⟩) hne
          (hτ.ops x op hx' (fun he => hne (Option.some.inj he)) ho)
      · obtain ⟨as, bs, hsplit⟩ := List.append_of_mem hmem
        obtain ⟨kids, ho₁, hkids⟩ := hτ.parent d op rfl ho
        have same : kids = op.kids := by
          rw [hkids as bs hn (by simpa using hsplit), hsplit]
          simp [hroot]
        have notRoot : d ≠ F.root := fun he => outside dOut (he.trans hroot.symm ▸ root_mem_ids F')
        have notExit : d ∉ F'.exits := fun he => outside dOut (exits_subset F' he)
        rw [hd.op_of ho₁, same]
        simp only [Graph.detached, if_true, hroot, if_neg notRoot, if_neg notExit]
    parents := fun u v hu huv => by
      obtain ⟨op, ho, hup⟩ := huv
      obtain ⟨kids, ho₁, -⟩ := hτ.op (by simpa using hu) ho
      exact ⟨_, hd.op_of ho₁, (Op.parent_turned τ op).trans hup⟩
    rises := fun x hx => by
      have hx' : x ∈ idsAll [F] := by simpa using hx
      refine (h.rises x hx').of_parents (fun u v _ huv => ?_) (.inl hx')
      obtain ⟨o, ho, hup⟩ := huv
      exact ⟨_, hd.op_of ho, hup⟩
    shed := fun y hy hy' k hk => by
      obtain ⟨op₂, ho₂, hmem⟩ := hk
      obtain ⟨op₁, ho₁, rfl⟩ := hd.op_inv ho₂
      have hne : y ≠ d := fun he => dOut.1 (by simpa [he] using hy)
      simp only [Graph.detached, if_neg hne] at hmem
      obtain ⟨hw, hout, hlt⟩ := h.shed y (by simpa using hy) (by simpa using hy') k ⟨op₁, ho₁, hmem⟩
      exact ⟨hw, by simpa using hout, hd.size ▸ hlt⟩
    ordered := fun ho => hd.ordered keeps (h.ordered ho)
    stands := fun x y hy hs => hd.stands keeps (h.stands x y (by simpa using hy) hs)
    stands_start := fun x hs => hd.stands keeps (h.stands_start x _ _ rfl rfl hs)
    stands_root := fun x hs => hroot ▸ hd.stands keeps (h.stands_root F F' rfl rfl x hs) }

/-! ### Several fragments -/

/-- How the ops outside the fragments `fs` of `ts` have changed when those in `pre` have been
taken out. -/
structure Shifts (g₀ g : Graph) (ts fs pre : List HostTree) (τ : OpId → OpId) : Prop where
  fixes : ∀ x, Outside g₀ ts x → τ x = x
  maps : ∀ x ∈ idsAll ts, Within g₀ ts (τ x) ∧ (τ x).index < g.size
  entry : g.entry = g₀.entry.map τ
  outer : ∀ x op, x ∉ idsAll ts → g₀.op? x = some op → g.op? x = some (op.turned τ)
  stem : ∀ x op, Stem ts fs x → g₀.op? x = some op →
    g.op? x = some { op.turned τ with kids := op.kids.filter fun k => k ∉ pre.map root }

/-- **The trees `ts` are open**: of their fragments `fs`, those in `pre` have become `done` and
been taken out, and `todo` are still in place. -/
structure Opened (g₀ g : Graph) (ts fs pre done todo : List HostTree) : Prop where
  owner : g.owner = g₀.owner
  root : g.root = g₀.root
  size_le : g₀.size ≤ g.size
  kinds : ∀ x op, g₀.op? x = some op → ∃ op', g.op? x = some op' ∧ op'.kind = op.kind
  added : ∀ x op, g₀.size ≤ x.index → g.op? x = some op → op.kind.shape = .unit
  split : fs = pre ++ todo
  roots : done.map HostTree.root = pre.map HostTree.root
  within : ∀ x ∈ idsAll done, Within g₀ pre x
  nodup : (idsAll done).Nodup
  units : ∀ x op, Within g₀ pre x → g.op? x = some op → op.kind.shape = .unit → x ∈ idsAll done
  detached : ∀ t ∈ done, ∃ d, Stem ts fs d ∧ Standing g (some d) none [t]
  attached : ∀ F ∈ todo, ∃ t ∈ ts, F.ids ⊆ t.ids ∧
    ∃ d c, d ∈ t.ids ∧ Stem ts fs d ∧ g₀.Kid d F.root ∧ Standing g (some d) c [F]
  shifts : ∃ τ, Shifts g₀ g ts fs pre τ ∧ ∀ s, entryOf ts none = some s →
    (Stem ts fs (τ s) ∨ ∃ t ∈ done ++ todo, t.start = τ s) ∧
      ∀ x, g₀.Stands x s → g.Stands x (τ s)
  /-- Parents lead up the stem, and from a fragment to the stem. -/
  up : ∀ t ∈ ts, ∀ x ∈ t.ids, x ∉ idsAll fs → g.Rises (Stem ts fs) x t.root
  reach : ∀ F ∈ pre, ∃ t ∈ ts, F.ids ⊆ t.ids ∧
    ∃ d ∈ t.ids, Stem ts fs d ∧ g₀.Kid d F.root ∧ ∀ x ∈ F.ids, Tops g (Within g₀ [F]) (some d) x
  shed : ∀ y ∈ idsAll pre, y ∉ idsAll done → ∀ k, g.Kid y k →
    Within g₀ pre k ∧ k ∉ idsAll done ∧ k.index < g.size
  ordered : g₀.Ordered → g.Ordered
  stands : ∀ x y, y ∉ idsAll fs → g₀.Stands x y → g.Stands x y
  stands_roots : ∀ F ∈ fs, ∀ x, g₀.Stands x F.root → g.Stands x F.root
  stands_starts : ∀ F ∈ fs, ∃ F' ∈ done ++ todo, ∀ x, g₀.Stands x F.start → g.Stands x F'.start

variable {g₀ : Graph} {fs pre done todo : List HostTree}

/-- At first all fragments are in place. -/
theorem Standing.opened (hs : Standing g p cont ts) (hc : Carves ts fs)
    (htop : ∀ t ∈ ts, t.root ∉ idsAll fs) (hu : ∀ s ∈ subtreesAll ts, s.shape ≠ .unit) :
    Opened g g ts fs [] [] fs where
  owner := rfl
  root := rfl
  size_le := Nat.le_refl _
  kinds _ op ho := ⟨op, ho, rfl⟩
  added _ _ hx ho := absurd (Graph.lt_size_of_op? ho) (Nat.not_lt.mpr hx)
  split := rfl
  roots := rfl
  within _ hx := by cases hx
  nodup := by simp
  units x _ hx ho _ := by
    rcases hx with hx | hx
    · cases hx
    · exact absurd (Graph.lt_size_of_op? ho) (Nat.not_lt.mpr hx)
  detached _ ht := by cases ht
  attached F hF := by
    rcases hc.standing hs.nodup (fun t ht => hs.single ht) F hF with hmem | h
    · exact absurd (mem_idsAll.mpr ⟨F, hF, root_mem_ids F⟩) (htop F hmem)
    · exact h
  shifts := by
    refine ⟨fun x => x, ⟨fun _ _ => rfl, fun x hx => ⟨.inl hx, hs.lt_size hx⟩, by simp,
      fun x op _ ho => ?_, fun x op _ ho => ?_⟩, fun s hstart => ⟨?_, fun _ h => h⟩⟩
    · rw [ho, Op.turned_id]
    · rw [ho, Op.turned_id]
      simp
    · cases ts with
      | nil => cases hstart
      | cons t ts =>
        cases hstart
        simpa using hc.start hs.nodup hu (by simp)
  up := hc.rises hs.nodup (fun _ h => h) (fun t ht => hs.reads ht)
    fun t ht => ⟨p, seatedAll_iff.mp hs.seated t ht⟩
  reach _ hF := by cases hF
  shed _ hy := by cases hy
  ordered h := h
  stands _ _ _ h := h
  stands_roots _ _ _ h := h
  stands_starts F hF := ⟨F, hF, fun _ h => h⟩

/-- The op above a fragment that is still in place has it among its kids. -/
theorem Opened.listed (h : Opened g₀ g ts fs pre done (F :: todo)) (hs : Standing g₀ p cont ts)
    (hc : Carves ts fs) (hd : Stem ts fs d) (hkid : g₀.Kid d F.root) :
    ∃ op, g.op? d = some op ∧ op.kids.Nodup ∧ F.root ∈ op.kids := by
  have nodup : (idsAll fs).Nodup := hs.nodup.sublist hc.sublist
  rw [h.split, idsAll_append, idsAll_cons, List.nodup_append] at nodup
  obtain ⟨τ, hτ, -⟩ := h.shifts
  obtain ⟨op, ho, hmem⟩ := hkid
  have notPre : F.root ∉ pre.map HostTree.root := fun hmem => by
    obtain ⟨K, hK, he⟩ := List.mem_map.mp hmem
    refine nodup.2.2 K.root (mem_idsAll.mpr ⟨K, hK, root_mem_ids K⟩) K.root ?_ rfl
    rw [he]
    simp [root_mem_ids]
  exact ⟨_, hτ.stem d op hd ho, (hs.kids_nodup hd.1 ho).filter _,
    List.mem_filter.mpr ⟨hmem, decide_eq_true notPre⟩⟩

/-! ### The next fragment

What is known of a fragment `F` that is still in place, and of the graph in which it has been taken
out. -/

namespace Opened

section Next

variable (h : Opened g₀ g ts fs pre done (F :: todo)) (hs : Standing g₀ p cont ts) (hc : Carves ts fs)

include h

theorem next_subset {x : OpId} (hx : x ∈ F.ids) : x ∈ idsAll fs := by
  rw [h.split, idsAll_append, idsAll_cons]
  simp [hx]

theorem pre_subset {x : OpId} (hx : x ∈ idsAll pre) : x ∈ idsAll fs := by
  rw [h.split, idsAll_append]
  simp [hx]

theorem todo_subset {x : OpId} (hx : x ∈ idsAll todo) : x ∈ idsAll fs := by
  rw [h.split, idsAll_append, idsAll_cons]
  simp [hx]

theorem stem_apart {x : OpId} (hx : Stem ts fs x) : x ∉ F.ids := fun hxF => hx.2 (h.next_subset hxF)

theorem done_old {x : OpId} (hx : x ∈ idsAll done) : x.index < g.size := by
  obtain ⟨t, ht, hxt⟩ := mem_idsAll.mp hx
  obtain ⟨d', -, hst⟩ := h.detached t ht
  exact hst.lt_size (by simpa using hxt)

theorem within_next {x : OpId} (hx : Within g [F] x) : Within g₀ (pre ++ [F]) x := by
  rcases hx with hx | hx
  · exact .inl (by simpa using .inr (by simpa using hx))
  · exact .inr (Nat.le_trans h.size_le hx)

include hs hc

theorem fragments_nodup : (idsAll pre ++ (F.ids ++ idsAll todo)).Nodup := by
  have nodup : (idsAll fs).Nodup := hs.nodup.sublist hc.sublist
  rwa [h.split, idsAll_append, idsAll_cons] at nodup

/-- The fragments that have been taken out have nothing to do with the next. -/
theorem pre_apart {x : OpId} (hx : Within g₀ pre x) : x ∉ F.ids := by
  intro hxF
  obtain ⟨-, -, apart⟩ := List.nodup_append.mp (h.fragments_nodup hs hc)
  rcases hx with hx | hx
  · exact apart x hx x (by simp [hxF]) rfl
  · exact Nat.not_lt.mpr hx (hs.lt_size (hc.sublist.subset (h.next_subset hxF)))

theorem todo_apart {x : OpId} (hx : x ∈ idsAll todo) : x ∉ F.ids := by
  intro hxF
  obtain ⟨-, rest, -⟩ := List.nodup_append.mp (h.fragments_nodup hs hc)
  obtain ⟨-, -, apart⟩ := List.nodup_append.mp rest
  exact apart x hxF x hx rfl

end Next

section Take

variable (h : Opened g₀ g ts fs pre done (F :: todo)) (hs : Standing g₀ p cont ts) (hc : Carves ts fs)
  (ht : Taken g g' d F F')

include h hs hc ht

theorem done_apart {x : OpId} (hx : x ∈ idsAll done) : x ∉ F'.ids := by
  intro hx'
  rcases ht.within x hx' with hxF | hxF
  · exact h.pre_apart hs hc (h.within x hx) (by simpa using hxF)
  · exact Nat.not_lt.mpr hxF (h.done_old hx)

/-- Where the fragments start now. -/
theorem take_start {σ : OpId → OpId} (hσ : TakenMoves g g' d F F' σ) {t : HostTree}
    (htm : t ∈ done ++ F :: todo) : ∃ t' ∈ (done ++ [F']) ++ todo, t'.start = σ t.start ∧
      ∀ x, g.Stands x t.start → g'.Stands x t'.start := by
  have fixed : ∀ x, x ∉ F.ids → x.index < g.size → x = σ x := fun x hx hlt =>
    (hσ.fixes x ⟨by simpa using hx, hlt⟩).symm
  simp only [List.mem_append, List.mem_cons] at htm
  rcases htm with hmem | rfl | hmem
  · have hin := mem_idsAll.mpr ⟨t, hmem, start_mem_ids t⟩
    have hout := h.pre_apart hs hc (h.within _ hin)
    exact ⟨t, by simp [hmem], fixed _ hout (h.done_old hin), fun x hx => ht.stands x _ hout hx⟩
  · exact ⟨F', by simp, hσ.start.symm, fun x hx => ht.stands_start x hx⟩
  · obtain ⟨_, -, -, _, _, -, -, -, hst⟩ := h.attached t (by simp [hmem])
    have hout := h.todo_apart hs hc (mem_idsAll.mpr ⟨t, hmem, start_mem_ids t⟩)
    exact ⟨t, by simp [hmem], fixed _ hout (hst.lt_size (by simp [start_mem_ids])),
      fun x hx => ht.stands x _ hout hx⟩

omit hs hc in
theorem take_units {x : OpId} {op : Op} (hx : Within g₀ (pre ++ [F]) x) (ho : g'.op? x = some op)
    (hu : op.kind.shape = .unit) : x ∈ idsAll (done ++ [F']) := by
  rw [idsAll_append, List.mem_append]
  by_cases hw : Within g [F] x
  · exact .inr (by simpa using ht.units x op hw ho hu)
  · obtain ⟨hxF, hlt⟩ := outside_of_not_within hw
    obtain ⟨op₁, ho₁⟩ := Graph.exists_op? hlt
    obtain ⟨op₂, ho₂, hk⟩ := ht.kinds x op₁ ho₁
    obtain rfl : op = op₂ := Option.some.inj (ho.symm.trans ho₂)
    refine .inl (h.units x op₁ ?_ ho₁ (hk ▸ hu))
    refine hx.imp (fun hx => ?_) fun hx => hx
    rw [idsAll_append, List.mem_append] at hx
    exact hx.resolve_right hxF

theorem take_attached (hd : Stem ts fs d) {K : HostTree} (hK : K ∈ todo) : ∃ t ∈ ts, K.ids ⊆ t.ids ∧
    ∃ e c, e ∈ t.ids ∧ Stem ts fs e ∧ g₀.Kid e K.root ∧ Standing g' (some e) c [K] := by
  obtain ⟨t, htmem, hsub, e, c, he, hstem, hkid, hst⟩ := h.attached K (by simp [hK])
  have inTodo : ∀ x ∈ idsAll [K], x ∈ idsAll todo := fun x hx =>
    mem_idsAll.mpr ⟨K, hK, by simpa using hx⟩
  obtain ⟨c', hst', -⟩ := ht.apart _ _ [K] hst (fun hmem => hd.2 (h.todo_subset (inTodo d hmem)))
    fun x hx => h.todo_apart hs hc (inTodo x hx)
  exact ⟨t, htmem, hsub, e, c', he, hstem, hkid, hst'⟩

theorem take_detached (hd : Stem ts fs d) {t : HostTree} (htm : t ∈ done ++ [F']) :
    ∃ e, Stem ts fs e ∧ Standing g' (some e) none [t] := by
  rcases List.mem_append.mp htm with hmem | hmem
  · obtain ⟨e, he, hst⟩ := h.detached t hmem
    have inside : ∀ x ∈ idsAll [t], Within g₀ pre x := fun x hx =>
      h.within x (mem_idsAll.mpr ⟨t, hmem, by simpa using hx⟩)
    have dOut : d ∉ idsAll [t] := fun hmem => by
      rcases inside d hmem with hdp | hdp
      · exact hd.2 (h.pre_subset hdp)
      · exact Nat.not_lt.mpr hdp (hs.lt_size hd.1)
    obtain ⟨c, hst', hc'⟩ := ht.apart _ _ [t] hst dOut fun x hx => h.pre_apart hs hc (inside x hx)
    obtain rfl := hc' rfl
    exact ⟨e, he, hst'⟩
  · obtain rfl := List.mem_singleton.mp hmem
    exact ⟨d, hd, ht.standing⟩

/-- What the stem lists now. -/
theorem take_stem {τ σ : OpId → OpId} (hτ : Shifts g₀ g ts fs pre τ) (hσ : TakenMoves g g' d F F' σ)
    (hd : Stem ts fs d) (hkid : g₀.Kid d F.root) {x : OpId} {op : Op} (hx : Stem ts fs x)
    (ho : g₀.op? x = some op) : g'.op? x =
      some { op.turned (σ ∘ τ) with kids := op.kids.filter fun k => k ∉ (pre ++ [F]).map HostTree.root } := by
  have ho₁ := hτ.stem x op hx ho
  by_cases hne : x = d
  · subst hne
    obtain ⟨op', ho', nodup', listed⟩ := h.listed hs hc hx hkid
    obtain rfl := Option.some.inj (ho₁.symm.trans ho')
    rw [hσ.parent _ ho₁ nodup' listed, Op.turned_with_kids, Op.turned_turned]
    have kids : (op.kids.filter fun k => k ∉ pre.map HostTree.root).filter
        (fun k => k ≠ F.root) = op.kids.filter fun k => k ∉ (pre ++ [F]).map HostTree.root := by
      rw [List.filter_filter]
      refine List.filter_congr fun k _ => ?_
      rw [Bool.and_comm]
      simp
    rw [← kids]
    rfl
  · rw [hσ.ops x _ (h.stem_apart hx) hne ho₁, Op.turned_with_kids, Op.turned_turned]
    -- a fragment has one parent
    have notKid : F.root ∉ op.kids := fun hmem => by
      obtain ⟨o, hoF, hup⟩ := hs.up_of_kid hx.1 ⟨op, ho, hmem⟩
      obtain ⟨o', hoF', hup'⟩ := hs.up_of_kid hd.1 hkid
      obtain rfl : o = o' := Option.some.inj (hoF.symm.trans hoF')
      exact hne (Option.some.inj (hup.symm.trans hup'))
    have kids : op.kids.filter (fun k => k ∉ pre.map HostTree.root) =
        op.kids.filter fun k => k ∉ (pre ++ [F]).map HostTree.root := by
      refine List.filter_congr fun k hk => ?_
      have : k ≠ F.root := fun he => notKid (he ▸ hk)
      simp [this]
    rw [kids]
    rfl

/-- How the ops outside the fragments have changed now. -/
theorem take_shifts {τ σ : OpId → OpId} (hτ : Shifts g₀ g ts fs pre τ) (hσ : TakenMoves g g' d F F' σ)
    (hd : Stem ts fs d) (hkid : g₀.Kid d F.root) : Shifts g₀ g' ts fs (pre ++ [F]) (σ ∘ τ) := by
  have fixed : ∀ x, x ∉ F.ids → x.index < g.size → σ x = x := fun x hx hlt =>
    hσ.fixes x ⟨by simpa using hx, hlt⟩
  have inTs : ∀ x ∈ F.ids, x ∈ idsAll ts := fun x hx => hc.sublist.subset (h.next_subset hx)
  constructor
  · intro x hx
    rw [Function.comp_apply, hτ.fixes x hx]
    exact fixed x (fun hxF => hx.1 (inTs x hxF)) (Nat.lt_of_lt_of_le hx.2 h.size_le)
  · intro x hx
    obtain ⟨hw, hlt⟩ := hτ.maps x hx
    by_cases hF : τ x ∈ F.ids
    · obtain ⟨hw', hlt'⟩ := hσ.maps _ hF
      refine ⟨hw'.elim (fun hw' => .inl (inTs _ (by simpa using hw'))) fun hw' => ?_, hlt'⟩
      exact .inr (Nat.le_trans h.size_le hw')
    · rw [Function.comp_apply, fixed _ hF hlt]
      exact ⟨hw, Nat.lt_of_lt_of_le hlt ht.size_le⟩
  · rw [hσ.entry, hτ.entry, Option.map_map]
  · intro x op hx ho
    rw [hσ.ops x _ (fun hxF => hx (inTs x hxF)) (fun he => hx (he ▸ hd.1)) (hτ.outer x op hx ho),
      Op.turned_turned]
    rfl
  · exact fun x op hx ho => h.take_stem hs hc ht hτ hσ hd hkid hx ho

/-- From a fragment that has been taken out parents still lead to the stem. -/
theorem take_reach (hd : Stem ts fs d) (hkid : g₀.Kid d F.root)
    (hin : ∃ t ∈ ts, F.ids ⊆ t.ids ∧ d ∈ t.ids) {K : HostTree} (hK : K ∈ pre ++ [F]) :
    ∃ t ∈ ts, K.ids ⊆ t.ids ∧ ∃ e ∈ t.ids, Stem ts fs e ∧ g₀.Kid e K.root ∧
      ∀ x ∈ K.ids, Tops g' (Within g₀ [K]) (some e) x := by
  rcases List.mem_append.mp hK with hK | hK
  · obtain ⟨t, htmem, hsub, e, he, hstem, hkid', htops⟩ := h.reach K hK
    refine ⟨t, htmem, hsub, e, he, hstem, hkid', fun x hx => ?_⟩
    have inside : ∀ u, Within g₀ [K] u → u ∉ F.ids := fun u hu => h.pre_apart hs hc <|
      hu.imp (fun hu => mem_idsAll.mpr ⟨K, hK, by simpa using hu⟩) fun hu => hu
    exact (htops x hx).of_parents (fun u v hu => ht.parents u v (inside u hu)) (.inl (by simpa using hx))
  · obtain rfl := List.mem_singleton.mp hK
    obtain ⟨t, htmem, hsub, hdt⟩ := hin
    refine ⟨t, htmem, hsub, d, hdt, hd, hkid, fun x hx => (ht.rises x hx).mono fun u hu => ?_⟩
    exact hu.imp (fun hu => hu) fun hu => Nat.le_trans h.size_le hu

/-- What is left of the fragments lists nothing that is in use. -/
theorem take_shed (hd : Stem ts fs d) {y k : OpId} (hy : y ∈ idsAll (pre ++ [F]))
    (hy' : y ∉ idsAll (done ++ [F'])) (hk : g'.Kid y k) :
    Within g₀ (pre ++ [F]) k ∧ k ∉ idsAll (done ++ [F']) ∧ k.index < g'.size := by
  rw [idsAll_append, List.mem_append] at hy hy'
  rw [not_or] at hy'
  rw [idsAll_append, List.mem_append, not_or]
  rcases hy with hy | hy
  · have hne : y ≠ d := fun he => hd.2 (h.pre_subset (he ▸ hy))
    obtain ⟨σ, hσ⟩ := ht.moves
    obtain ⟨op₀, ho₀⟩ := hs.exists_op? (hc.sublist.subset (h.pre_subset hy))
    obtain ⟨op₁, ho₁, -⟩ := h.kinds y op₀ ho₀
    obtain ⟨op₂, ho₂, hmem⟩ := hk
    rw [hσ.ops y op₁ (h.pre_apart hs hc (.inl hy)) hne ho₁] at ho₂
    cases ho₂
    rw [Op.kids_turned] at hmem
    obtain ⟨hw, hout, hlt⟩ := h.shed y hy hy'.1 k ⟨op₁, ho₁, hmem⟩
    refine ⟨hw.imp (fun hw => by simp [hw]) fun hw => hw, ⟨hout, fun hkF => ?_⟩,
      Nat.lt_of_lt_of_le hlt ht.size_le⟩
    rcases ht.within k (by simpa using hkF) with hkF | hkF
    · exact h.pre_apart hs hc hw (by simpa using hkF)
    · exact Nat.not_lt.mpr hkF hlt
  · obtain ⟨hw, hout, hlt⟩ := ht.shed y (by simpa using hy) (by simpa using hy'.2) k hk
    refine ⟨h.within_next hw, ⟨fun hkd => ?_, by simpa using hout⟩, hlt⟩
    rcases hw with hw | hw
    · exact h.pre_apart hs hc (h.within k hkd) (by simpa using hw)
    · exact Nat.not_lt.mpr hw (h.done_old hkd)

/-- **The next fragment is taken out.** -/
theorem take (hd : Stem ts fs d) (hkid : g₀.Kid d F.root)
    (hin : ∃ t ∈ ts, F.ids ⊆ t.ids ∧ d ∈ t.ids) :
    Opened g₀ g' ts fs (pre ++ [F]) (done ++ [F']) todo where
  owner := ht.owner.trans h.owner
  root := ht.root.trans h.root
  size_le := Nat.le_trans h.size_le ht.size_le
  kinds := Graph.kinds_trans h.kinds ht.kinds
  added := Graph.added_trans ht.kinds h.added ht.added
  split := by rw [h.split]; simp
  roots := by simp [h.roots, ht.roots]
  within x hx := by
    rw [idsAll_append, List.mem_append] at hx
    rcases hx with hx | hx
    · exact (h.within x hx).imp (fun hx => by simp [hx]) fun hx => hx
    · exact h.within_next (ht.within x (by simpa using hx))
  nodup := by
    rw [idsAll_append, List.nodup_append]
    refine ⟨h.nodup, ht.standing.nodup, ?_⟩
    rintro x hx y hy rfl
    exact h.done_apart hs hc ht hx (by simpa using hy)
  units _ _ hx ho hu := h.take_units ht hx ho hu
  detached _ htm := h.take_detached hs hc ht hd htm
  attached _ hK := h.take_attached hs hc ht hd hK
  shifts := by
    obtain ⟨τ, hτ, hstart⟩ := h.shifts
    obtain ⟨σ, hσ⟩ := ht.moves
    refine ⟨σ ∘ τ, h.take_shifts hs hc ht hτ hσ hd hkid, fun s hse => ?_⟩
    rw [Function.comp_apply]
    obtain ⟨place | ⟨t, htm, place⟩, stands⟩ := hstart s hse
    · have apart := h.stem_apart place
      have hlt := Nat.lt_of_lt_of_le (hs.lt_size place.1) h.size_le
      rw [hσ.fixes _ ⟨by simpa using apart, hlt⟩]
      exact ⟨.inl place, fun x hx => ht.stands x _ apart (stands x hx)⟩
    · obtain ⟨t', htm', start', stands'⟩ := h.take_start hs hc ht hσ htm
      rw [← place] at stands ⊢
      rw [← start']
      exact ⟨.inr ⟨t', htm', rfl⟩, fun x hx => stands' x (stands x hx)⟩
  up t htm x hx hout := by
    have path := h.up t htm x hx hout
    have start : x ∉ F.ids := fun hxF => hout (h.next_subset hxF)
    clear hx hout
    induction path using Relation.ReflTransGen.head_induction_on with
    | refl => exact .refl
    | head step _ ih =>
      exact .head ⟨ht.parents _ _ start step.1, step.2⟩ (ih (h.stem_apart step.2))
  reach _ hK := h.take_reach hs hc ht hd hkid hin hK
  shed _ hy hy' _ hk := h.take_shed hs hc ht hd hy hy' hk
  ordered ho := ht.ordered (h.ordered ho)
  stands x y hy hst := ht.stands x y (fun hyF => hy (h.next_subset hyF)) (h.stands x y hy hst)
  stands_roots K hK x hx := by
    have hst := h.stands_roots K hK x hx
    rw [h.split, List.mem_append, List.mem_cons] at hK
    rcases hK with hK | rfl | hK
    · exact ht.stands x _
        (h.pre_apart hs hc (.inl (mem_idsAll.mpr ⟨K, hK, root_mem_ids K⟩))) hst
    · exact ht.stands_root x hst
    · exact ht.stands x _ (h.todo_apart hs hc (mem_idsAll.mpr ⟨K, hK, root_mem_ids K⟩)) hst
  stands_starts K hK := by
    obtain ⟨σ, hσ⟩ := ht.moves
    obtain ⟨t, htm, hst⟩ := h.stands_starts K hK
    obtain ⟨t', htm', -, hst'⟩ := h.take_start hs hc ht hσ htm
    exact ⟨t', htm', fun x hx => hst' x (hst x hx)⟩

end Take

end Opened

end Graft.HostTree
