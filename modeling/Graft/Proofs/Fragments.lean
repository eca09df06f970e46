import Graft.Proofs.Splicing

/-! # Fragments of a tree

A unit that is put in the place of some trees runs parts of them as fragments.  `Carves`
says which parts: going down from the roots, subtrees are left whole here and there.  What is
above them is the *stem*, the ops that the unit replaces.

A fragment is taken out by cutting its exits (`Linked.cut`); it stays a linked tree when links
to its start are turned to the unit (`Linked.turned_start`), since none of its own ops leads
back to its start.

What must be known of a stem is gathered here by induction over `Carves`, that is, from the roots
down to the fragments.  The kids of an op of the stem are ops of the stem or roots of fragments
(`Carves.kids`), so a stem is closed upwards and marking it does not reach a fragment that was
detached before.  From every op of the stem parents lead to the root of its tree by ops of the
stem (`Carves.rises`), which is what the climb of a replacement needs.  A tree starts in its stem
or where one of its fragments starts (`Carves.start`); in the second case the first op of the
range is that of a fragment, and the climb begins there.
-/

namespace Graft.HostTree

variable {g g' : Graph} {p cont : Option OpId} {t : HostTree} {ts fs : List HostTree}

/-! ### Turning the start, cutting the exits -/

/-- Below an op that is not a unit, the first kid holds the start and nothing else does. -/
theorem start_apart {id : OpId} {f : Face} {k : HostTree} {ks : List HostTree}
    (hn : (node id f (k :: ks)).ids.Nodup) :
    id ≠ k.start ∧ ∀ x ∈ idsAll ks, x ≠ k.start := by
  have start := start_mem_ids k
  simp only [ids_node, idsAll_cons, List.nodup_cons, List.nodup_append, List.mem_append,
    not_or] at hn
  refine ⟨fun h => hn.1.1 (h ▸ start), fun x hx h => ?_⟩
  exact hn.2.2.2 _ start x hx h.symm

/-- An op without kids is linked as the end of a row. -/
theorem Linked.row_of_leaf {id : OpId} {f : Face} (hu : f.kind.shape ≠ .unit)
    (h : Linked g (node id f []) cont) : f.kind.shape = .plain ∨ f.kind.shape = .listed := by
  cases hs : f.kind.shape with
  | plain => exact .inl rfl
  | listed => exact .inr rfl
  | unit => exact absurd hs hu
  | short =>
    obtain ⟨_, _, he, -⟩ := (linked_short hs).mp h
    cases he
  | choice =>
    obtain ⟨_, _, _, he, -⟩ := (linked_choice hs).mp h
    cases he

/-- **A linked tree stays linked when links to its start are turned.** -/
theorem Linked.turned_start {τ : Option OpId → Option OpId} (hnone : τ none = none)
    (hn : t.ids.Nodup) (hτ : ∀ x ∈ t.ids, x ≠ t.start → τ (some x) = some x)
    (hg : ∀ x ∈ t.ids, Turned g g' τ x) (h : Linked g t cont) : Linked g' t (τ cont) := by
  induction t using induction generalizing cont with
  | step id f ks ih =>
    have here := hg id (by simp)
    by_cases hu : f.kind.shape = .unit
    · -- the start is the unit itself; its fragments are left alone
      obtain ⟨op, ho, hf, hk, hnext, hr⟩ := (linked_unit hu).mp h
      obtain ⟨op', ho', hf', hk', hn', -⟩ := here op ho
      refine (linked_unit hu).mpr
        ⟨op', ho', hf'.trans hf, hk'.trans hk, by rw [hn', hnext], linkedEach_iff.mpr fun k hk => ?_⟩
      have kept := (linkedEach_iff.mp hr k hk).turned hnone
        (fun x hx => hτ x (by simp [mem_idsAll.mpr ⟨k, hk, hx⟩]) fun hs => ?_)
        fun x hx => hg x (by simp [mem_idsAll.mpr ⟨k, hk, hx⟩])
      · rwa [hnone] at kept
      · rw [start_unit hu] at hs
        exact (nodup_kids hn).1 (hs ▸ mem_idsAll.mpr ⟨k, hk, hx⟩)
    cases ks with
    | nil =>
      have row := h.row_of_leaf hu
      obtain ⟨op, ho, hf, hk, hnext, -⟩ := (linked_row row).mp h
      obtain ⟨op', ho', hf', hk', hn', -⟩ := here op ho
      exact (linked_row row).mpr
        ⟨op', ho', hf'.trans hf, hk'.trans hk, by rw [hn', hnext], trivial⟩
    | cons k ks =>
      -- only the first kid holds the start, so all other links are kept
      obtain ⟨idNe, restNe⟩ := start_apart hn
      rw [start_cons hu] at hτ
      have self : τ (some id) = some id := hτ id (by simp) idNe
      have rest : ∀ x ∈ idsAll ks, τ (some x) = some x := fun x hx =>
        hτ x (by simp [hx]) (restNe x hx)
      have restTurned : ∀ x ∈ idsAll ks, Turned g g' τ x := fun x hx => hg x (by simp [hx])
      have first : ∀ c, Linked g k c → Linked g' k (τ c) := fun c hc =>
        ih k (by simp) (nodup_of_mem (by simp) (nodup_kids hn).2)
          (fun x hx => hτ x (by simp [hx])) (fun x hx => hg x (by simp [hx])) hc
      have other : ∀ u ∈ ks, ∀ c, Linked g u c → Linked g' u (τ c) := fun u hu c hc =>
        hc.turned hnone (fun x hx => rest x (mem_idsAll.mpr ⟨u, hu, hx⟩))
          fun x hx => restTurned x (mem_idsAll.mpr ⟨u, hu, hx⟩)
      have starts : ∀ u ∈ ks, τ (some u.start) = some u.start := fun u hu =>
        rest _ (mem_idsAll.mpr ⟨u, hu, start_mem_ids u⟩)
      have rowCase : f.kind.shape = .plain ∨ f.kind.shape = .listed →
          Linked g' (node id f (k :: ks)) (τ cont) := by
        intro hs
        obtain ⟨op, ho, hf, hk, hnext, hfirst, hrest⟩ := (linked_row hs).mp h
        obtain ⟨op', ho', hf', hk', hn', -⟩ := here op ho
        have ends : τ (rowEnd f id cont) = rowEnd f id (τ cont) := by
          unfold rowEnd
          split
          · rfl
          · exact self
        have entry : entryOf ks (τ (rowEnd f id cont)) = τ (entryOf ks (rowEnd f id cont)) := by
          cases ks with
          | nil => rfl
          | cons u us => exact (starts u (by simp)).symm
        refine (linked_row hs).mpr
          ⟨op', ho', hf'.trans hf, hk'.trans hk, by rw [hn', hnext], ?_, ?_⟩
        · rw [← ends, entry]
          exact first _ hfirst
        · rw [← ends]
          exact hrest.turned hnone rest restTurned
      cases hs : f.kind.shape with
      | plain => exact rowCase (.inl hs)
      | listed => exact rowCase (.inr hs)
      | unit => exact absurd hs hu
      | short =>
        obtain ⟨l, r, he, op, ho, hf, hk, hnext, hother, hl, hr⟩ := (linked_short hs).mp h
        cases he
        obtain ⟨op', ho', hf', hk', hn', hother'⟩ := here op ho
        have left := first _ hl
        rw [self] at left
        exact (linked_short hs).mpr ⟨k, r, rfl, op', ho', hf'.trans hf, hk'.trans hk,
          by rw [hn', hnext], by rw [hother', hother, starts r (by simp)], left,
          other r (by simp) _ hr⟩
      | choice =>
        obtain ⟨c, y, n, he, op, ho, hf, hk, hnext, hother, hc, hy, hno⟩ := (linked_choice hs).mp h
        cases he
        obtain ⟨op', ho', hf', hk', hn', hother'⟩ := here op ho
        have condition := first _ hc
        rw [self] at condition
        exact (linked_choice hs).mpr ⟨k, y, n, rfl, op', ho', hf'.trans hf, hk'.trans hk,
          by rw [hn', hnext, starts n (by simp)], by rw [hother', hother, starts y (by simp)],
          condition, other y (by simp) _ hy, other n (by simp) _ hno⟩

/-- No list of statements is in the tree. -/
def Listless (t : HostTree) : Prop := ∀ s ∈ t.subtrees, s.shape ≠ .listed

theorem Listless.kid {k : HostTree} (h : Listless t) (hk : k ∈ t.kids) : Listless k :=
  fun s hs => h s (subtrees_trans hs (subtrees_of_kid hk))

/-- The op of that name is the same in both graphs, but leads nowhere if it is in `es`. -/
def CutAt (g g' : Graph) (es : List OpId) (x : OpId) : Prop :=
  ∀ op, g.op? x = some op → ∃ op', g'.op? x = some op' ∧ op'.face = op.face ∧
    op'.kids = op.kids ∧ op'.next = (if x ∈ es then none else op.next) ∧ op'.other = op.other

theorem CutAt.turned {es : List OpId} {x : OpId} (h : CutAt g g' es x) (hx : x ∉ es) :
    Turned g g' (fun c => c) x := by
  intro op ho
  obtain ⟨op', ho', hf, hkids, hnext, hother⟩ := h op ho
  rw [if_neg hx] at hnext
  exact ⟨op', ho', hf, hkids, hnext, hother⟩

/-- The test of `and` and `or` has no exit, and the rest has its own. -/
theorem exits_of_short {id : OpId} {f : Face} {l r : HostTree} (hs : f.kind.shape = .short)
    (hn : (node id f [l, r]).ids.Nodup) :
    (∀ x ∈ l.ids, x ∉ (node id f [l, r]).exits) ∧
      ∀ x ∈ r.ids, (x ∈ (node id f [l, r]).exits ↔ x ∈ r.exits) := by
  obtain ⟨hid, nodup⟩ := nodup_kids hn
  simp only [idsAll_cons, idsAll_nil, List.append_nil, List.mem_append, not_or] at hid
  simp only [idsAll_cons, idsAll_nil, List.append_nil, List.nodup_append] at nodup
  rw [exits_short hs]
  refine ⟨fun x hx hmem => ?_, fun x hx => ?_⟩
  · rcases List.mem_append.mp hmem with hmem | hmem
    · exact nodup.2.2 x hx x (exits_subset r hmem) rfl
    · exact hid.1 (List.mem_singleton.mp hmem ▸ hx)
  · rw [List.mem_append, List.mem_singleton]
    exact or_iff_left fun h => hid.2 (h ▸ hx)

/-- A conditional is left by its branches alone. -/
theorem exits_of_choice {id : OpId} {f : Face} {c y n : HostTree} (hs : f.kind.shape = .choice)
    (hn : (node id f [c, y, n]).ids.Nodup) :
    id ∉ (node id f [c, y, n]).exits ∧ (∀ x ∈ c.ids, x ∉ (node id f [c, y, n]).exits) ∧
      (∀ x ∈ y.ids, (x ∈ (node id f [c, y, n]).exits ↔ x ∈ y.exits)) ∧
      ∀ x ∈ n.ids, (x ∈ (node id f [c, y, n]).exits ↔ x ∈ n.exits) := by
  obtain ⟨hid, nodup⟩ := nodup_kids hn
  simp only [idsAll_cons, idsAll_nil, List.append_nil, List.mem_append, not_or] at hid
  simp only [idsAll_cons, idsAll_nil, List.append_nil, List.nodup_append, List.mem_append] at nodup
  obtain ⟨-, ⟨-, -, hyn⟩, hcyn⟩ := nodup
  simp only [exits_choice hs, List.mem_append, not_or]
  refine ⟨⟨fun hmem => hid.2.1 (exits_subset y hmem), fun hmem => hid.2.2 (exits_subset n hmem)⟩,
    fun x hx => ⟨fun hmem => ?_, fun hmem => ?_⟩, fun x hx => or_iff_left fun hmem => ?_,
    fun x hx => or_iff_right fun hmem => ?_⟩
  · exact hcyn x hx x (.inl (exits_subset y hmem)) rfl
  · exact hcyn x hx x (.inr (exits_subset n hmem)) rfl
  · exact hyn x hx x (exits_subset n hmem) rfl
  · exact hyn x (exits_subset y hmem) x hx rfl

/-- **A tree whose exits are cut leads nowhere.** -/
theorem Linked.cut (es : List OpId) (hl : Listless t) (hn : t.ids.Nodup)
    (he : ∀ x ∈ t.ids, (x ∈ es ↔ x ∈ t.exits)) (hg : ∀ x ∈ t.ids, CutAt g g' es x)
    (h : Linked g t cont) : Linked g' t none := by
  induction t using induction generalizing cont with
  | step id f ks ih =>
    have below : ∀ k ∈ ks, ∀ x ∈ k.ids, x ∈ (node id f ks).ids := fun k hk x hx => by
      simp [mem_idsAll.mpr ⟨k, hk, hx⟩]
    have apart : ∀ k ∈ ks, ∀ x ∈ k.ids, x ≠ id := fun k hk x hx h =>
      (nodup_kids hn).1 (h ▸ mem_idsAll.mpr ⟨k, hk, hx⟩)
    have uncut : ∀ x ∈ (node id f ks).ids, x ∉ (node id f ks).exits →
        Turned g g' (fun c => c) x := fun x hx hout =>
      (hg x hx).turned fun hes => hout ((he x hx).mp hes)
    -- a kid without exits of the tree is as it was, and one that is left by exits of the tree is cut
    have whole : ∀ k ∈ ks, ∀ c, (∀ x ∈ k.ids, x ∉ (node id f ks).exits) → Linked g k c →
        Linked g' k c := fun k hk c hout hc =>
      hc.turned (τ := fun c => c) rfl (fun _ _ => rfl) fun x hx =>
        uncut x (below k hk x hx) (hout x hx)
    have left : ∀ k ∈ ks, ∀ c, (∀ x ∈ k.ids, (x ∈ (node id f ks).exits ↔ x ∈ k.exits)) →
        Linked g k c → Linked g' k none := fun k hk c hexits hc =>
      ih k hk (hl.kid hk) (nodup_of_mem hk (nodup_kids hn).2)
        (fun x hx => (he x (below k hk x hx)).trans (hexits x hx))
        (fun x hx => hg x (below k hk x hx)) hc
    obtain ⟨op, ho, -, -⟩ := (reads_node.mp h.reads).1
    obtain ⟨op', ho', hf', hk', hn', hother'⟩ := hg id (by simp) op ho
    have idNext : id ∈ (node id f ks).exits → op'.next = none := fun hid => by
      rw [hn', if_pos ((he id (by simp)).mpr hid)]
    cases hs : f.kind.shape with
    | listed => exact absurd hs (hl _ (mem_subtrees_self _))
    | plain =>
      have exits : (node id f ks).exits = [id] := exits_single (by simp [hs]) (by simp [hs])
      rw [exits] at idNext uncut
      obtain ⟨op₀, ho₀, hf, hk, -, hr⟩ := (linked_plain hs).mp h
      obtain rfl : op = op₀ := Option.some.inj (ho.symm.trans ho₀)
      refine (linked_plain hs).mpr ⟨op', ho', hf'.trans hf, hk'.trans hk, idNext (by simp), ?_⟩
      refine hr.turned (τ := fun c => c) rfl (fun _ _ => rfl) fun x hx => ?_
      obtain ⟨k, hk, hxk⟩ := mem_idsAll.mp hx
      exact uncut x (below k hk x hxk) (by simpa using apart k hk x hxk)
    | unit =>
      have exits : (node id f ks).exits = [id] := exits_single (by simp [hs]) (by simp [hs])
      rw [exits] at idNext whole
      obtain ⟨op₀, ho₀, hf, hk, -, hr⟩ := (linked_unit hs).mp h
      obtain rfl : op = op₀ := Option.some.inj (ho.symm.trans ho₀)
      refine (linked_unit hs).mpr ⟨op', ho', hf'.trans hf, hk'.trans hk, idNext (by simp),
        linkedEach_iff.mpr fun k hk => ?_⟩
      exact whole k hk none (fun x hx => by simpa using apart k hk x hx)
        (linkedEach_iff.mp hr k hk)
    | short =>
      obtain ⟨l, r, rfl, op₀, ho₀, hf, hk, -, hother, hl, hr⟩ := (linked_short hs).mp h
      obtain rfl : op = op₀ := Option.some.inj (ho.symm.trans ho₀)
      obtain ⟨outside, inside⟩ := exits_of_short hs hn
      have test : Linked g' l (some id) := whole l (by simp) _ outside hl
      have right : Linked g' r none := left r (by simp) _ inside hr
      exact (linked_short hs).mpr ⟨l, r, rfl, op', ho', hf'.trans hf, hk'.trans hk,
        idNext (by simp [exits_short hs]), hother'.trans hother, test, right⟩
    | choice =>
      obtain ⟨c, y, n, rfl, op₀, ho₀, hf, hk, hnext, hother, hc, hy, hno⟩ :=
        (linked_choice hs).mp h
      obtain rfl : op = op₀ := Option.some.inj (ho.symm.trans ho₀)
      obtain ⟨idOut, outside, inYes, inNo⟩ := exits_of_choice hs hn
      have condition : Linked g' c (some id) := whole c (by simp) _ outside hc
      have yes : Linked g' y none := left y (by simp) _ inYes hy
      have no : Linked g' n none := left n (by simp) _ inNo hno
      refine (linked_choice hs).mpr ⟨c, y, n, rfl, op', ho', hf'.trans hf, hk'.trans hk, ?_,
        hother'.trans hother, condition, yes, no⟩
      rw [hn', if_neg fun hmem => idOut ((he id (by simp)).mp hmem), hnext]

/-! ### Standing parts of a standing row -/

/-- Each tree of a standing row stands. -/
theorem Standing.single (h : Standing g p cont ts) (ht : t ∈ ts) : ∃ c, Standing g p c [t] := by
  obtain ⟨as, bs, rfl⟩ := List.append_of_mem ht
  have sub : t.ids ⊆ idsAll (as ++ t :: bs) := ids_subset_idsAll ht
  have nodup := h.nodup
  rw [idsAll_append, idsAll_cons, List.nodup_append, List.nodup_append] at nodup
  have out : ∀ {x}, Outside g (as ++ t :: bs) x → Outside g [t] x := fun hx =>
    ⟨fun hmem => hx.1 (sub (by simpa using hmem)), hx.2⟩
  refine ⟨entryOf bs cont, ⟨(linkedRow_append.mp h.linked).2.1, trivial⟩,
    ⟨seatedAll_iff.mp h.seated t ht, trivial⟩, by simpa using nodup.2.1.1, fun c hc => ?_,
    fun q hq => out (h.parent_outside q hq), h.root_old, fun r hr u hu hru => ?_⟩
  · cases bs with
    | nil => exact out (h.cont_outside c hc)
    | cons b bs =>
      cases hc
      have hb : b.start ∈ idsAll (b :: bs) := by simp [start_mem_ids]
      refine ⟨fun hmem => nodup.2.1.2.2 b.start (by simpa using hmem) _ hb rfl, h.lt_size ?_⟩
      rw [idsAll_append, idsAll_cons]
      simp [start_mem_ids]
  · obtain rfl := List.mem_singleton.mp hu
    exact h.root_outside r hr u ht hru

/-- **The kids of a standing op stand below it.** -/
theorem Standing.kid {id : OpId} {f : Face} {ks : List HostTree} {k : HostTree}
    (h : Standing g p cont [node id f ks]) (hk : k ∈ ks) : ∃ c, Standing g (some id) c [k] := by
  obtain ⟨as, bs, rfl⟩ := List.append_of_mem hk
  have hN : Standing g p cont [node id f (as ++ [k] ++ bs)] := by simpa using h
  obtain ⟨idOut, inAs, inBs⟩ := hN.outside_segment
  have at_id : ∀ x, some id = some x → Outside g [k] x := fun x hx => by
    cases hx
    exact idOut
  have at_cont : ∀ x, cont = some x → Outside g [k] x := fun x => hN.cont_outside_segment
  cases hs : f.kind.shape with
  | unit =>
    obtain ⟨_, -, -, -, -, hr⟩ := (linked_unit hs).mp h.linked.1
    exact ⟨none, hN.segment ⟨linkedEach_iff.mp hr k hk, trivial⟩ fun _ hx => by cases hx⟩
  | plain =>
    obtain ⟨_, -, -, -, -, hr⟩ := (linked_plain hs).mp h.linked.1
    exact ⟨_, hN.segment ⟨(linkedRow_append.mp hr).2.1, trivial⟩ fun x hx =>
      hN.entryOf_outside (.inl rfl) hx⟩
  | listed =>
    obtain ⟨_, -, -, -, -, hr⟩ := (linked_listed hs).mp h.linked.1
    exact ⟨_, hN.segment ⟨(linkedRow_append.mp hr).2.1, trivial⟩ fun x hx =>
      hN.entryOf_outside (.inr rfl) hx⟩
  | short =>
    obtain ⟨l, r, he, _, -, -, -, -, -, hl, hr⟩ := (linked_short hs).mp h.linked.1
    rw [he, List.mem_cons, List.mem_singleton] at hk
    rcases hk with rfl | rfl
    · exact ⟨_, hN.segment ⟨hl, trivial⟩ at_id⟩
    · exact ⟨_, hN.segment ⟨hr, trivial⟩ at_cont⟩
  | choice =>
    obtain ⟨c, y, n, he, _, -, -, -, -, -, hc, hy, hno⟩ := (linked_choice hs).mp h.linked.1
    rw [he, List.mem_cons, List.mem_cons, List.mem_singleton] at hk
    rcases hk with rfl | rfl | rfl
    · exact ⟨_, hN.segment ⟨hc, trivial⟩ at_id⟩
    · exact ⟨_, hN.segment ⟨hy, trivial⟩ at_cont⟩
    · exact ⟨_, hN.segment ⟨hno, trivial⟩ at_cont⟩

/-! ### Stems and fragments -/

/-- Going down from the roots of `ts`, the trees `fs` are left whole. -/
inductive Carves : List HostTree → List HostTree → Prop where
  | nil : Carves [] []
  | whole {t : HostTree} {ts fs : List HostTree} : Carves ts fs → Carves (t :: ts) (t :: fs)
  | stem {id : OpId} {f : Face} {ks ts fs fs' : List HostTree} :
      Carves ks fs → Carves ts fs' → Carves (node id f ks :: ts) (fs ++ fs')

/-- An op of `ts` that is in none of the fragments. -/
def Stem (ts fs : List HostTree) (x : OpId) : Prop := x ∈ idsAll ts ∧ x ∉ idsAll fs

namespace Carves

theorem sublist (h : Carves ts fs) : (idsAll fs).Sublist (idsAll ts) := by
  induction h with
  | nil => exact .refl _
  | whole _ ih =>
    rw [idsAll_cons, idsAll_cons]
    exact (List.Sublist.refl _).append ih
  | stem _ _ ih ih' =>
    rw [idsAll_append, idsAll_cons, ids_node, List.cons_append]
    exact (ih.append ih').cons _

theorem append {ts' fs' : List HostTree} (h : Carves ts fs) (h' : Carves ts' fs') :
    Carves (ts ++ ts') (fs ++ fs') := by
  induction h with
  | nil => exact h'
  | whole _ ih => exact .whole ih
  | stem hc _ _ ih =>
    rw [List.append_assoc]
    exact .stem hc ih

end Carves

section Stem

variable {id x : OpId} {f : Face} {ks fs' : List HostTree}

theorem stem_whole_iff (hn : (idsAll (t :: ts)).Nodup) :
    Stem (t :: ts) (t :: fs) x ↔ Stem ts fs x := by
  rw [idsAll_cons, List.nodup_append] at hn
  unfold Stem
  rw [idsAll_cons, idsAll_cons, List.mem_append, List.mem_append, not_or]
  constructor
  · rintro ⟨hin, hout, hout'⟩
    exact ⟨hin.resolve_left hout, hout'⟩
  · rintro ⟨hin, hout⟩
    exact ⟨.inr hin, fun h => hn.2.2 x h x hin rfl, hout⟩

theorem stem_iff (hc : Carves ks fs) (hc' : Carves ts fs')
    (hn : (idsAll (node id f ks :: ts)).Nodup) :
    Stem (node id f ks :: ts) (fs ++ fs') x ↔ x = id ∨ Stem ks fs x ∨ Stem ts fs' x := by
  have inner := hc.sublist.subset
  have outer := hc'.sublist.subset
  rw [idsAll_cons, ids_node, List.cons_append, List.nodup_cons, List.mem_append, not_or,
    List.nodup_append] at hn
  obtain ⟨⟨hid, hid'⟩, -, -, hdisj⟩ := hn
  unfold Stem
  rw [idsAll_cons, ids_node, List.cons_append, List.mem_cons, List.mem_append, idsAll_append,
    List.mem_append, not_or]
  constructor
  · rintro ⟨rfl | hin | hin, hout, hout'⟩
    · exact .inl rfl
    · exact .inr (.inl ⟨hin, hout⟩)
    · exact .inr (.inr ⟨hin, hout'⟩)
  · rintro (rfl | ⟨hin, hout⟩ | ⟨hin, hout⟩)
    · exact ⟨.inl rfl, fun h => hid (inner h), fun h => hid' (outer h)⟩
    · exact ⟨.inr (.inl hin), hout, fun h => hdisj x hin x (outer h) rfl⟩
    · exact ⟨.inr (.inr hin), fun h => hdisj x (inner h) x hin rfl, hout⟩

theorem nodup_row (hn : (idsAll (node id f ks :: ts)).Nodup) :
    (idsAll ks).Nodup ∧ (idsAll ts).Nodup := by
  rw [idsAll_cons, List.nodup_append] at hn
  exact ⟨(nodup_kids hn.1).2, hn.2.1⟩

end Stem

namespace Carves

/-- A tree is one of the fragments, or its root is in the stem. -/
theorem root_mem (h : Carves ts fs) (hn : (idsAll ts).Nodup) (ht : t ∈ ts) :
    Stem ts fs t.root ∨ t.root ∈ fs.map root := by
  induction h with
  | nil => cases ht
  | @whole u ts fs _ ih =>
    rw [stem_whole_iff hn]
    rcases List.mem_cons.mp ht with rfl | ht
    · exact .inr (by simp)
    · exact (ih (List.nodup_append.mp (idsAll_cons u ts ▸ hn)).2.1 ht).imp_right fun h => by simp [h]
  | @stem id f ks ts fs fs' hc hc' _ ih' =>
    rw [stem_iff hc hc' hn, List.map_append, List.mem_append]
    rcases List.mem_cons.mp ht with rfl | ht
    · exact .inl (.inl rfl)
    · exact (ih' (nodup_row hn).2 ht).imp (fun h => .inr (.inr h)) .inr

/-- **A fragment stands below an op of the stem**, unless it is one of the trees. -/
theorem standing (h : Carves ts fs) (hn : (idsAll ts).Nodup)
    (hs : ∀ t ∈ ts, ∃ c, Standing g p c [t]) : ∀ F ∈ fs, F ∈ ts ∨
      ∃ t ∈ ts, F.ids ⊆ t.ids ∧
        ∃ d c, d ∈ t.ids ∧ Stem ts fs d ∧ g.Kid d F.root ∧ Standing g (some d) c [F] := by
  induction h generalizing p with
  | nil => simp
  | @whole t ts fs hc ih =>
    have beside := ih (List.nodup_append.mp (idsAll_cons t ts ▸ hn)).2.1
      fun u hu => hs u (by simp [hu])
    intro F hF
    rcases List.mem_cons.mp hF with rfl | hF
    · exact .inl (by simp)
    · rcases beside F hF with hmem | ⟨u, hu, hsub, d, c, hd, hstem, hkid, hst⟩
      · exact .inl (by simp [hmem])
      · exact .inr ⟨u, by simp [hu], hsub, d, c, hd, (stem_whole_iff hn).mpr hstem, hkid, hst⟩
  | @stem id f ks ts fs fs' hc hc' ih ih' =>
    have stem := fun x => stem_iff (x := x) hc hc' hn
    obtain ⟨hks, hts⟩ := nodup_row hn
    obtain ⟨c, hN⟩ := hs (node id f ks) (by simp)
    obtain ⟨op, ho, -, hkids⟩ := (reads_node.mp hN.linked.1.reads).1
    have below := ih hks fun k hk => hN.kid hk
    have beside := ih' hts fun u hu => hs u (by simp [hu])
    have sub : ∀ k ∈ ks, k.ids ⊆ (node id f ks).ids := fun k hk =>
      ids_subset (subtrees_of_kid (t := node id f ks) hk)
    intro F hF
    rcases List.mem_append.mp hF with hF | hF
    · rcases below F hF with hmem | ⟨k, hk, hsub, d, c, hd, hstem, hkid, hst⟩
      · obtain ⟨c, hst⟩ := hN.kid hmem
        exact .inr ⟨_, by simp, sub F hmem, id, c, by simp, (stem id).mpr (.inl rfl),
          ⟨op, ho, hkids ▸ List.mem_map_of_mem hmem⟩, hst⟩
      · exact .inr ⟨_, by simp, fun x hx => sub k hk (hsub hx), d, c, sub k hk hd,
          (stem d).mpr (.inr (.inl hstem)), hkid, hst⟩
    · rcases beside F hF with hmem | ⟨u, hu, hsub, d, c, hd, hstem, hkid, hst⟩
      · exact .inl (by simp [hmem])
      · exact .inr ⟨u, by simp [hu], hsub, d, c, hd, (stem d).mpr (.inr (.inr hstem)), hkid,
          hst⟩

/-- **From every op of the stem parents lead to the root of its tree**, by ops of the stem. -/
theorem rises (h : Carves ts fs) (hn : (idsAll ts).Nodup) {D : OpId → Prop}
    (hD : ∀ x, Stem ts fs x → D x) (hr : ∀ t ∈ ts, Reads g t)
    (hs : ∀ t ∈ ts, ∃ q, Seated g q t) :
    ∀ t ∈ ts, ∀ x ∈ t.ids, x ∉ idsAll fs → g.Rises D x t.root := by
  induction h with
  | nil => simp
  | @whole t ts fs hc ih =>
    intro u hu x hx hout
    rw [idsAll_cons, List.mem_append, not_or] at hout
    rcases List.mem_cons.mp hu with rfl | hu
    · exact absurd hx hout.1
    · exact ih (List.nodup_append.mp (idsAll_cons t ts ▸ hn)).2.1
        (fun y hy => hD y ((stem_whole_iff hn).mpr hy)) (fun u hu => hr u (by simp [hu]))
        (fun u hu => hs u (by simp [hu])) u hu x hx hout.2
  | @stem id f ks ts fs fs' hc hc' ih ih' =>
    have stem := fun x => stem_iff (x := x) hc hc' hn
    obtain ⟨hks, hts⟩ := nodup_row hn
    obtain ⟨⟨op, ho, -, -⟩, reads⟩ := reads_node.mp (hr (node id f ks) (by simp))
    obtain ⟨q, seated⟩ := hs (node id f ks) (by simp)
    have seatedKids := (seated_node.mp seated).2
    intro u hu x hx hout
    rw [idsAll_append, List.mem_append, not_or] at hout
    rcases List.mem_cons.mp hu with rfl | hu
    · rw [ids_node, List.mem_cons, mem_idsAll] at hx
      rcases hx with rfl | ⟨k, hk, hx⟩
      · exact .refl
      · have up := ih hks (fun y hy => hD y ((stem y).mpr (.inr (.inl hy)))) reads
          (fun k hk => ⟨_, seatedKids k hk⟩) k hk x hx hout.1
        obtain ⟨o, hok⟩ := Graph.exists_op? ((reads k hk).lt_size (root_mem_ids k))
        have parent : o.parent = some id := by
          cases k with
          | node id' f' ks' => exact ((seated_node.mp (seatedKids _ hk)).1 o hok).1
        exact .tail up ⟨⟨o, hok, parent⟩, hD id ((stem id).mpr (.inl rfl))⟩
    · exact ih' hts (fun y hy => hD y ((stem y).mpr (.inr (.inr hy))))
        (fun u hu => hr u (by simp [hu])) (fun u hu => hs u (by simp [hu])) u hu x hx hout.2

/-- **The kids of an op of the stem** are ops of the stem, or roots of fragments. -/
theorem kids (h : Carves ts fs) (hn : (idsAll ts).Nodup) (hr : ∀ t ∈ ts, Reads g t) {x k : OpId}
    (hx : Stem ts fs x) (hk : g.Kid x k) : Stem ts fs k ∨ k ∈ fs.map root := by
  induction h with
  | nil => exact absurd hx.1 (by simp)
  | @whole t ts fs hc ih =>
    rw [stem_whole_iff hn] at hx ⊢
    exact (ih (List.nodup_append.mp (idsAll_cons t ts ▸ hn)).2.1 (fun u hu => hr u (by simp [hu]))
      hx).imp_right fun h => by simp [h]
  | @stem id f ks ts fs fs' hc hc' ih ih' =>
    obtain ⟨hks, hts⟩ := nodup_row hn
    obtain ⟨⟨op, ho, -, hkids⟩, reads⟩ := reads_node.mp (hr (node id f ks) (by simp))
    rw [stem_iff hc hc' hn] at hx ⊢
    rw [List.map_append, List.mem_append]
    rcases hx with rfl | hx | hx
    · -- the kids of the op itself
      obtain ⟨op', ho', hmem⟩ := hk
      obtain rfl : op = op' := Option.some.inj (ho.symm.trans ho')
      rw [hkids] at hmem
      obtain ⟨u, hu, rfl⟩ := List.mem_map.mp hmem
      exact (hc.root_mem hks hu).imp (fun h => .inr (.inl h)) .inl
    · exact (ih hks reads hx).imp (fun h => .inr (.inl h)) .inl
    · exact (ih' hts (fun u hu => hr u (by simp [hu])) hx).imp (fun h => .inr (.inr h)) .inr

/-- **A tree starts in the stem, or where a fragment starts.** -/
theorem start (h : Carves ts fs) (hn : (idsAll ts).Nodup)
    (hu : ∀ s ∈ subtreesAll ts, s.shape ≠ .unit) (ht : t ∈ ts) :
    Stem ts fs t.start ∨ ∃ F ∈ fs, F.start = t.start := by
  induction h generalizing t with
  | nil => cases ht
  | @whole u ts fs hc ih =>
    rw [stem_whole_iff hn]
    rcases List.mem_cons.mp ht with rfl | ht
    · exact .inr ⟨t, by simp, rfl⟩
    · refine (ih (List.nodup_append.mp (idsAll_cons u ts ▸ hn)).2.1 (fun s hs => hu s ?_) ht).imp_right ?_
      · rw [mem_subtreesAll] at hs ⊢
        obtain ⟨v, hv, hs⟩ := hs
        exact ⟨v, by simp [hv], hs⟩
      · rintro ⟨F, hF, he⟩
        exact ⟨F, by simp [hF], he⟩
  | @stem id f ks ts fs fs' hc hc' ih ih' =>
    obtain ⟨hks, hts⟩ := nodup_row hn
    rw [stem_iff hc hc' hn]
    have inside : ∀ s ∈ (node id f ks).subtrees, s.shape ≠ .unit := fun s hs =>
      hu s (mem_subtreesAll.mpr ⟨_, by simp, hs⟩)
    rcases List.mem_cons.mp ht with rfl | ht
    · cases ks with
      | nil => exact .inl (.inl start_leaf)
      | cons k ks =>
        have notUnit : f.kind.shape ≠ .unit := inside _ (mem_subtrees_self _)
        rw [start_cons notUnit]
        refine (ih hks (fun s hs => inside s ?_) (by simp)).imp (fun h => .inr (.inl h)) ?_
        · obtain ⟨v, hv, hs⟩ := mem_subtreesAll.mp hs
          exact mem_subtrees_iff.mpr (.inr ⟨v, hv, hs⟩)
        · rintro ⟨F, hF, he⟩
          exact ⟨F, by simp [hF], he⟩
    · refine (ih' hts (fun s hs => hu s ?_) ht).imp (fun h => .inr (.inr h)) ?_
      · rw [mem_subtreesAll] at hs ⊢
        obtain ⟨v, hv, hs⟩ := hs
        exact ⟨v, by simp [hv], hs⟩
      · rintro ⟨F, hF, he⟩
        exact ⟨F, by simp [hF], he⟩

end Carves

end Graft.HostTree
