import Graft.Proofs.RecordedParents

/-! # A unit in the place of siblings

A graph has been built op by op and linked, and nothing has been edited yet.  Siblings that follow
each other are to be replaced by a unit without fragments.  The edit finds them from their start, by
the parents that ops record, and an op that was added after the one that lists it has recorded none.
So the replacement does what it should exactly if the siblings can be found that way
(`Graph.Found`): then the unit takes their place in the tree and in the flow of control, the ops of
the siblings are dead and out of reach, and all other ops are as they were (`Graph.Spliced`).

That nothing of the siblings can be reached follows from where control enters them: a part of a
row is entered at its start only, and so is every subtree (`HostTree.Standing.enters`).  It is seen
in the graph in which every op names the op that lists it (`Graph.reseated`), and it is about links,
which are the same there.

The other direction reads the parent and the place of the unit back from the graph that is left.
The unit has the parent that the last sibling names, and it stands in that parent's list where the
climb from the start has ended; so these had to be what the siblings need.

Where siblings cannot be found the edit need not fail.  A last operand that names no parent is
replaced at the root, where there is no list to look in, and the operator keeps a dead operand
(`Graph.replace_forward_operand`).
-/

namespace Graft

open HostTree

/-! ### Where control enters -/

namespace HostTree

variable {g : Graph} {p cont : Option OpId} {x y : OpId}

/-- A subtree that holds the start of its tree starts there. -/
theorem start_eq_of_mem {s t : HostTree} (hs : s ∈ t.subtrees) (hn : t.ids.Nodup)
    (hx : t.start ∈ s.ids) : s.start = t.start := by
  induction t using induction with
  | step id f ks ih =>
    rcases mem_subtrees_iff.mp hs with rfl | ⟨k, hk, hsk⟩
    · rfl
    · obtain ⟨hid, hkids⟩ := nodup_kids hn
      have below : ∀ {z}, z ∈ s.ids → z ∈ k.ids := fun hz => ids_subset hsk hz
      by_cases hu : f.kind.shape = .unit
      · rw [start_unit hu] at hx
        exact absurd (mem_idsAll.mpr ⟨k, hk, below hx⟩) hid
      · cases ks with
        | nil => cases hk
        | cons k₀ ks =>
          rw [start_cons hu] at hx ⊢
          obtain rfl : k = k₀ := eq_of_mem_ids hkids hk (by simp) (below hx) (start_mem_ids k₀)
          exact ih k hk hsk (nodup_of_mem hk hkids) hx

/-- Control comes to a part of a row from the rest of the row only at the start of the part. -/
theorem LinkedRow.enters {as ks bs : List HostTree} (h : LinkedRow g (as ++ ks ++ bs) cont)
    (hs : SeatedAll g p (as ++ ks ++ bs)) (hn : (idsAll (as ++ ks ++ bs)).Nodup)
    (hc : ∀ c, cont = some c → c ∉ idsAll ks) (hx : x ∈ idsAll as ∨ x ∈ idsAll bs)
    (hxy : g.Leads x y) (hy : y ∈ idsAll ks) : entryOf ks none = some y := by
  rw [List.append_assoc] at h hs hn
  obtain ⟨left, right⟩ := linkedRow_append.mp h
  obtain ⟨-, after⟩ := linkedRow_append.mp right
  rw [idsAll_append, idsAll_append, List.nodup_append, List.nodup_append] at hn
  obtain ⟨-, ⟨-, -, apartAfter⟩, apartBefore⟩ := hn
  have seated := seatedAll_iff.mp hs
  have notBefore : y ∉ idsAll as := fun hy' => apartBefore y hy' y (by simp [hy]) rfl
  have notAfter : y ∉ idsAll bs := fun hy' => apartAfter y hy y hy' rfl
  rcases hx with hx | hx
  · obtain ⟨a, ha, hx⟩ := mem_idsAll.mp hx
    obtain ⟨c, hl, hc'⟩ := left.mem ha
    rcases hl.leads (seated a (by simp [ha])) hx hxy with hy' | rfl
    · exact absurd (mem_idsAll.mpr ⟨a, ha, hy'⟩) notBefore
    · rcases hc' with hc' | ⟨u, hu, hc'⟩
      · cases ks with
        | nil => cases hy
        | cons k ks => exact hc'.symm
      · cases hc'
        exact absurd (mem_idsAll.mpr ⟨u, hu, start_mem_ids u⟩) notBefore
  · obtain ⟨b, hb, hx⟩ := mem_idsAll.mp hx
    obtain ⟨c, hl, hc'⟩ := after.mem hb
    rcases hl.leads (seated b (by simp [hb])) hx hxy with hy' | rfl
    · exact absurd (mem_idsAll.mpr ⟨b, hb, hy'⟩) notAfter
    · rcases hc' with hc' | ⟨u, hu, hc'⟩
      · exact absurd hy (hc y hc'.symm)
      · cases hc'
        exact absurd (mem_idsAll.mpr ⟨u, hu, start_mem_ids u⟩) notAfter

namespace Standing

variable {id : OpId} {f : Face} {as ks bs : List HostTree}

/-- Control comes to a kid from the rest of its op only at the start of the kid. -/
theorem enters_kid {k : HostTree} (h : Standing g p cont [node id f ks]) (hk : k ∈ ks)
    (hx : x ∈ (node id f ks).ids) (hout : x ∉ k.ids) (hxy : g.Leads x y) (hy : y ∈ k.ids) :
    y = k.start := by
  have nodup : (node id f ks).ids.Nodup := by simpa using h.nodup
  obtain ⟨hid, hkids⟩ := nodup_kids nodup
  have hyAll : y ∈ idsAll ks := mem_idsAll.mpr ⟨k, hk, hy⟩
  have notCont : cont ≠ some y := fun hc => (h.cont_outside y hc).1 (by simp [hyAll])
  have starts : ∀ v ∈ ks, y = v.start → y = k.start := by
    rintro v hv rfl
    rw [eq_of_mem_ids hkids hv hk (start_mem_ids v) hy]
  rw [ids_node, List.mem_cons, mem_idsAll] at hx
  rcases hx with rfl | ⟨u, hu, hx⟩
  · rcases h.linked.1.root_leads h.seated.1 hxy with hc | ⟨v, hv, hyv⟩
    · exact absurd hc notCont
    · exact starts v hv hyv
  · obtain ⟨c, hl, hc⟩ := h.linked.1.kid hu
    rcases hl.leads ((seated_node.mp h.seated.1).2 u hu) hx hxy with hy' | hy'
    · exact absurd (eq_of_mem_ids hkids hu hk hy' hy ▸ hx) hout
    · rcases hc y hy' with rfl | hc | ⟨v, hv, hyv⟩
      · exact absurd hyAll hid
      · exact absurd hc notCont
      · exact starts v hv hyv

/-- Control comes to some kids of an op from the rest of the op only at their start: to any part
of a row, and to a single kid of an op that chooses. -/
theorem enters_kids (h : Standing g p cont [node id f (as ++ ks ++ bs)])
    (hks : (f.kind.shape = .plain ∨ f.kind.shape = .listed) ∨ ∃ k, ks = [k])
    (hx : x ∈ (node id f (as ++ ks ++ bs)).ids) (hout : x ∉ idsAll ks) (hxy : g.Leads x y)
    (hy : y ∈ idsAll ks) : entryOf ks none = some y := by
  obtain ⟨idOut, -, -⟩ := h.outside_segment
  rcases hks with hrow | ⟨k, rfl⟩
  · obtain ⟨op, ho, -, -, hnext, row⟩ := (linked_row hrow).mp h.linked.1
    have nodup : (node id f (as ++ ks ++ bs)).ids.Nodup := by simpa using h.nodup
    have notCont : cont ≠ some y := fun hc => (h.cont_outside_segment hc).1 hy
    have ends : ∀ c, rowEnd f id cont = some c → c ∉ idsAll ks := by
      intro c hc
      rcases rowEnd_cases f id cont with he | he
      · obtain rfl := Option.some.inj (he.symm.trans hc)
        exact idOut.1
      · exact (h.cont_outside_segment (he.symm.trans hc)).1
    rw [ids_node, List.mem_cons, idsAll_append, idsAll_append, List.mem_append, List.mem_append,
      or_right_comm] at hx
    rcases hx with rfl | hx | hx
    · -- an op of a row leads only to where it ends
      obtain ⟨op', ho', hlink⟩ := hxy
      obtain rfl : op = op' := Option.some.inj (ho.symm.trans ho')
      have straight := ((seated_node.mp h.seated.1).1 op ho).2.2
      rw [straight (by rcases hrow with hs | hs <;> simp [hs])
        (by rcases hrow with hs | hs <;> simp [hs]), hnext] at hlink
      exact absurd (hlink.resolve_right (by simp)) notCont
    · exact row.enters (seatedAll_iff.mpr (seated_node.mp h.seated.1).2) (nodup_kids nodup).2 ends
        hx hxy hy
    · exact absurd hx hout
  · have hy' : y ∈ k.ids := by simpa using hy
    exact congrArg some (h.enters_kid (by simp) hx (by simpa using hout) hxy hy').symm

/-- **Control comes to a subtree from the rest of the tree only at the start of the subtree.** -/
theorem enters_subtree {s T : HostTree} (h : Standing g p cont [T]) (hs : s ∈ T.subtrees)
    (hx : x ∈ T.ids) (hout : x ∉ s.ids) (hxy : g.Leads x y) (hy : y ∈ s.ids) : y = s.start := by
  induction T using induction generalizing p cont with
  | step id f ks ih =>
    rcases mem_subtrees_iff.mp hs with rfl | ⟨k, hk, hs⟩
    · exact absurd hx hout
    · obtain ⟨c, below⟩ := h.kid hk
      by_cases hxk : x ∈ k.ids
      · exact ih k hk below hs hxk
      · obtain rfl := h.enters_kid hk hx hxk hxy (ids_subset hs hy)
        have nodup : k.ids.Nodup := by simpa using below.nodup
        exact (start_eq_of_mem hs nodup hy).symm

/-- Kids that hold the start of their op start there. -/
theorem entryOf_of_start_mem (h : Standing g p cont [node id f (as ++ ks ++ bs)])
    (hu : f.kind.shape ≠ .unit) (hy : (node id f (as ++ ks ++ bs)).start ∈ idsAll ks) :
    entryOf ks none = some (node id f (as ++ ks ++ bs)).start := by
  obtain ⟨-, before, -⟩ := h.outside_segment
  cases as with
  | cons a as =>
    rw [List.cons_append, List.cons_append, start_cons hu] at hy
    exact absurd hy (before _ (by simp [start_mem_ids])).1
  | nil =>
    cases ks with
    | nil => cases hy
    | cons k ks =>
      rw [List.nil_append, List.cons_append, start_cons hu]
      rfl

/-- **Control comes to siblings from the rest of the tree only at their start.** -/
theorem enters {T : HostTree} (h : Standing g p cont [T])
    (hs : node id f (as ++ ks ++ bs) ∈ T.subtrees) (hu : f.kind.shape ≠ .unit)
    (hks : (f.kind.shape = .plain ∨ f.kind.shape = .listed) ∨ ∃ k, ks = [k])
    (hx : x ∈ T.ids) (hout : x ∉ idsAll ks) (hxy : g.Leads x y) (hy : y ∈ idsAll ks) :
    entryOf ks none = some y := by
  obtain ⟨q, c, standing⟩ := h.subtree hs
  by_cases hxs : x ∈ (node id f (as ++ ks ++ bs)).ids
  · exact standing.enters_kids hks hxs hout hxy hy
  · -- the op itself is entered at its start
    obtain rfl := h.enters_subtree hs hx hxs hxy (by simp [hy])
    exact standing.entryOf_of_start_mem hu hy

end Standing

/-- Control comes to the row only at its start, be it from the rest of the tree or from outside. -/
structure Gated (g : Graph) (T : HostTree) (ks : List HostTree) : Prop where
  start : T.start ∈ idsAll ks → entryOf ks none = some T.start
  leads : ∀ x y, x ∈ T.ids → x ∉ idsAll ks → g.Leads x y → y ∈ idsAll ks →
    entryOf ks none = some y

/-! ### Replacing -/

/-- An op that does not choose between branches continues where its tree does. -/
theorem Linked.root_next {t : HostTree} (h : Linked g t cont) (hs : t.shape ≠ .choice) :
    ∃ op, g.op? t.root = some op ∧ op.next = cont := by
  cases t with
  | node id f ks =>
    cases hshape : f.kind.shape with
    | plain =>
      obtain ⟨op, ho, -, -, hn, -⟩ := (linked_plain hshape).mp h
      exact ⟨op, ho, hn⟩
    | listed =>
      obtain ⟨op, ho, -, -, hn, -⟩ := (linked_listed hshape).mp h
      exact ⟨op, ho, hn⟩
    | unit =>
      obtain ⟨op, ho, -, -, hn, -⟩ := (linked_unit hshape).mp h
      exact ⟨op, ho, hn⟩
    | short =>
      obtain ⟨l, r, -, op, ho, -, -, hn, -⟩ := (linked_short hshape).mp h
      exact ⟨op, ho, hn⟩
    | choice => exact absurd hshape hs

end HostTree

namespace Graph

/-- The siblings are below the op `p` in the tree of `root`, between others; of an op that
chooses they are a single kid.  Without `p` they are the root alone. -/
def Siblings (g : Graph) (root : OpId) (p : Option OpId) (pre seg post : List OpId) : Prop :=
  match p with
  | none => pre = [] ∧ seg = [root] ∧ post = []
  | some q => Relation.ReflTransGen g.Kid root q ∧ ∃ op, g.op? q = some op ∧
      op.kids = pre ++ seg ++ post ∧
      (seg.length = 1 ∨ op.kind ≠ .and ∧ op.kind ≠ .or ∧ op.kind ≠ .cond)

/-- An op of the siblings, or below them. -/
def Below (g : Graph) (seg : List OpId) (x : OpId) : Prop :=
  ∃ r ∈ seg, Relation.ReflTransGen g.Kid r x

/-- **The unit `new` has taken the place of siblings** that began at `first` and continued at
`next`. -/
structure Spliced (g g' : Graph) (p : Option OpId) (pre seg post : List OpId) (first : OpId)
    (next : Option OpId) (unit : CompiledUnit) (new : OpId) : Prop where
  /-- The unit is a new op below the same parent, and continues where they did. -/
  fresh : g.op? new = none
  unit : g'.op? new = some { kind := .native unit, next := next, parent := p }
  root : g'.root = if p = none then some new else g.root
  entry : g'.entry = g.entry.map (turn first new)
  /-- The parent lists the unit, and links to `first` lead to it; nothing else is changed. -/
  rest : ∀ x op, ¬ g.Below seg x → g.op? x = some op → g'.op? x = some { op with
    next := op.next.map (turn first new)
    other := op.other.map (turn first new)
    kids := if some x = p then pre ++ new :: post else op.kids }
  dead : ∀ x, g.Below seg x → ∃ op, g'.op? x = some op ∧ op.state = .dead
  unreached : ∀ entry x, g'.entry = some entry → Relation.ReflTransGen g'.Leads entry x →
    ¬ g.Below seg x

/-- **The siblings can be found from their start**: parents lead from there to the first of them,
and both ends name the op that lists them. -/
structure Found (g : Graph) (p : Option OpId) (first k l : OpId) : Prop where
  climb : Relation.ReflTransGen g.Up first k
  front : ∃ op, g.op? k = some op ∧ op.parent = p
  back : ∃ op, g.op? l = some op ∧ op.parent = p

variable {g g' : Graph} {T : HostTree} {p next : Option OpId} {unit : CompiledUnit}
  {pre post : List OpId} {ks : List HostTree} {k l : HostTree}

theorem below_iff {ks : List HostTree} (hr : ∀ t ∈ ks, Reads g t) {x : OpId} :
    g.Below (ks.map HostTree.root) x ↔ x ∈ idsAll ks := by
  constructor
  · rintro ⟨r, hr', path⟩
    obtain ⟨t, ht, rfl⟩ := List.mem_map.mp hr'
    refine mem_idsAll.mpr ⟨t, ht, ?_⟩
    induction path with
    | refl => exact root_mem_ids t
    | tail _ step ih => exact (hr t ht).kid_mem ih step
  · intro hx
    obtain ⟨t, ht, hx⟩ := mem_idsAll.mp hx
    exact ⟨t.root, List.mem_map_of_mem ht, Graph.reaches_of_mem_ids (hr t ht) hx⟩

/-- The op kinds whose kids may be replaced several at a time. -/
theorem row_of_kind {k : OpKind} (hu : k.shape ≠ .unit)
    (h : k ≠ .and ∧ k ≠ .or ∧ k ≠ .cond) : k.shape = .plain ∨ k.shape = .listed := by
  obtain ⟨h₁, h₂, h₃⟩ := h
  cases k <;> simp_all [OpKind.shape]

theorem shape_ne_choice {k : OpKind} (h : k ≠ .cond) : k.shape ≠ .choice := by
  cases k <;> simp_all [OpKind.shape]

/-! ### Siblings as rows of trees -/

/-- Siblings of a program that stands in the graph are trees of it, which control enters at their
start. -/
theorem Siblings.trees {seg : List OpId} (h : g.Siblings T.root p pre seg post)
    (standing : HostTree.Standing g none none [T]) (hi : Interpreted g) :
    ∃ ks c, seg = ks.map HostTree.root ∧ HostTree.Standing g p c ks ∧ idsAll ks ⊆ T.ids ∧
      (∀ k l, ks.head? = some k → ks.getLast? = some l → g.Range p k.root l.root pre seg post) ∧
      Gated g T ks := by
  have reads := standing.linked.1.reads
  cases p with
  | none =>
    obtain ⟨-, rfl, -⟩ := h
    refine ⟨[T], none, rfl, standing, by simp, fun k l hk hl => ?_, fun _ => rfl,
      fun x y hx hout => absurd (by simpa using hx) hout⟩
    cases hk
    cases hl
    exact ⟨rfl, rfl⟩
  | some q =>
    obtain ⟨path, op, ho, hkids, hkind⟩ := h
    have hq : q ∈ T.ids := by
      have below : g.Below ([T].map HostTree.root) q := ⟨T.root, by simp, path⟩
      simpa using (below_iff (by simpa using reads)).mp below
    obtain ⟨s, hs, rfl⟩ := mem_ids.mp hq
    cases s with
    | node id f kids =>
      obtain ⟨op', ho', hface, hk⟩ := reads _ hs
      obtain rfl : op = op' := Option.some.inj (ho.symm.trans ho')
      have notUnit : f.kind.shape ≠ .unit := by
        have := hi id op ho
        rwa [← show op.face = f from hface]
      -- the kids of the op, cut where the siblings begin and end
      obtain ⟨before, bs, hsplit, hbefore, rfl⟩ := List.map_eq_append_iff.mp (hk.symm.trans hkids)
      obtain ⟨as, ks, rfl, rfl, rfl⟩ := List.map_eq_append_iff.mp hbefore
      subst hsplit
      obtain ⟨up, c₀, node⟩ := standing.subtree hs
      have shape : (f.kind.shape = .plain ∨ f.kind.shape = .listed) ∨ ∃ k, ks = [k] := by
        rcases hkind with hone | hkind
        · rw [List.length_map, List.length_eq_one_iff] at hone
          exact .inr hone
        · rw [show op.kind = f.kind from congrArg Face.kind hface] at hkind
          exact .inl (row_of_kind notUnit hkind)
      obtain ⟨c, row⟩ : ∃ c, HostTree.Standing g (some id) c ks := by
        rcases shape with hrow | ⟨k, rfl⟩
        · exact ⟨_, (node.row hrow).2.1⟩
        · exact node.kid (by simp)
      refine ⟨ks, c, rfl, row, fun x hx => ?_, fun k l hk hl => ?_, fun hstart => ?_,
        fun x y hx hout hxy hy => ?_⟩
      · exact ids_subset hs (by simp [hx])
      · refine ⟨op, ho, node.kids_nodup (by simp) ho, hkids, ?_, ?_⟩
        · rw [List.head?_map, hk]
          rfl
        · rw [List.getLast?_map, hl]
          rfl
      · have nodup : T.ids.Nodup := by simpa using standing.nodup
        have same := start_eq_of_mem hs nodup (by simp [hstart])
        rw [← same] at hstart ⊢
        exact node.entryOf_of_start_mem notUnit hstart
      · exact standing.enters hs notUnit shape hx hout hxy hy

/-- **The trees `ks` of `T` are siblings below `p`**, from `k` to `l`.  Control enters them at their
start only, and leaves them to `next`. -/
structure Row (g : Graph) (T : HostTree) (p next : Option OpId) (pre post : List OpId)
    (ks : List HostTree) (k l : HostTree) : Prop where
  first : ks.head? = some k
  last : ks.getLast? = some l
  reads : ∀ t ∈ ks, Reads g t
  nodup : (idsAll ks).Nodup
  inside : idsAll ks ⊆ T.ids
  parent_outside : ∀ q, p = some q → q ∉ idsAll ks
  range : g.Range p k.root l.root pre (ks.map HostTree.root) post
  listed : ∀ q, p = some q → q ∈ T.ids
  top : p = none → T.root = l.root
  exit : ∃ op, g.op? l.root = some op ∧ op.next = next
  next_outside : ∀ y, next = some y → y ∉ idsAll ks
  gated : Gated g T ks

/-- The last tree of a standing row is left to where the row continues. -/
theorem next_of_last {c : Option OpId} {op : Op} (h : HostTree.Standing g p c ks)
    (hlast : ks.getLast? = some l) (hexit : l.shape ≠ .choice) (ho : g.op? l.root = some op) :
    op.next = c := by
  obtain ⟨us, rfl⟩ := List.getLast?_eq_some_iff.mp hlast
  obtain ⟨op', ho', hn⟩ := (linkedRow_append.mp h.linked).2.1.root_next hexit
  obtain rfl : op = op' := Option.some.inj (ho.symm.trans ho')
  exact hn

theorem Siblings.reseated {r : OpId} {seg : List OpId} (h : g.Siblings r p pre seg post) :
    (g.reseated T).Siblings r p pre seg post := by
  cases p with
  | none => exact h
  | some q =>
    obtain ⟨path, op, ho, hkids, hkind⟩ := h
    refine ⟨?_, { op with parent := T.parentIn q }, by rw [op?_reseated, ho]; rfl, hkids, hkind⟩
    exact path.lift id fun a b hab => kid_reseated.mpr hab

/-- **Siblings of a tree that has just been linked are a row of its trees.**  What control does is
seen in the graph with the parents of the tree, which has the same links. -/
theorem Siblings.row {seg : List OpId} {first last : OpId} {lastOp : Op}
    (h : g.Siblings T.root p pre seg post) (hf : Fresh g T) (hfirst : seg.head? = some first)
    (hlast : seg.getLast? = some last) (hop : g.op? last = some lastOp)
    (hexit : lastOp.kind ≠ .cond) :
    ∃ ks k l, seg = ks.map HostTree.root ∧ k.root = first ∧ l.root = last ∧
      Row g T p lastOp.next pre post ks k l := by
  have interpreted : Interpreted (g.reseated T) := by
    intro x op' ho'
    rw [op?_reseated] at ho'
    obtain ⟨op, ho, rfl⟩ := Option.map_eq_some_iff.mp ho'
    exact hf.unedited.interpreted x op ho
  obtain ⟨ks, c, rfl, row, hsub, hrange, hgate⟩ := h.reseated.trees hf.standing interpreted
  rw [List.head?_map, Option.map_eq_some_iff] at hfirst
  rw [List.getLast?_map, Option.map_eq_some_iff] at hlast
  obtain ⟨k, hfirst, rfl⟩ := hfirst
  obtain ⟨l, hlast, rfl⟩ := hlast
  have reads : ∀ t ∈ ks, Reads g t := fun t ht => reads_reseated (row.reads ht)
  have exit : l.shape ≠ .choice := by
    obtain ⟨op, ho, hface, -⟩ := reads l (List.mem_of_getLast? hlast) l (mem_subtrees_self l)
    obtain rfl : lastOp = op := Option.some.inj (hop.symm.trans ho)
    rw [HostTree.shape, ← hface]
    exact shape_ne_choice hexit
  have seated : (g.reseated T).op? l.root = some { lastOp with parent := T.parentIn l.root } := by
    rw [op?_reseated, hop]
    rfl
  have goesOn := next_of_last row hlast exit seated
  obtain rfl : lastOp.next = c := goesOn
  refine ⟨ks, k, l, rfl, rfl, rfl, hfirst, hlast, reads, row.nodup, hsub,
    fun q hq => (row.parent_outside q hq).1, ?_, ?_, ?_, ⟨lastOp, hop, rfl⟩,
    fun y hy => (row.cont_outside y hy).1, hgate.start,
    fun x y hx hout hxy => hgate.leads x y hx hout (leads_reseated.mpr hxy)⟩
  · have range := hrange k l hfirst hlast
    cases p with
    | none => exact range
    | some q =>
      obtain ⟨op', ho', rest⟩ := range
      rw [op?_reseated] at ho'
      obtain ⟨op, ho, rfl⟩ := Option.map_eq_some_iff.mp ho'
      exact ⟨op, ho, rest⟩
  · rintro q rfl
    have below : g.Below ([T].map HostTree.root) q := ⟨T.root, by simp, h.1⟩
    simpa using (below_iff (by simpa using hf.linked.reads)).mp below
  · rintro rfl
    obtain ⟨-, hone, -⟩ := h
    have last := congrArg List.getLast? hone
    rw [List.getLast?_map, hlast] at last
    exact (Option.some.inj last).symm

theorem Fresh.leads {x y : OpId} (hf : Fresh g T) (hx : x ∈ T.ids) (hxy : g.Leads x y) :
    y ∈ T.ids := by
  have standing := hf.standing
  refine (standing.linked.1.leads standing.seated.1 hx (leads_reseated.mpr hxy)).resolve_right ?_
  simp [entryOf]

namespace Row

theorem start_mem (h : Row g T p next pre post ks k l) : k.start ∈ idsAll ks :=
  mem_idsAll.mpr ⟨k, List.mem_of_head? h.first, start_mem_ids k⟩

theorem last_mem (h : Row g T p next pre post ks k l) : l.root ∈ idsAll ks :=
  mem_idsAll.mpr ⟨l, List.mem_of_getLast? h.last, root_mem_ids l⟩

theorem lt_size (h : Row g T p next pre post ks k l) {x : OpId} (hx : x ∈ idsAll ks) :
    x.index < g.size := by
  obtain ⟨t, ht, hx⟩ := mem_idsAll.mp hx
  exact (h.reads t ht).lt_size hx

/-- Where parents lead from an op to the root of a tree, they lead through the tree: every op on the
way lists the one before. -/
theorem rises (hf : Fresh g T) (h : Row g T p next pre post ks k l) {x : OpId}
    (path : Relation.ReflTransGen g.Up x k.root) : g.Rises (· ∈ idsAll ks) x k.root := by
  induction path using Relation.ReflTransGen.head_induction_on with
  | refl => exact .refl
  | @head x y step rest ih =>
    have down : Relation.ReflTransGen g.Kid k.root y :=
      (Relation.reflTransGen_swap.mpr rest).lift id fun a b hab => hf.unedited.listed b a hab
    have hy : y ∈ idsAll ks := (below_iff h.reads).mp
      ⟨k.root, List.mem_map_of_mem (List.mem_of_head? h.first), down⟩
    exact .head ⟨step, hy⟩ ih

/-- **A row that can be found is replaced by a unit without fragments.** -/
theorem replace (h : Row g T p next pre post ks k l) (hf : Fresh g T)
    (hfound : g.Found p k.start k.root l.root) (hunit : unit.fragments = []) :
    ∃ g', Graph.replace k.start l.root unit false g = .ok ⟨g.size⟩ g' ∧
      g.Replaced (· ∈ idsAll ks) k.start l.root k.start unit p next pre post g' ∧
      ∀ x ∈ idsAll ks, g'.IsDead x := by
  have heirless := hf.unedited.heirless
  have ordered : g.Ordered := by
    rintro x y ⟨op, ho, hxy⟩
    rw [heirless x op ho] at hxy
    cases hxy
  obtain ⟨startOp, hstart⟩ := exists_op? (h.lt_size h.start_mem)
  obtain ⟨topOp, htop, hfront⟩ := hfound.front
  obtain ⟨lastOp, hlast, hback⟩ := hfound.back
  obtain ⟨lastOp', hlast', hnext⟩ := h.exit
  obtain rfl : lastOp = lastOp' := Option.some.inj (hlast.symm.trans hlast')
  have closed : g.Closed (· ∈ idsAll ks) := by
    intro a b ha hab
    obtain ⟨t, ht, ha⟩ := mem_idsAll.mp ha
    exact mem_idsAll.mpr ⟨t, ht, (h.reads t ht).kid_mem ha hab⟩
  have parentOut : ∀ q, lastOp.parent = some q → q ∉ idsAll ks := fun q hq =>
    h.parent_outside q (hback.symm.trans hq)
  have roots : ∀ x ∈ ks.map HostTree.root, x ∈ idsAll ks := fun x hx =>
    (map_root_sublist ks).subset hx
  have adopted : ∀ f ∈ unit.fragments, ∃ o, g.op? f = some o ∧ o.heir = none := by simp [hunit]
  obtain ⟨g', hreplace, hrep, hdead⟩ := Graph.replace_replaced ordered
    (.refl hstart (heirless _ _ hstart)) hlast (heirless _ _ hlast) (h.rises hf hfound.climb) htop
    (hfront.trans hback.symm) parentOut (hback.symm ▸ h.range) closed (fun x hx => h.lt_size hx)
    roots parentOut adopted
  rw [hback, hnext] at hrep
  refine ⟨g', hreplace, hrep, hdead ks rfl fun t ht => ?_⟩
  exact ⟨h.reads t ht, nodup_of_mem ht h.nodup, fun x hx => mem_idsAll.mpr ⟨t, ht, hx⟩⟩

end Row

/-! ### What a replacement leaves -/

/-- What an op outside a replaced range has become, if no fragments were adopted. -/
theorem Replaced.op_outside {X : OpId → Prop} {first last front x : OpId} {next : Option OpId}
    {pre post : List OpId} {op : Op} (h : g.Replaced X first last front unit p next pre post g')
    (hunit : unit.fragments = []) (hx : ¬ X x) (hends : X first ∧ X last ∧ X front)
    (ho : g.op? x = some op) (hlive : op.state ≠ .dead) :
    g'.op? x = some { op with
      next := op.next.map (turn front ⟨g.size⟩)
      other := op.other.map (turn front ⟨g.size⟩)
      kids := if some x = p then pre ++ ⟨g.size⟩ :: post else op.kids } := by
  obtain ⟨s, hs, ho'⟩ := h.ops x op ho
  have notEnd : ¬ (x = first ∨ x = last ∨ x = front) := by
    rintro (rfl | rfl | rfl)
    · exact hx hends.1
    · exact hx hends.2.1
    · exact hx hends.2.2
  obtain rfl := hs hx
  rw [ho', if_neg notEnd]
  simp [Op.turned, hlive, hunit]

/-- The unit leads to where it continues. -/
theorem Replaced.leads_new {X : OpId → Prop} {first last front y : OpId} {next : Option OpId}
    {pre post : List OpId} (h : g.Replaced X first last front unit p next pre post g')
    (hy : g'.Leads ⟨g.size⟩ y) : next = some y := by
  obtain ⟨op, ho, hy⟩ := hy
  rw [h.new] at ho
  cases ho
  simpa using hy

/-- Outside of a replaced range links lead where they led, or to the unit. -/
theorem Replaced.leads_outside {X : OpId → Prop} {first last front x y : OpId}
    {next : Option OpId} {pre post : List OpId} {op : Op}
    (h : g.Replaced X first last front unit p next pre post g') (hunit : unit.fragments = [])
    (hx : ¬ X x) (hends : X first ∧ X last ∧ X front) (ho : g.op? x = some op)
    (hlive : op.state ≠ .dead) (hxy : g'.Leads x y) :
    ∃ z, g.Leads x z ∧ y = turn front ⟨g.size⟩ z := by
  obtain ⟨op', ho', hy⟩ := hxy
  obtain rfl := Option.some.inj (ho'.symm.trans (h.op_outside hunit hx hends ho hlive))
  rcases hy with hy | hy <;> obtain ⟨z, hz, rfl⟩ := Option.map_eq_some_iff.mp hy
  · exact ⟨z, ⟨op, ho, .inl hz⟩, rfl⟩
  · exact ⟨z, ⟨op, ho, .inr hz⟩, rfl⟩

/-- **A row that was replaced is out of reach**: control comes to the unit instead of its start,
and goes on outside of it.

By induction along a way through the new graph: control is at the unit, or at an op of the tree that
is not in the row.  From such an op it could enter the row only at its start, and that link is
turned. -/
theorem Row.unreached {entry x new : OpId} (h : Row g T p next pre post ks k l) (hf : Fresh g T)
    (hnew : new ∉ idsAll ks) (hentry : g'.entry = g.entry.map (turn k.start new))
    (hnext : ∀ y, g'.Leads new y → next = some y)
    (hrest : ∀ x y, x ∈ T.ids → x ∉ idsAll ks → g'.Leads x y →
      ∃ z, g.Leads x z ∧ y = turn k.start new z)
    (he : g'.entry = some entry) (hpath : Relation.ReflTransGen g'.Leads entry x) :
    x ∉ idsAll ks := by
  have gate : entryOf ks none = some k.start := by
    obtain ⟨us, rfl⟩ := List.head?_eq_some_iff.mp h.first
    rfl
  -- control is in the rest of the tree, or at the unit
  have turned : ∀ z ∈ T.ids, (z ∈ idsAll ks → entryOf ks none = some z) →
      turn k.start new z = new ∨ turn k.start new z ∈ T.ids ∧ turn k.start new z ∉ idsAll ks := by
    intro z hz hin
    unfold turn
    by_cases hzk : z = k.start
    · exact .inl (if_pos hzk)
    · rw [if_neg hzk]
      refine .inr ⟨hz, fun hzin => hzk ?_⟩
      exact Option.some.inj ((hin hzin).symm.trans gate)
  have inside : x = new ∨ x ∈ T.ids ∧ x ∉ idsAll ks := by
    induction hpath with
    | refl =>
      rw [hentry, hf.entry] at he
      cases he
      exact turned T.start (start_mem_ids T) h.gated.start
    | @tail y z _ step ih =>
      rcases ih with rfl | ⟨hy, hout⟩
      · have hz := hnext z step
        obtain ⟨lastOp, hlast, hexit⟩ := h.exit
        have leads : g.Leads l.root z := ⟨lastOp, hlast, .inl (hexit.trans hz)⟩
        exact .inr ⟨hf.leads (h.inside h.last_mem) leads, h.next_outside z hz⟩
      · obtain ⟨w, hw, rfl⟩ := hrest y z hy hout step
        exact turned w (hf.leads hy hw) (h.gated.leads y w hy hout hw)
  rcases inside with rfl | ⟨-, hout⟩
  · exact hnew
  · exact hout

/-- **A row that was replaced is spliced out.** -/
theorem Row.spliced (h : Row g T p next pre post ks k l) (hf : Fresh g T)
    (hrep : g.Replaced (· ∈ idsAll ks) k.start l.root k.start unit p next pre post g')
    (hdead : ∀ x ∈ idsAll ks, ∀ op, g'.op? x = some op → op.state = .dead)
    (hunit : unit.fragments = []) :
    g.Spliced g' p pre (ks.map HostTree.root) post k.start next unit ⟨g.size⟩ := by
  have below := fun x => below_iff (g := g) h.reads (x := x)
  have live : ∀ x op, g.op? x = some op → op.state ≠ .dead := fun x op ho => by
    simp [hf.unedited.live x op ho]
  have ends : k.start ∈ idsAll ks ∧ l.root ∈ idsAll ks ∧ k.start ∈ idsAll ks :=
    ⟨h.start_mem, h.last_mem, h.start_mem⟩
  exact {
    fresh := op?_eq_none_iff.mpr (Nat.le_refl _)
    unit := by rw [hrep.new, hunit]
    root := by
      rw [hrep.root]
      cases p with
      | some q => simp
      | none => rw [if_pos ⟨rfl, hf.root.trans (congrArg some (h.top rfl))⟩, if_pos rfl]
    entry := hrep.entry
    rest := fun x op hx ho => hrep.op_outside hunit ((below x).not.mp hx) ends ho (live x op ho)
    dead := fun x hx => by
      have hx' := (below x).mp hx
      obtain ⟨op, ho⟩ := exists_op? (h.lt_size hx')
      obtain ⟨s, -, ho'⟩ := hrep.ops x op ho
      exact ⟨_, ho', hdead x hx' _ ho'⟩
    unreached := fun e x he hpath hx => by
      have hnew : ⟨g.size⟩ ∉ idsAll ks := fun hnew => Nat.lt_irrefl _ (h.lt_size hnew)
      refine h.unreached hf hnew hrep.entry (fun y => hrep.leads_new) (fun x y hx hout => ?_) he
        hpath ((below x).mp hx)
      obtain ⟨op, ho⟩ := exists_op? (hf.linked.reads.lt_size hx)
      exact hrep.leads_outside hunit hout ends ho (live x op ho) }

/-- **A row that was spliced out could be found**: the unit has the parent that the last of the
trees names, and stands where the climb from the start has led. -/
theorem Row.found {new : OpId} (h : Row g T p next pre post ks k l) (hf : Fresh g T)
    (hunit : unit.fragments = [])
    (hr : Graph.replace k.start l.root unit false g = .ok new g')
    (hs : g.Spliced g' p pre (ks.map HostTree.root) post k.start next unit new) :
    g.Found p k.start k.root l.root := by
  obtain ⟨rfl, -, lastOp, top, fault, as, seg, bs, hlast, hclimb, hrange, sub⟩ :=
    hf.heirless.substituted (by simp [hunit]) hr
  obtain ⟨-, path, topOp, htop, hparent⟩ := childWithin_eq_ok hclimb
  have back : lastOp.parent = p := by
    obtain ⟨op, ho, hp, -⟩ := sub.new
    rw [hs.unit] at ho
    cases ho
    exact hp.symm
  rw [back] at hrange hparent sub
  have same : top = k.root := by
    cases p with
    | none => rw [hrange.1, h.range.1]
    | some q =>
      -- the unit is listed between the same ops in both accounts, so the ranges agree
      obtain ⟨op, hq, -, hkids, hhead, -⟩ := hrange
      obtain ⟨op', hq', -, hkids', hhead', -⟩ := h.range
      obtain rfl : op = op' := Option.some.inj (hq.symm.trans hq')
      obtain ⟨s, hleft⟩ := sub.ops q op hq
      have hright := hs.rest q op (mt (below_iff h.reads).mp (h.parent_outside q rfl)) hq
      have lists : as ++ ⟨g.size⟩ :: bs = pre ++ ⟨g.size⟩ :: post := by
        simpa using congrArg Op.kids (Option.some.inj (hleft.symm.trans hright))
      have fresh : ∀ x ∈ op.kids, x ≠ ⟨g.size⟩ := by
        rintro x hx rfl
        have inside := hf.linked.reads.kid_mem (h.listed q rfl) ⟨op, hq, hx⟩
        exact Nat.lt_irrefl _ (hf.linked.reads.lt_size inside)
      have outside : ⟨g.size⟩ ∉ as ∧ ⟨g.size⟩ ∉ bs := by
        rw [hkids] at fresh
        exact ⟨fun hx => fresh _ (by simp [hx]) rfl, fun hx => fresh _ (by simp [hx]) rfl⟩
      obtain ⟨rfl, -, rfl⟩ := (List.append_cons_inj_of_notMem outside.1 outside.2).mp lists
      obtain rfl : seg = ks.map HostTree.root := by
        simpa using hkids.symm.trans hkids'
      exact Option.some.inj (hhead.symm.trans hhead')
  subst same
  exact ⟨path, ⟨topOp, htop, hparent⟩, lastOp, hlast, back⟩

/-- **A row of ops that name those that list them can be found.** -/
theorem Row.found_of_up (h : Row g T p next pre post ks k l)
    (hup : ∀ y x, y ∈ T.ids → g.Kid y x → g.Up x y)
    (hroot : p = none → ∃ op, g.op? T.root = some op ∧ op.parent = none) :
    g.Found p k.start k.root l.root := by
  have names : ∀ x ∈ ks.map HostTree.root, ∃ op, g.op? x = some op ∧ op.parent = p := by
    intro x hx
    cases p with
    | none =>
      rw [h.range.2, List.mem_singleton] at hx
      rw [hx, ← h.top rfl]
      exact hroot rfl
    | some q =>
      obtain ⟨op, hq, -, hkids, -⟩ := h.range
      exact hup q x (h.listed q rfl) ⟨op, hq, by simp [hkids, hx]⟩
  have hk : k ∈ ks := List.mem_of_head? h.first
  refine ⟨?_, names _ (List.mem_map_of_mem hk),
    names _ (List.mem_map_of_mem (List.mem_of_getLast? h.last))⟩
  -- from the root of the first tree its lists lead down to its start
  have down : Relation.ReflTransGen g.Kid k.root k.start :=
    reaches_of_mem_ids (h.reads k hk) (start_mem_ids k)
  generalize k.start = x at down
  induction down with
  | refl => exact .refl
  | @tail y x path step ih =>
    have hy : y ∈ T.ids := h.inside ((below_iff h.reads).mp ⟨k.root, List.mem_map_of_mem hk, path⟩)
    exact .head (hup y x hy step) ih

/-- **Siblings are replaced by a unit without fragments exactly if they can be found**, and they
can be found in a tree whose ops were added after their kids.  Siblings of a tree that has just
been linked are a row of trees that control enters at their start only; so what stands in their
place is reached instead of them.  Conversely the unit tells where it was put: it has the parent
that the last of them names, in whose list the climb from the start has ended. -/
theorem replace_siblings {owner : OwnerId} {g₀ g : Graph} {r entry k l : OpId} {p : Option OpId}
    {pre seg post : List OpId} {lastOp : Op} {unit : CompiledUnit} (hg : Built owner g₀)
    (hu : Unshared g₀) (ha : Acyclic g₀) (hlink : Graph.link r g₀ = .ok entry g)
    (hsiblings : g.Siblings r p pre seg post) (hfirst : seg.head? = some k)
    (hlast : seg.getLast? = some l) (hop : g.op? l = some lastOp) (hexit : lastOp.kind ≠ .cond)
    (hunit : unit.fragments = []) :
    ((∃ new g', applyEdit ⟨owner, .replace (g.startOf k) l unit false⟩ g = .ok (some new) g' ∧
        g.Spliced g' p pre seg post (g.startOf k) lastOp.next unit new) ↔
      g.Found p (g.startOf k) k l) ∧
    ((∀ y x, Relation.ReflTransGen g.Kid r y → g.Kid y x → x.index < y.index) →
      (p = none → ∀ y, ¬ g.Kid y r) → g.Found p (g.startOf k) k l) := by
  obtain ⟨T, rfl, hf⟩ := hg.fresh hu ha hlink
  obtain ⟨ks, k, l, rfl, rfl, rfl, row⟩ := hsiblings.row hf hfirst hlast hop hexit
  have hk : k ∈ ks := List.mem_of_head? row.first
  have built := hg.link hlink
  rw [(row.reads k hk).startOf (nodup_of_mem hk row.nodup)]
  have edited : applyEdit ⟨owner, .replace k.start l.root unit false⟩ g =
      (some <$> Graph.replace k.start l.root unit false) g := by
    unfold applyEdit
    rw [Effect.get_bind, if_neg (by simp [built.owner_eq])]
  rw [edited]
  refine ⟨⟨?_, fun hfound => ?_⟩, fun older hroot => row.found_of_up (fun y x hy hyx => ?_) fun hp => ?_⟩
  · rintro ⟨new, g', hr, hspliced⟩
    obtain ⟨new, hr, ⟨⟩⟩ := Effect.map_eq_ok.mp hr
    exact row.found hf hunit hr hspliced
  · obtain ⟨g', hr, hrep, hdead⟩ := row.replace hf hfound hunit
    exact ⟨_, g', Effect.map_ok hr, row.spliced hf hrep hdead hunit⟩
  · have unique : ∀ a b z, g.Kid a z → g.Kid b z → a = b := fun a b z haz hbz =>
      hu.unique ((kid_link hlink).mp haz) ((kid_link hlink).mp hbz)
    exact built.up_of_kid unique hyx (older y x (reaches_of_mem_ids hf.linked.reads hy) hyx)
  · obtain ⟨op, ho⟩ := exists_op? (hf.linked.reads.lt_size (root_mem_ids T))
    refine ⟨op, ho, Option.eq_none_iff_forall_ne_some.mpr fun y hy => ?_⟩
    exact hroot hp y (hf.unedited.listed T.root y ⟨op, ho, hy⟩)

theorem kid_sumGraph_lt {a b : OpId} (h : sumGraph.Kid a b) : b.index < a.index := by
  obtain ⟨op, ho, hb⟩ := h
  have all : ∀ i (hi : i < sumGraph.ops.size), ∀ c ∈ sumGraph.ops[i].kids, c.index < i := by decide
  obtain ⟨hlt, rfl⟩ := Array.getElem?_eq_some_iff.mp ho
  exact all a.index hlt b hb

/-- Both operands of the sum give way to one unit; the second of them may be skipped. -/
theorem replace_siblings_operands : ∃ g lastOp new g', Graph.link ⟨4⟩ sumGraph = .ok ⟨0⟩ g ∧
    g.op? ⟨3⟩ = some lastOp ∧
    applyEdit ⟨⟨0⟩, .replace (g.startOf ⟨0⟩) ⟨3⟩ ⟨"unit", [], []⟩ false⟩ g = .ok (some new) g' ∧
    g.Spliced g' (some ⟨4⟩) [] [⟨0⟩, ⟨3⟩] [] (g.startOf ⟨0⟩) lastOp.next ⟨"unit", [], []⟩ new := by
  obtain ⟨g, hlink⟩ : ∃ g, Graph.link ⟨4⟩ sumGraph = .ok ⟨0⟩ g := ⟨_, rfl⟩
  obtain ⟨sumOp, hsum, hkids, hkind⟩ : ∃ op, g.op? ⟨4⟩ = some op ∧ op.kids = [⟨0⟩, ⟨3⟩] ∧
      op.kind = .arith (.float .add) := by
    cases hlink
    exact ⟨_, rfl, rfl, rfl⟩
  obtain ⟨lastOp, hlast, hand⟩ : ∃ op, g.op? ⟨3⟩ = some op ∧ op.kind = .and := by
    cases hlink
    exact ⟨_, rfl, rfl⟩
  have siblings : g.Siblings ⟨4⟩ (some ⟨4⟩) [] [⟨0⟩, ⟨3⟩] [] :=
    ⟨.refl, sumOp, hsum, hkids, .inr (by simp [hkind])⟩
  have unshared : Unshared sumGraph := by unfold Unshared; decide
  have acyclic : Acyclic sumGraph := acyclic_of_lt fun _ _ => kid_sumGraph_lt
  have childless : CompiledUnit.fragments ⟨"unit", [], []⟩ = [] := rfl
  obtain ⟨splices, finds⟩ := replace_siblings (.of_assembled sumGraph_assembled) unshared acyclic
    hlink siblings rfl rfl hlast (by simp [hand]) childless
  have found := finds (fun _ _ _ hk => kid_sumGraph_lt ((kid_link hlink).mp hk)) (by simp)
  obtain ⟨new, g', edited, spliced⟩ := splices.mpr found
  exact ⟨g, lastOp, new, g', hlink, hlast, edited, spliced⟩

/-- A negation that was added before its operand. -/
def forwardGraph : Graph where
  owner := ⟨0⟩
  ops := #[{ kind := .negate, kids := [⟨1⟩] }, { kind := .const (.int 5) }]

/-- **An operand that was added after its operator is not found**: a unit replaces it in the flow of
control, but has no parent, and the operator still lists the operand, which is dead. -/
theorem replace_forward_operand : ∃ g g', Built ⟨0⟩ forwardGraph ∧ Unshared forwardGraph ∧
    Acyclic forwardGraph ∧ Graph.link ⟨0⟩ forwardGraph = .ok ⟨1⟩ g ∧
    g.Siblings ⟨0⟩ (some ⟨0⟩) [] [⟨1⟩] [] ∧
    applyEdit ⟨⟨0⟩, .replace (g.startOf ⟨1⟩) ⟨1⟩ ⟨"unit", [], []⟩ false⟩ g = .ok (some ⟨2⟩) g' ∧
    (g'.op? ⟨0⟩).map Op.kids = some [⟨1⟩] ∧ (g'.op? ⟨1⟩).map Op.state = some .dead ∧
    (g'.op? ⟨2⟩).map Op.parent = some none := by
  have start : Built ⟨0⟩ { owner := ⟨0⟩ } := .empty
  have negation := start.add ⟨.negate, none, false⟩ [⟨1⟩] (by decide)
  have built : Built ⟨0⟩ forwardGraph := negation.add ⟨.const (.int 5), none, false⟩ [] (by decide)
  have lists : ∀ a b, forwardGraph.Kid a b → a = ⟨0⟩ ∧ b = ⟨1⟩ := by
    rintro ⟨a⟩ b ⟨op, ho, hb⟩
    have all : ∀ i (hi : i < forwardGraph.ops.size), ∀ c ∈ forwardGraph.ops[i].kids,
        i = 0 ∧ c = ⟨1⟩ := by decide
    obtain ⟨hlt, rfl⟩ := Array.getElem?_eq_some_iff.mp ho
    obtain ⟨rfl, rfl⟩ := all a hlt b hb
    exact ⟨rfl, rfl⟩
  have acyclic : Acyclic forwardGraph := fun id hid => by
    obtain ⟨y, hfirst, -⟩ := Relation.TransGen.head'_iff.mp hid
    obtain ⟨z, -, hlast⟩ := Relation.TransGen.tail'_iff.mp hid
    cases (lists id y hfirst).1.symm.trans (lists z id hlast).2
  refine ⟨_, _, built, by unfold Unshared; decide, acyclic, rfl, ⟨.refl, _, rfl, rfl, .inl rfl⟩, rfl,
    rfl, rfl, rfl⟩

end Graph

end Graft
