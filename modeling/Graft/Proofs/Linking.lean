import Graft.Proofs.HostTree
import Mathlib.Data.List.Nodup
import Mathlib.Logic.Relation

/-! # Linking threads a tree

`Graph.link` goes through an arena from the last kid to the first and hands each op the
op to continue with.  What it leaves behind is a linked tree: where it succeeds, the root
is the root of a tree of ops (`Graph.linkWithin_roots`), and where that tree has no op
twice, its ops are linked in the order of the tree (`Graph.linkWithin_linked`).  No op is
there twice if no op is listed twice as a kid and none is below itself
(`Graph.nodup_ids`).

Linking is bounded by the number of ops, and fails if it gets deeper; so where it succeeds
the bound is also the depth of a tree, and the tree is built by induction on it.  Its links
are then shown by induction over the tree.  What linking does at one op is said once, by the
shape of the op (`Graph.linkWithin_cases`).  Between two kids the ops that are already linked
must not be touched again: linking changes the ops of the tree that it goes through and no
others, and the trees of two kids have no op in common.
-/

namespace Graft

open HostTree

/-! ### What linking keeps -/

/-- An op without the links that linking sets. -/
def Op.skeleton (op : Op) : Op :=
  { op with
    next := none
    other := if op.kind.shape = .short ∨ op.kind.shape = .choice then none else op.other }

namespace Op

variable {op op' : Op}

@[simp] theorem skeleton_kind (op : Op) : op.skeleton.kind = op.kind := rfl
@[simp] theorem skeleton_face (op : Op) : op.skeleton.face = op.face := rfl
@[simp] theorem skeleton_kids (op : Op) : op.skeleton.kids = op.kids := rfl
@[simp] theorem skeleton_parent (op : Op) : op.skeleton.parent = op.parent := rfl
@[simp] theorem skeleton_state (op : Op) : op.skeleton.state = op.state := rfl
@[simp] theorem skeleton_heir (op : Op) : op.skeleton.heir = op.heir := rfl

/-- An op that does not choose keeps its other link. -/
theorem other_of_skeleton (h : op'.skeleton = op.skeleton) (h₁ : op.kind.shape ≠ .short)
    (h₂ : op.kind.shape ≠ .choice) : op'.other = op.other := by
  have kind : op'.kind = op.kind := by simpa using congrArg Op.kind h
  have other := congrArg Op.other h
  simpa only [skeleton, kind, h₁, h₂, or_self, if_false] using other

end Op

namespace Graph

/-- Two graphs that differ only in the links that linking sets. -/
structure Relinked (g g' : Graph) : Prop where
  ops : ∀ x, (g'.op? x).map Op.skeleton = (g.op? x).map Op.skeleton
  owner : g'.owner = g.owner
  root : g'.root = g.root
  entry : g'.entry = g.entry

namespace Relinked

variable {g g' g'' : Graph}

theorem refl (g : Graph) : Relinked g g := ⟨fun _ => rfl, rfl, rfl, rfl⟩

theorem symm (h : Relinked g g') : Relinked g' g :=
  ⟨fun x => (h.ops x).symm, h.owner.symm, h.root.symm, h.entry.symm⟩

theorem trans (h : Relinked g g') (h' : Relinked g' g'') : Relinked g g'' :=
  ⟨fun x => (h'.ops x).trans (h.ops x), h'.owner.trans h.owner, h'.root.trans h.root,
    h'.entry.trans h.entry⟩

theorem update {id : OpId} {f : Op → Op}
    (h : ∀ op, g.op? id = some op → (f op).skeleton = op.skeleton) :
    Relinked g (g.update id f) := by
  refine ⟨fun x => ?_, rfl, rfl, rfl⟩
  rw [op?_update]
  split
  · next hx =>
    subst hx
    cases ho : g.op? x with
    | none => rfl
    | some op => simp only [Option.map_some, h op ho]
  · rfl

/-- An op of the one graph is an op of the other. -/
theorem op (h : Relinked g g') {x : OpId} {op : Op} (ho : g.op? x = some op) :
    ∃ op', g'.op? x = some op' ∧ op'.skeleton = op.skeleton := by
  have hx := h.ops x
  rw [ho, Option.map_some] at hx
  obtain ⟨op', ho', he⟩ := Option.map_eq_some_iff.mp hx
  exact ⟨op', ho', he⟩

theorem nodeAt (h : Relinked g g') {t : HostTree} (ht : NodeAt g t) : NodeAt g' t := by
  obtain ⟨op, ho, hf, hk⟩ := ht
  obtain ⟨op', ho', he⟩ := h.op ho
  have face : op'.face = op.face := by simpa using congrArg Op.face he
  have kids : op'.kids = op.kids := by simpa using congrArg Op.kids he
  exact ⟨op', ho', face.trans hf, kids.trans hk⟩

theorem reads (h : Relinked g g') {t : HostTree} (ht : Reads g t) : Reads g' t :=
  fun s hs => h.nodeAt (ht s hs)

end Relinked

/-! ### One level of linking -/

variable {g g' : Graph} {n : Nat} {id first : OpId} {cont : Option OpId} {op : Op}

/-- Link kids from the last to the first, the last one to continue at `cont`; the answer is
where their execution begins. -/
def linkRow (n : Nat) (kids : List OpId) (cont : Option OpId) : GraphM (Option OpId) :=
  kids.foldrM (fun kid c => some <$> linkWithin n kid c) cont

theorem linkRow_cons (kid : OpId) (kids : List OpId) :
    linkRow n (kid :: kids) cont = linkRow n kids cont >>= fun c => some <$> linkWithin n kid c := by
  simp only [linkRow, List.foldrM_cons]

/-- Kids that come before their op are linked like a row that ends at the op. -/
theorem map_some_foldrM (kids : List OpId) (id : OpId) :
    (some <$> kids.foldrM (fun kid c => linkWithin n kid (some c)) id : GraphM (Option OpId)) =
      linkRow n kids (some id) := by
  induction kids with
  | nil => simp [linkRow]
  | cons kid kids ih =>
    rw [linkRow_cons, ← ih, List.foldrM_cons, map_bind, bind_map_left]

/-- An op that may skip its second operand: the operands are linked from the right. -/
theorem short_eq_ok {kids : List OpId} (h : (match kids with
      | [left, right] => do
        let other ← linkWithin n right cont
        change id fun o => { o with next := cont, other := some other }
        linkWithin n left (some id)
      | _ => throw (.notExecutable id) : GraphM OpId) g = .ok first g') :
    ∃ l r other g₁, kids = [l, r] ∧
      linkWithin n r cont g = .ok other g₁ ∧ (∃ o, g₁.op? id = some o) ∧
      linkWithin n l (some id)
        (g₁.update id fun o => { o with next := cont, other := some other }) = .ok first g' := by
  rcases kids with _ | ⟨l, _ | ⟨r, _ | ⟨k, ks⟩⟩⟩
  case cons.cons.nil =>
    obtain ⟨other, g₁, hr, h⟩ := Effect.bind_eq_ok.mp h
    obtain ⟨_, g₂, hc, h⟩ := Effect.bind_eq_ok.mp h
    obtain ⟨hex, rfl⟩ := change_eq_ok.mp hc
    exact ⟨l, r, other, g₁, rfl, hr, hex, h⟩
  all_goals cases h

/-- **What linking one op comes to**, by its shape. -/
theorem linkWithin_cases (h : linkWithin (n + 1) id cont g = .ok first g') :
    ∃ op, g.op? id = some op ∧
      match op.kind.shape with
      | .plain =>
        linkRow n op.kids (some id) (g.update id fun o => { o with next := cont }) =
          .ok (some first) g'
      | .listed => ∃ c,
        linkRow n op.kids cont (g.update id fun o => { o with next := cont }) = .ok c g' ∧
          first = if op.kids.isEmpty then id else c.getD id
      | .short => ∃ l r other g₁, op.kids = [l, r] ∧
        linkWithin n r cont g = .ok other g₁ ∧ (∃ o, g₁.op? id = some o) ∧
        linkWithin n l (some id)
          (g₁.update id fun o => { o with next := cont, other := some other }) = .ok first g'
      | .choice => ∃ c y m other next g₁ g₂, op.kids = [c, y, m] ∧
        linkWithin n y cont g = .ok other g₁ ∧ linkWithin n m cont g₁ = .ok next g₂ ∧
        (∃ o, g₂.op? id = some o) ∧
        linkWithin n c (some id)
          (g₂.update id fun o => { o with next := some next, other := some other }) =
            .ok first g'
      | .unit => first = id ∧ g' = g.update id fun o => { o with next := cont } := by
  rw [linkWithin] at h
  obtain ⟨op, s, hf, h⟩ := Effect.bind_eq_ok.mp h
  obtain ⟨ho, hs⟩ := find_eq_ok.mp hf
  subst s
  refine ⟨op, ho, ?_⟩
  have plain : (change id (fun o => { o with next := cont }) >>= fun _ =>
      op.kids.foldrM (fun kid c => linkWithin n kid (some c)) id) g = .ok first g' →
      linkRow n op.kids (some id) (g.update id fun o => { o with next := cont }) =
        .ok (some first) g' := by
    intro h
    rw [Effect.bind_ok (change_of_some ho)] at h
    rw [← map_some_foldrM, Effect.map_ok h]
  cases hk : op.kind <;> simp only [hk, OpKind.shape] at h ⊢
  case and => exact short_eq_ok h
  case or => exact short_eq_ok h
  case cond =>
    rcases hks : op.kids with _ | ⟨c, _ | ⟨y, _ | ⟨m, _ | ⟨k, ks⟩⟩⟩⟩ <;> rw [hks] at h
    case cons.cons.cons.nil =>
      obtain ⟨other, g₁, hy, h⟩ := Effect.bind_eq_ok.mp h
      obtain ⟨next, g₂, hm, h⟩ := Effect.bind_eq_ok.mp h
      obtain ⟨_, g₃, hc, h⟩ := Effect.bind_eq_ok.mp h
      obtain ⟨hex, rfl⟩ := change_eq_ok.mp hc
      exact ⟨c, y, m, other, next, g₁, g₂, rfl, hy, hm, hex, h⟩
    all_goals cases h
  case statements =>
    rw [Effect.bind_ok (change_of_some ho)] at h
    obtain ⟨c, g₁, hr, h⟩ := Effect.bind_eq_ok.mp h
    cases h
    exact ⟨c, hr, rfl⟩
  case native =>
    rw [Effect.bind_ok (change_of_some ho)] at h
    cases h
    exact ⟨rfl, rfl⟩
  all_goals exact plain h

/-! ### Linking keeps the structure -/

theorem Relinked.setNext (g : Graph) (id : OpId) (cont : Option OpId) :
    Relinked g (g.update id fun o => { o with next := cont }) :=
  .update fun _ _ => rfl

/-- Both links may be set where the op chooses. -/
theorem Relinked.setLinks {g₁ : Graph} (h : Relinked g g₁) (ho : g.op? id = some op)
    (hs : op.kind.shape = .short ∨ op.kind.shape = .choice) (next other : Option OpId) :
    Relinked g (g₁.update id fun o => { o with next := next, other := other }) := by
  refine h.trans (.update fun o ho₁ => ?_)
  obtain ⟨o', ho', he⟩ := h.op ho
  have same : o' = o := Option.some.inj (ho'.symm.trans ho₁)
  have kind : o'.kind = op.kind := by simpa using congrArg Op.kind he
  have chooses : o.kind.shape = .short ∨ o.kind.shape = .choice := by
    rw [← same]
    exact kind ▸ hs
  simp only [Op.skeleton, if_pos chooses]

theorem linkRow_relinked (ih : ∀ {kid cont g first g'},
      linkWithin n kid cont g = .ok first g' → Relinked g g')
    {kids : List OpId} {c : Option OpId} (h : linkRow n kids cont g = .ok c g') :
    Relinked g g' := by
  induction kids generalizing c g' with
  | nil => cases h; exact .refl g
  | cons kid kids ihk =>
    rw [linkRow_cons] at h
    obtain ⟨c', g₁, hr, h⟩ := Effect.bind_eq_ok.mp h
    obtain ⟨a, hk, -⟩ := Effect.map_eq_ok.mp h
    exact (ihk hr).trans (ih hk)

/-- **Linking sets links and nothing else.** -/
theorem linkWithin_relinked (h : linkWithin n id cont g = .ok first g') : Relinked g g' := by
  induction n generalizing id cont g first g' with
  | zero => cases h
  | succ n ih =>
    obtain ⟨op, ho, h⟩ := linkWithin_cases h
    cases hs : op.kind.shape <;> rw [hs] at h
    case plain => exact (Relinked.setNext g id cont).trans (linkRow_relinked ih h)
    case listed =>
      obtain ⟨c, hr, -⟩ := h
      exact (Relinked.setNext g id cont).trans (linkRow_relinked ih hr)
    case short =>
      obtain ⟨l, r, other, g₁, -, hr, -, hl⟩ := h
      exact ((ih hr).setLinks ho (.inl hs) cont other).trans (ih hl)
    case choice =>
      obtain ⟨c, y, m, other, next, g₁, g₂, -, hy, hm, -, hc⟩ := h
      exact (((ih hy).trans (ih hm)).setLinks ho (.inr hs) next other).trans (ih hc)
    case unit => exact h.2 ▸ Relinked.setNext g id cont

/-! ### Where linking succeeds there is a tree -/

/-- The graph has no native ops. -/
def Interpreted (g : Graph) : Prop := ∀ id op, g.op? id = some op → op.kind.shape ≠ .unit

theorem Interpreted.relinked (h : Interpreted g) (hr : Relinked g g') : Interpreted g' := by
  intro id op ho
  obtain ⟨op', ho', he⟩ := hr.symm.op ho
  have kind : op'.kind = op.kind := by simpa using congrArg Op.kind he
  exact kind ▸ h id op' ho'

/-- `id` is the root of a tree of ops. -/
def Roots (g : Graph) (id : OpId) : Prop := ∃ t : HostTree, t.root = id ∧ Reads g t

theorem Roots.relinked (hr : Relinked g g') (h : Roots g' id) : Roots g id := by
  obtain ⟨t, ht, hreads⟩ := h
  exact ⟨t, ht, hr.symm.reads hreads⟩

/-- An op whose kids are roots of trees is one. -/
theorem roots_of_kids (ho : g.op? id = some op) (h : ∀ k ∈ op.kids, Roots g k) : Roots g id := by
  have trees : ∀ kids : List OpId, (∀ k ∈ kids, Roots g k) →
      ∃ ks : List HostTree, ks.map HostTree.root = kids ∧ ∀ t ∈ ks, Reads g t := by
    intro kids
    induction kids with
    | nil => exact fun _ => ⟨[], rfl, fun t ht => nomatch ht⟩
    | cons k kids ih =>
      intro h
      obtain ⟨t, ht, hreads⟩ := h k (by simp)
      obtain ⟨ks, hks, hall⟩ := ih fun k hk => h k (by simp [hk])
      refine ⟨t :: ks, by rw [List.map_cons, ht, hks], fun u hu => ?_⟩
      rcases List.mem_cons.mp hu with rfl | hu
      · exact hreads
      · exact hall u hu
  obtain ⟨ks, hks, hall⟩ := trees op.kids h
  exact ⟨.node id op.face ks, rfl, reads_node.mpr ⟨⟨op, ho, rfl, hks.symm⟩, hall⟩⟩

theorem linkRow_roots (ih : ∀ {kid cont g first g'}, Interpreted g →
      linkWithin n kid cont g = .ok first g' → Roots g kid)
    {kids : List OpId} {c : Option OpId} (hi : Interpreted g)
    (h : linkRow n kids cont g = .ok c g') : ∀ k ∈ kids, Roots g k := by
  induction kids generalizing c g' with
  | nil => intro k hk; cases hk
  | cons kid kids ihk =>
    rw [linkRow_cons] at h
    obtain ⟨c', g₁, hr, h⟩ := Effect.bind_eq_ok.mp h
    obtain ⟨a, hk, -⟩ := Effect.map_eq_ok.mp h
    have relinked := linkRow_relinked linkWithin_relinked hr
    intro k hmem
    rcases List.mem_cons.mp hmem with rfl | hmem
    · exact (ih (hi.relinked relinked) hk).relinked relinked
    · exact ihk hr k hmem

/-- **What can be linked is a tree.** -/
theorem linkWithin_roots (hi : Interpreted g) (h : linkWithin n id cont g = .ok first g') :
    Roots g id := by
  induction n generalizing id cont g first g' with
  | zero => cases h
  | succ n ih =>
    obtain ⟨op, ho, h⟩ := linkWithin_cases h
    refine roots_of_kids ho ?_
    have row : ∀ {c' c : Option OpId},
        linkRow n op.kids c' (g.update id fun o => { o with next := cont }) = .ok c g' →
          ∀ k ∈ op.kids, Roots g k := fun hr k hk =>
      (linkRow_roots ih (hi.relinked (.setNext g id cont)) hr k hk).relinked (.setNext g id cont)
    cases hs : op.kind.shape <;> rw [hs] at h
    case plain => exact row h
    case listed => exact row h.choose_spec.1
    case short =>
      obtain ⟨l, r, other, g₁, hk, hr, -, hl⟩ := h
      have left := (linkWithin_relinked hr).setLinks ho (.inl hs) cont other
      rw [hk]
      simp only [List.forall_mem_cons]
      exact ⟨(ih (hi.relinked left) hl).relinked left, ih hi hr, fun _ h => nomatch h⟩
    case choice =>
      obtain ⟨c, y, m, other, next, g₁, g₂, hk, hy, hm, -, hc⟩ := h
      have yes := linkWithin_relinked hy
      have both := yes.trans (linkWithin_relinked hm)
      have test := both.setLinks ho (.inr hs) next other
      rw [hk]
      simp only [List.forall_mem_cons]
      exact ⟨(ih (hi.relinked test) hc).relinked test, ih hi hy,
        (ih (hi.relinked yes) hm).relinked yes, fun _ h => nomatch h⟩
    case unit => exact absurd hs (hi id op ho)

/-! ### No op is in a tree twice -/

/-- No op is listed twice as a kid. -/
def Unshared (g : Graph) : Prop := (g.ops.toList.flatMap Op.kids).Nodup

/-- No op is below itself. -/
def Acyclic (g : Graph) : Prop := ∀ id, ¬ Relation.TransGen g.Kid id id

theorem op?_mem_toList (ho : g.op? id = some op) : op ∈ g.ops.toList := by
  have hlt := lt_size_of_op? ho
  rw [op?, Array.getElem?_eq_getElem hlt] at ho
  exact Option.some.inj ho ▸ Array.getElem_mem_toList hlt

theorem Unshared.nodup (h : Unshared g) (ho : g.op? id = some op) : op.kids.Nodup :=
  (List.nodup_flatMap.mp h).1 op (op?_mem_toList ho)

/-- An op has one op that lists it. -/
theorem Unshared.unique (h : Unshared g) {a b x : OpId} (ha : g.Kid a x) (hb : g.Kid b x) :
    a = b := by
  obtain ⟨oa, hoa, hxa⟩ := ha
  obtain ⟨ob, hob, hxb⟩ := hb
  have apart := List.pairwise_iff_getElem.mp (List.nodup_flatMap.mp h).2
  have listed : ∀ {c : OpId} {o : Op}, g.op? c = some o →
      ∃ hc : c.index < g.ops.toList.length, g.ops.toList[c.index] = o := by
    intro c o ho
    have hlt := lt_size_of_op? ho
    rw [op?, Array.getElem?_eq_getElem hlt] at ho
    exact ⟨hlt, Option.some.inj ho⟩
  obtain ⟨hla, rfl⟩ := listed hoa
  obtain ⟨hlb, rfl⟩ := listed hob
  rcases Nat.lt_trichotomy a.index b.index with hab | hab | hab
  · exact absurd hxb (apart _ _ hla hlb hab hxa)
  · cases a; cases b; exact congrArg OpId.mk hab
  · exact absurd hxa (apart _ _ hlb hla hab hxb)

/-- The ops of a tree are below its root. -/
theorem reaches_of_mem_ids {t : HostTree} {x : OpId} (hr : Reads g t) (hx : x ∈ t.ids) :
    Relation.ReflTransGen g.Kid t.root x := by
  induction t using HostTree.induction with
  | step id f ks ih =>
    obtain ⟨⟨op, ho, -, hkids⟩, below⟩ := reads_node.mp hr
    rw [ids_node, List.mem_cons, mem_idsAll] at hx
    rcases hx with rfl | ⟨k, hk, hx⟩
    · exact .refl
    · have kid : g.Kid id k.root := ⟨op, ho, hkids ▸ List.mem_map_of_mem hk⟩
      exact .head kid (ih k hk (below k hk) hx)

/-- No kid of an op is below another: the op would be below itself. -/
theorem eq_of_reaches_kid (hu : Unshared g) (ha : Acyclic g) {a k k' : OpId} (hk : g.Kid a k)
    (hk' : g.Kid a k') (h : Relation.ReflTransGen g.Kid k k') : k = k' := by
  rcases Relation.ReflTransGen.cases_tail h with h | ⟨b, hb, hlast⟩
  · exact h.symm
  · rw [hu.unique hlast hk'] at hb
    exact absurd (Relation.TransGen.head' hk hb) (ha a)

/-- **A tree has no op twice**, where no op is listed twice and none is below itself. -/
theorem nodup_ids (hu : Unshared g) (ha : Acyclic g) {t : HostTree} (hr : Reads g t) :
    t.ids.Nodup := by
  induction t using HostTree.induction with
  | step id f ks ih =>
    obtain ⟨⟨op, ho, -, hkids⟩, reads⟩ := reads_node.mp hr
    have kid : ∀ k ∈ ks, g.Kid id k.root := fun k hk =>
      ⟨op, ho, hkids ▸ List.mem_map_of_mem hk⟩
    have roots : (ks.map HostTree.root).Nodup := hkids ▸ hu.nodup ho
    rw [ids_node, List.nodup_cons]
    refine ⟨fun hid => ?_, ?_⟩
    · obtain ⟨k, hk, hid⟩ := mem_idsAll.mp hid
      exact ha id (Relation.TransGen.head' (kid k hk) (reaches_of_mem_ids (reads k hk) hid))
    · rw [idsAll_eq_flatMap, List.nodup_flatMap]
      refine ⟨fun k hk => ih k hk (reads k hk), ?_⟩
      refine (List.pairwise_map.mp roots).imp_of_mem fun {k k'} hk hk' hne x hx hx' => ?_
      -- two kids with an op in common are one above the other
      have total := Relation.ReflTransGen.total_of_right_unique
        (r := Function.swap g.Kid) (fun _ _ _ h h' => hu.unique h h')
        (Relation.reflTransGen_swap.mpr (reaches_of_mem_ids (reads k hk) hx))
        (Relation.reflTransGen_swap.mpr (reaches_of_mem_ids (reads k' hk') hx'))
      rcases total with h | h
      · exact hne (eq_of_reaches_kid hu ha (kid k' hk') (kid k hk) (Relation.reflTransGen_swap.mp h)).symm
      · exact hne (eq_of_reaches_kid hu ha (kid k hk) (kid k' hk') (Relation.reflTransGen_swap.mp h))

/-! ### The links of a tree -/

/-- The tree is linked in `g'` to continue at `cont`, and all else is as in `g`. -/
structure Threads (g g' : Graph) (t : HostTree) (cont : Option OpId) : Prop where
  linked : Linked g' t cont
  frame : ∀ x ∉ t.ids, g'.op? x = g.op? x

theorem linkRow_threads {ts : List HostTree}
    (ih : ∀ t ∈ ts, ∀ {n cont g first g'}, Reads g t →
      linkWithin n t.root cont g = .ok first g' → first = t.start ∧ Threads g g' t cont)
    (hn : (idsAll ts).Nodup) (hr : ∀ t ∈ ts, Reads g t) {c : Option OpId}
    (h : linkRow n (ts.map HostTree.root) cont g = .ok c g') :
    c = entryOf ts cont ∧ LinkedRow g' ts cont ∧ ∀ x ∉ idsAll ts, g'.op? x = g.op? x := by
  induction ts generalizing c g' with
  | nil => cases h; exact ⟨rfl, trivial, fun _ _ => rfl⟩
  | cons t ts ihts =>
    rw [List.map_cons, linkRow_cons] at h
    obtain ⟨c', g₁, hrow, h⟩ := Effect.bind_eq_ok.mp h
    obtain ⟨a, hk, rfl⟩ := Effect.map_eq_ok.mp h
    rw [idsAll_cons, List.nodup_append] at hn
    obtain ⟨rfl, row, frame⟩ := ihts (fun u hu => ih u (by simp [hu])) hn.2.1
      (fun u hu => hr u (by simp [hu])) hrow
    have reads := (linkRow_relinked linkWithin_relinked hrow).reads (hr t (by simp))
    obtain ⟨rfl, head⟩ := ih t (by simp) reads hk
    refine ⟨rfl, ⟨head.linked, row.congr fun x hx => head.frame x fun hx' => ?_⟩, fun x hx => ?_⟩
    · exact hn.2.2 x hx' x hx rfl
    · rw [idsAll_cons, List.mem_append, not_or] at hx
      exact (head.frame x hx.1).trans (frame x hx.2)

/-- The operands of an op that may skip its second one are threaded from the right, and the op
in between. -/
theorem Threads.short {g₁ : Graph} {l r : HostTree} (hs : op.kind.shape = .short)
    (ho : g.op? id = some op) (hkids : op.kids = [l.root, r.root])
    (hn : (node id op.face [l, r]).ids.Nodup) (right : Threads g g₁ r cont)
    (left : Threads (g₁.update id fun o => { o with next := cont, other := some r.start }) g' l
      (some id)) : Threads g g' (node id op.face [l, r]) cont := by
  obtain ⟨hid, hks⟩ := nodup_kids hn
  simp only [idsAll_cons, idsAll_nil, List.append_nil, List.mem_append, not_or,
    List.nodup_append] at hid hks
  have here : g'.op? id = some { op with next := cont, other := some r.start } := by
    rw [left.frame id hid.1, op?_update_self ((right.frame id hid.2).trans ho)]
  refine ⟨(linked_short hs).mpr ⟨l, r, rfl, _, here, rfl, hkids, rfl, rfl, left.linked,
    right.linked.congr fun x hx => ?_⟩, fun x hx => ?_⟩
  · rw [left.frame x fun hx' => hks.2.2 x hx' x hx rfl, op?_update_of_ne]
    rintro rfl
    exact hid.2 hx
  · simp only [ids_node, idsAll_cons, idsAll_nil, List.append_nil, List.mem_cons, List.mem_append,
      not_or] at hx
    obtain ⟨hne, hxl, hxr⟩ := hx
    rw [left.frame x hxl, op?_update_of_ne hne, right.frame x hxr]

/-- The branches of a conditional are threaded before its test. -/
theorem Threads.choice {g₁ g₂ : Graph} {c y n : HostTree} (hs : op.kind.shape = .choice)
    (ho : g.op? id = some op) (hkids : op.kids = [c.root, y.root, n.root])
    (hn : (node id op.face [c, y, n]).ids.Nodup) (yes : Threads g g₁ y cont)
    (no : Threads g₁ g₂ n cont)
    (test : Threads (g₂.update id fun o => { o with next := some n.start, other := some y.start })
      g' c (some id)) : Threads g g' (node id op.face [c, y, n]) cont := by
  obtain ⟨hid, hks⟩ := nodup_kids hn
  simp only [idsAll_cons, idsAll_nil, List.append_nil, List.mem_append, not_or,
    List.nodup_append] at hid hks
  have here : g'.op? id = some { op with next := some n.start, other := some y.start } := by
    rw [test.frame id hid.1, op?_update_self]
    rw [no.frame id hid.2.2, yes.frame id hid.2.1, ho]
  have apart : ∀ x, x ∈ y.ids ∨ x ∈ n.ids → x ∉ c.ids ∧ x ≠ id := by
    intro x hx
    refine ⟨fun hx' => hks.2.2 x hx' x hx rfl, ?_⟩
    rintro rfl
    exact hx.elim hid.2.1 hid.2.2
  refine ⟨(linked_choice hs).mpr ⟨c, y, n, rfl, _, here, rfl, hkids, rfl, rfl, test.linked,
    yes.linked.congr fun x hx => ?_, no.linked.congr fun x hx => ?_⟩, fun x hx => ?_⟩
  · obtain ⟨hxc, hne⟩ := apart x (.inl hx)
    rw [test.frame x hxc, op?_update_of_ne hne, no.frame x fun hx' => hks.2.1.2.2 x hx x hx' rfl]
  · obtain ⟨hxc, hne⟩ := apart x (.inr hx)
    rw [test.frame x hxc, op?_update_of_ne hne]
  · simp only [ids_node, idsAll_cons, idsAll_nil, List.append_nil, List.mem_cons, List.mem_append,
      not_or] at hx
    obtain ⟨hne, hxc, hxy, hxn⟩ := hx
    rw [test.frame x hxc, op?_update_of_ne hne, no.frame x hxn, yes.frame x hxy]

/-- **Linking a tree links its ops in the order of the tree** and touches no other op; the
answer is the op that is executed first.

By induction over the tree, whatever the op to continue with.  The kids are linked in a graph that
has changed meanwhile, but not at their own ops, since no op of the tree occurs twice. -/
theorem linkWithin_linked {t : HostTree} (hn : t.ids.Nodup)
    (hi : ∀ s ∈ t.subtrees, s.shape ≠ .unit) (hr : Reads g t)
    (h : linkWithin n t.root cont g = .ok first g') :
    first = t.start ∧ Threads g g' t cont := by
  induction t using HostTree.induction generalizing n cont g first g' with
  | step id f ks ih =>
    have notUnit : f.kind.shape ≠ .unit := hi _ (mem_subtrees_self _)
    obtain ⟨hid, hks⟩ := nodup_kids hn
    have below : ∀ k ∈ ks, k ∈ (node id f ks).subtrees := fun k hk =>
      subtrees_of_kid (t := node id f ks) hk
    have kid : ∀ k ∈ ks, ∀ {n cont g first g'}, Reads g k →
        linkWithin n k.root cont g = .ok first g' → first = k.start ∧ Threads g g' k cont :=
      fun k hk _ _ _ _ _ hr h => ih k hk (nodup_of_mem hk hks)
        (fun s hs => hi s (subtrees_trans hs (below k hk))) hr h
    obtain ⟨⟨op, ho, rfl, hkids⟩, reads⟩ := reads_node.mp hr
    rw [root_node] at h
    cases n with
    | zero => cases h
    | succ n =>
    obtain ⟨op', ho', h⟩ := linkWithin_cases h
    obtain rfl : op' = op := Option.some.inj (ho'.symm.trans ho)
    -- the kids in a row, after the op's own link is set
    have row : ∀ {c' c : Option OpId},
        linkRow n op'.kids c' (g.update id fun o => { o with next := cont }) = .ok c g' →
        c = entryOf ks c' ∧ LinkedRow g' ks c' ∧
          g'.op? id = some { op' with next := cont } ∧
          ∀ x ∉ (node id op'.face ks).ids, g'.op? x = g.op? x := by
      intro c' c hrow
      rw [hkids] at hrow
      have relinked := Relinked.setNext g id cont
      obtain ⟨entry, linked, frame⟩ :=
        linkRow_threads kid hks (fun k hk => relinked.reads (reads k hk)) hrow
      refine ⟨entry, linked, ?_, fun x hx => ?_⟩
      · rw [frame id hid, op?_update_self ho]
      · rw [ids_node, List.mem_cons, not_or] at hx
        rw [frame x hx.2, op?_update_of_ne hx.1]
    cases hs : op'.kind.shape <;> rw [hs] at h
    case plain =>
      obtain ⟨entry, linked, here, frame⟩ := row h
      refine ⟨?_, (linked_plain hs).mpr ⟨_, here, rfl, hkids, rfl, linked⟩, frame⟩
      cases ks with
      | nil => rw [start_leaf]; exact Option.some.inj entry
      | cons k ks => rw [start_cons notUnit]; exact Option.some.inj entry
    case listed =>
      obtain ⟨c, hrow, rfl⟩ := h
      obtain ⟨entry, linked, here, frame⟩ := row hrow
      refine ⟨?_, (linked_listed hs).mpr ⟨_, here, rfl, hkids, rfl, linked⟩, frame⟩
      subst entry
      rw [hkids]
      cases ks with
      | nil => rw [start_leaf]; rfl
      | cons k ks => rw [start_cons notUnit]; rfl
    case short =>
      obtain ⟨l, r, other, g₁, hlr, hright, -, hleft⟩ := h
      obtain ⟨tl, tr, rfl, rfl, rfl⟩ : ∃ tl tr : HostTree, ks = [tl, tr] ∧ tl.root = l ∧ tr.root = r := by
        simpa [List.map_eq_cons_iff, eq_comm] using hkids.symm.trans hlr
      obtain ⟨rfl, right⟩ := kid tr (by simp) (reads tr (by simp)) hright
      have relinked := (linkWithin_relinked hright).setLinks ho (.inl hs) cont tr.start
      obtain ⟨rfl, left⟩ := kid tl (by simp) (relinked.reads (reads tl (by simp))) hleft
      exact ⟨(start_cons notUnit).symm, .short hs ho hkids hn right left⟩
    case choice =>
      obtain ⟨c, y, m, other, next, g₁, g₂, hcym, hyes, hno, -, htest⟩ := h
      obtain ⟨tc, ty, tn, rfl, rfl, rfl, rfl⟩ : ∃ tc ty tn : HostTree,
          ks = [tc, ty, tn] ∧ tc.root = c ∧ ty.root = y ∧ tn.root = m := by
        simpa [List.map_eq_cons_iff, eq_comm] using hkids.symm.trans hcym
      have relinked := linkWithin_relinked hyes
      obtain ⟨rfl, yes⟩ := kid ty (by simp) (reads ty (by simp)) hyes
      have both := relinked.trans (linkWithin_relinked hno)
      obtain ⟨rfl, no⟩ := kid tn (by simp) (relinked.reads (reads tn (by simp))) hno
      have all := both.setLinks ho (.inr hs) tn.start ty.start
      obtain ⟨rfl, test⟩ := kid tc (by simp) (all.reads (reads tc (by simp))) htest
      exact ⟨(start_cons notUnit).symm, .choice hs ho hkids hn yes no test⟩
    case unit => exact absurd hs notUnit

/-- Kids that are older than their op are below no op of their own. -/
theorem acyclic_of_lt (h : ∀ a b, g.Kid a b → b.index < a.index) : Acyclic g := by
  have down : ∀ a b, Relation.TransGen g.Kid a b → b.index < a.index := by
    intro a b hab
    induction hab with
    | single hk => exact h _ _ hk
    | tail _ hk ih => exact Nat.lt_trans (h _ _ hk) ih
  exact fun id hid => Nat.lt_irrefl _ (down id id hid)

/-- Linking that succeeds has linked an op and all that is below it. -/
theorem link_eq_ok (h : link id g = .ok first g') : (∃ op, g.op? id = some op) ∧
    ∃ g₁, linkWithin (g.size + 1) id none g = .ok first g₁ ∧
      g' = { g₁ with root := some id, entry := some first } := by
  obtain ⟨_, g₀, hfound, hlink⟩ := Effect.bind_eq_ok.mp h
  obtain ⟨op, hfound, -⟩ := Effect.map_eq_ok.mp hfound
  obtain ⟨ho, hg⟩ := find_eq_ok.mp hfound
  subst g₀
  rw [Effect.get_bind] at hlink
  obtain ⟨entry, g₁, hl, hset⟩ := Effect.bind_eq_ok.mp hlink
  cases hset
  exact ⟨⟨op, ho⟩, g₁, hl, rfl⟩

/-- **Linking a root** links the tree below it. -/
theorem link_linked (hi : Interpreted g) (hu : Unshared g) (ha : Acyclic g)
    (h : link id g = .ok first g') :
    ∃ t : HostTree, t.root = id ∧ Reads g t ∧ t.ids.Nodup ∧ (∀ s ∈ t.subtrees, s.shape ≠ .unit) ∧
      first = t.start ∧ Linked g' t none ∧ g'.entry = some first ∧ g'.root = some id := by
  obtain ⟨-, g₁, hl, rfl⟩ := link_eq_ok h
  obtain ⟨t, rfl, hreads⟩ := linkWithin_roots hi hl
  have nodup := nodup_ids hu ha hreads
  have interpreted : ∀ s ∈ t.subtrees, s.shape ≠ .unit := by
    intro s hs
    obtain ⟨op, ho, hface, -⟩ := hreads s hs
    unfold shape
    rw [← hface]
    exact hi s.root op ho
  obtain ⟨rfl, threads⟩ := linkWithin_linked nodup interpreted hreads hl
  have same : ∀ x ∈ t.ids,
      { g₁ with root := some t.root, entry := some t.start : Graph }.op? x = g₁.op? x :=
    fun _ _ => rfl
  exact ⟨t, rfl, hreads, nodup, interpreted, rfl, threads.linked.congr same, rfl, rfl⟩

end Graph

end Graft
