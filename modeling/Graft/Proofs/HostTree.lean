import Graft.Proofs.Access

/-! # Trees of ops

A graph is an arena in which ops name each other.  What is executed is a tree of ops, and
proofs about it go by induction over the tree and not over the arena.  `HostTree` is such
a tree with the names of its ops; `HostTree.Reads` says that a graph has the ops of a
tree, and `HostTree.Linked` that their execution links are those of the tree when it is
to continue at a given op.

The execution links of an op depend on its kind only through its *shape*: whether its
kids come before it, stand for it, are chosen by it or are called by it.  There are four
equations for the links of a node, one for each shape, and all that is proved about linked
trees uses them and not the kinds of ops.

A tree that is linked stays linked under everything that an edit does elsewhere: if the ops
of the tree keep their kinds, and the links that lead out of it are turned alike, the result
is the same tree with another continuation (`HostTree.Linked.turned`).  That is the lemma by
which a graph can be edited while most of its trees are left alone.
-/

namespace Graft

/-- What an op is, its links apart. -/
structure Face where
  kind : OpKind
  targ : Option Slot := none
  stacked : Bool := false

def Op.face (op : Op) : Face := ⟨op.kind, op.targ, op.stacked⟩

/-- How an op is executed together with its kids. -/
inductive Shape where
  /-- The kids from left to right, then the op. -/
  | plain
  /-- The kids alone; without kids the op. -/
  | listed
  /-- The left kid, the op, and perhaps the right kid. -/
  | short
  /-- The condition, the op, and one of two branches. -/
  | choice
  /-- The op alone, which may run its kids as fragments. -/
  | unit
deriving DecidableEq

def OpKind.shape : OpKind → Shape
  | and | or => .short
  | cond => .choice
  | statements => .listed
  | native _ => .unit
  | _ => .plain

theorem OpKind.isNative_iff (k : OpKind) : k.isNative = true ↔ k.shape = .unit := by
  cases k <;> simp [isNative, shape]

/-- A tree of ops with their names. -/
inductive HostTree where
  | node (id : OpId) (face : Face) (kids : List HostTree)

namespace HostTree

def root : HostTree → OpId
  | node id _ _ => id

def face : HostTree → Face
  | node _ f _ => f

def kids : HostTree → List HostTree
  | node _ _ ks => ks

def shape (t : HostTree) : Shape := t.face.kind.shape

@[simp]
theorem root_node (id : OpId) (f : Face) (ks : List HostTree) : (node id f ks).root = id := rfl

@[simp]
theorem face_node (id : OpId) (f : Face) (ks : List HostTree) : (node id f ks).face = f := rfl

@[simp]
theorem kids_node (id : OpId) (f : Face) (ks : List HostTree) : (node id f ks).kids = ks := rfl

@[simp]
theorem shape_node (id : OpId) (f : Face) (ks : List HostTree) :
    (node id f ks).shape = f.kind.shape := rfl

mutual

/-- **Induction over kids.** -/
theorem induction {motive : HostTree → Prop}
    (step : ∀ id f ks, (∀ k ∈ ks, motive k) → motive (node id f ks)) : ∀ t, motive t
  | node id f ks => step id f ks (induction_kids step ks)

theorem induction_kids {motive : HostTree → Prop}
    (step : ∀ id f ks, (∀ k ∈ ks, motive k) → motive (node id f ks)) :
    ∀ ts : List HostTree, ∀ k ∈ ts, motive k
  | [] => by simp
  | t :: ts => by
    have head := induction step t
    have tail := induction_kids step ts
    intro k hk
    rcases List.mem_cons.mp hk with h | h
    · exact h ▸ head
    · exact tail k h

end

/-! ### The nodes of a tree -/

mutual

/-- The tree and all trees below it. -/
def subtrees : HostTree → List HostTree
  | node id f ks => node id f ks :: subtreesAll ks

def subtreesAll : List HostTree → List HostTree
  | [] => []
  | t :: ts => t.subtrees ++ subtreesAll ts

end

/-- The ops of a tree. -/
def ids (t : HostTree) : List OpId := t.subtrees.map root

/-- The ops of several trees. -/
def idsAll (ts : List HostTree) : List OpId := (subtreesAll ts).map root

theorem mem_subtreesAll {s : HostTree} {ts : List HostTree} :
    s ∈ subtreesAll ts ↔ ∃ t ∈ ts, s ∈ t.subtrees := by
  induction ts with
  | nil => simp [subtreesAll]
  | cons t ts ih => simp [subtreesAll, ih]

theorem mem_subtrees_self (t : HostTree) : t ∈ t.subtrees := by
  cases t; simp [subtrees]

theorem mem_subtrees_iff {s t : HostTree} :
    s ∈ t.subtrees ↔ s = t ∨ ∃ k ∈ t.kids, s ∈ k.subtrees := by
  cases t; simp [subtrees, mem_subtreesAll, kids]

theorem subtrees_of_kid {k t : HostTree} (h : k ∈ t.kids) : k ∈ t.subtrees :=
  mem_subtrees_iff.mpr (.inr ⟨k, h, mem_subtrees_self k⟩)

theorem subtrees_trans {s t u : HostTree} (hs : s ∈ t.subtrees) (ht : t ∈ u.subtrees) :
    s ∈ u.subtrees := by
  induction u using induction with
  | step id f ks ih =>
    rcases mem_subtrees_iff.mp ht with rfl | ⟨k, hk, ht⟩
    · exact hs
    · exact mem_subtrees_iff.mpr (.inr ⟨k, hk, ih k hk ht⟩)

theorem subtreesAll_append (ts us : List HostTree) :
    subtreesAll (ts ++ us) = subtreesAll ts ++ subtreesAll us := by
  induction ts with
  | nil => rfl
  | cons t ts ih => rw [List.cons_append, subtreesAll, ih, subtreesAll, List.append_assoc]

theorem subtrees_sublist_all {t : HostTree} {ts : List HostTree} (h : t ∈ ts) :
    t.subtrees.Sublist (subtreesAll ts) := by
  obtain ⟨as, bs, rfl⟩ := List.append_of_mem h
  rw [subtreesAll_append, subtreesAll]
  exact (List.sublist_append_left _ _).trans (List.sublist_append_right _ _)

theorem subtrees_sublist {s t : HostTree} (h : s ∈ t.subtrees) : s.subtrees.Sublist t.subtrees := by
  induction t using induction with
  | step id f ks ih =>
    rcases mem_subtrees_iff.mp h with rfl | ⟨k, hk, hs⟩
    · exact .refl _
    · exact ((ih k hk hs).trans (subtrees_sublist_all hk)).cons _

@[simp]
theorem ids_node (id : OpId) (f : Face) (ks : List HostTree) :
    (node id f ks).ids = id :: idsAll ks := by
  simp [ids, idsAll, subtrees, root]

@[simp]
theorem idsAll_nil : idsAll [] = [] := rfl

@[simp]
theorem idsAll_cons (t : HostTree) (ts : List HostTree) : idsAll (t :: ts) = t.ids ++ idsAll ts := by
  simp [ids, idsAll, subtreesAll]

@[simp]
theorem idsAll_append (ts us : List HostTree) : idsAll (ts ++ us) = idsAll ts ++ idsAll us := by
  rw [idsAll, subtreesAll_append, List.map_append, idsAll, idsAll]

theorem idsAll_eq_flatMap (ts : List HostTree) : idsAll ts = ts.flatMap ids := by
  induction ts with
  | nil => rfl
  | cons t ts ih => rw [idsAll_cons, ih, List.flatMap_cons]

theorem mem_idsAll {x : OpId} {ts : List HostTree} : x ∈ idsAll ts ↔ ∃ t ∈ ts, x ∈ t.ids := by
  induction ts with
  | nil => simp
  | cons t ts ih => simp [ih]

theorem mem_ids {x : OpId} {t : HostTree} : x ∈ t.ids ↔ ∃ s ∈ t.subtrees, s.root = x := by
  simp [ids]

theorem root_mem_ids (t : HostTree) : t.root ∈ t.ids :=
  mem_ids.mpr ⟨t, mem_subtrees_self t, rfl⟩

theorem ids_subset {s t : HostTree} (h : s ∈ t.subtrees) : s.ids ⊆ t.ids :=
  ((subtrees_sublist h).map root).subset

theorem ids_sublist_idsAll {t : HostTree} {ts : List HostTree} (h : t ∈ ts) :
    t.ids.Sublist (idsAll ts) := (subtrees_sublist_all h).map root

theorem ids_subset_idsAll {t : HostTree} {ts : List HostTree} (h : t ∈ ts) : t.ids ⊆ idsAll ts :=
  (ids_sublist_idsAll h).subset

theorem map_root_sublist (ts : List HostTree) : (ts.map root).Sublist (idsAll ts) := by
  induction ts with
  | nil => exact .refl _
  | cons t ts ih =>
    cases t with
    | node id f ks =>
      rw [List.map_cons, idsAll_cons, ids_node, List.cons_append]
      exact (ih.trans (List.sublist_append_right _ _)).cons_cons id

theorem nodup_of_mem {t : HostTree} {ts : List HostTree} (h : t ∈ ts) (hn : (idsAll ts).Nodup) :
    t.ids.Nodup := hn.sublist (ids_sublist_idsAll h)

theorem nodup_kids {id : OpId} {f : Face} {ks : List HostTree} (hn : (node id f ks).ids.Nodup) :
    id ∉ idsAll ks ∧ (idsAll ks).Nodup := by
  rw [ids_node] at hn
  exact List.nodup_cons.mp hn

/-- What lies below an op is smaller than its tree. -/
theorem length_ids_lt {F t : HostTree} {fs : List HostTree} (hF : F ∈ fs)
    (h : (idsAll fs).Sublist (idsAll t.kids)) : F.ids.length < t.ids.length := by
  have le := ((ids_sublist_idsAll hF).trans h).length_le
  cases t with
  | node id f ks =>
    rw [ids_node, List.length_cons]
    exact Nat.lt_succ_of_le le

theorem nodup_of_subtree {s t : HostTree} (h : s ∈ t.subtrees) (hn : t.ids.Nodup) :
    s.ids.Nodup := hn.sublist ((subtrees_sublist h).map root)

/-- The op of a tree that is executed first. -/
def start : HostTree → OpId
  | node id f ks =>
    if f.kind.shape = .unit then id
    else match ks with
      | [] => id
      | k :: _ => k.start

/-- Where the execution of a row of trees begins when it is to continue at `cont`. -/
def entryOf : List HostTree → Option OpId → Option OpId
  | [], cont => cont
  | t :: _, _ => some t.start

theorem start_unit {id : OpId} {f : Face} {ks : List HostTree} (h : f.kind.shape = .unit) :
    (node id f ks).start = id := by
  unfold start
  rw [if_pos h]

theorem start_leaf {id : OpId} {f : Face} : (node id f []).start = id := by
  unfold start
  exact ite_self id

theorem start_cons {id : OpId} {f : Face} {k : HostTree} {ks : List HostTree}
    (h : f.kind.shape ≠ .unit) : (node id f (k :: ks)).start = k.start := by
  conv_lhs => unfold start
  rw [if_neg h]

theorem entryOf_kids {id : OpId} {f : Face} {ks : List HostTree} (h : f.kind.shape ≠ .unit) :
    entryOf ks (some id) = some (node id f ks).start := by
  cases ks with
  | nil => rw [start_leaf]; rfl
  | cons k ks => rw [start_cons h]; rfl

theorem start_mem_ids (t : HostTree) : t.start ∈ t.ids := by
  induction t using induction with
  | step id f ks ih =>
    by_cases h : f.kind.shape = .unit
    · rw [start_unit h]; exact root_mem_ids (node id f ks)
    · cases ks with
      | nil => rw [start_leaf]; exact root_mem_ids (node id f [])
      | cons k ks =>
        rw [start_cons h, ids_node, idsAll_cons]
        exact List.mem_cons_of_mem _ (List.mem_append_left _ (ih k (by simp)))

/-! ### Trees in a graph -/

/-- The graph has the op at the root of the tree, with the roots of the kids as its kids. -/
def NodeAt (g : Graph) (t : HostTree) : Prop :=
  ∃ op, g.op? t.root = some op ∧ op.face = t.face ∧ op.kids = t.kids.map root

/-- The graph has the ops of the tree. -/
def Reads (g : Graph) (t : HostTree) : Prop := ∀ s ∈ t.subtrees, NodeAt g s

theorem reads_node {g : Graph} {id : OpId} {f : Face} {ks : List HostTree} :
    Reads g (node id f ks) ↔
      (∃ op, g.op? id = some op ∧ op.face = f ∧ op.kids = ks.map root) ∧ ∀ k ∈ ks, Reads g k := by
  constructor
  · intro h
    exact ⟨h _ (mem_subtrees_self _), fun k hk s hs =>
      h s (subtrees_trans hs (subtrees_of_kid (t := node id f ks) hk))⟩
  · rintro ⟨here, below⟩ s hs
    rcases mem_subtrees_iff.mp hs with rfl | ⟨k, hk, hs⟩
    · exact here
    · exact below k hk s hs

theorem Reads.lt_size {g : Graph} {t : HostTree} (h : Reads g t) {x : OpId} (hx : x ∈ t.ids) :
    x.index < g.size := by
  obtain ⟨s, hs, rfl⟩ := mem_ids.mp hx
  obtain ⟨op, ho, -⟩ := h s hs
  exact Graph.lt_size_of_op? ho

/-- A tree without repetitions has no more ops than the graph. -/
theorem Reads.length_ids_le {g : Graph} {t : HostTree} (h : Reads g t) (hn : t.ids.Nodup) :
    t.ids.length ≤ g.size :=
  Graph.length_le_of_nodup hn fun _ hx => h.lt_size hx

/-- **The first op of a subtree** is found by going down first kids. -/
theorem Reads.startOf {g : Graph} {t : HostTree} (h : Reads g t) (hn : t.ids.Nodup) :
    g.startOf t.root = t.start := by
  have go : ∀ (t : HostTree) (n : Nat), Reads g t → t.ids.length ≤ n →
      g.startWithin n t.root = t.start := by
    intro t
    induction t using induction with
    | step id f ks ih =>
      intro n hr hn
      obtain ⟨⟨op, ho, rfl, hk⟩, below⟩ := reads_node.mp hr
      rw [ids_node, List.length_cons] at hn
      obtain ⟨n, rfl⟩ : ∃ k, n = k + 1 := ⟨n - 1, by omega⟩
      have native : op.isNative = true ↔ op.face.kind.shape = .unit := op.kind.isNative_iff
      rw [root_node, Graph.startWithin, ho]
      by_cases hu : op.face.kind.shape = .unit
      · rw [start_unit hu]
        exact if_pos (native.mpr hu)
      · cases ks with
        | nil => simp only [hk, List.map_nil, start_leaf, ite_self]
        | cons k ks =>
          rw [start_cons hu]
          simp only [hk, List.map_cons]
          rw [if_neg fun hc => hu (native.mp hc)]
          rw [idsAll_cons, List.length_append] at hn
          exact ih k (by simp) n (below k (by simp)) (by omega)
  exact go t g.size h (h.length_ids_le hn)

mutual

/-- The graph has the ops of the tree, linked so that the tree is executed in its order
and continues at `cont`.  The fragments of a unit end where they end. -/
def Linked (g : Graph) : HostTree → Option OpId → Prop
  | node id f ks, cont => ∃ op, g.op? id = some op ∧ op.face = f ∧ op.kids = ks.map root ∧
    match f.kind.shape, ks with
    | .short, [l, r] =>
      op.next = cont ∧ op.other = some r.start ∧ Linked g l (some id) ∧ Linked g r cont
    | .choice, [c, y, n] =>
      op.next = some n.start ∧ op.other = some y.start ∧
        Linked g c (some id) ∧ Linked g y cont ∧ Linked g n cont
    | .short, _ => False
    | .choice, _ => False
    | .unit, ks => op.next = cont ∧ LinkedEach g ks
    | .listed, ks => op.next = cont ∧ LinkedRow g ks cont
    | .plain, ks => op.next = cont ∧ LinkedRow g ks (some id)

/-- The trees are linked one after the other. -/
def LinkedRow (g : Graph) : List HostTree → Option OpId → Prop
  | [], _ => True
  | t :: ts, cont => Linked g t (entryOf ts cont) ∧ LinkedRow g ts cont

/-- The trees are linked each for itself. -/
def LinkedEach (g : Graph) : List HostTree → Prop
  | [] => True
  | t :: ts => Linked g t none ∧ LinkedEach g ts

end

/-! ### What links a node, by shape -/

section Shapes

variable {g g' : Graph} {id : OpId} {f : Face} {ks : List HostTree} {cont : Option OpId}

theorem linked_plain (h : f.kind.shape = .plain) : Linked g (node id f ks) cont ↔
    ∃ op, g.op? id = some op ∧ op.face = f ∧ op.kids = ks.map root ∧ op.next = cont ∧
      LinkedRow g ks (some id) := by
  simp only [Linked, h]

theorem linked_listed (h : f.kind.shape = .listed) : Linked g (node id f ks) cont ↔
    ∃ op, g.op? id = some op ∧ op.face = f ∧ op.kids = ks.map root ∧ op.next = cont ∧
      LinkedRow g ks cont := by
  simp only [Linked, h]

/-- Where the last of the kids continues: at the op, or at what comes after a list. -/
def rowEnd (f : Face) (id : OpId) (cont : Option OpId) : Option OpId :=
  if f.kind.shape = .listed then cont else some id

theorem linked_row (h : f.kind.shape = .plain ∨ f.kind.shape = .listed) :
    Linked g (node id f ks) cont ↔
      ∃ op, g.op? id = some op ∧ op.face = f ∧ op.kids = ks.map root ∧ op.next = cont ∧
        LinkedRow g ks (rowEnd f id cont) := by
  rcases h with h | h
  · rw [linked_plain h]
    simp [rowEnd, h]
  · rw [linked_listed h]
    simp [rowEnd, h]

theorem linked_unit (h : f.kind.shape = .unit) : Linked g (node id f ks) cont ↔
    ∃ op, g.op? id = some op ∧ op.face = f ∧ op.kids = ks.map root ∧ op.next = cont ∧
      LinkedEach g ks := by
  simp only [Linked, h]

theorem linked_short (h : f.kind.shape = .short) : Linked g (node id f ks) cont ↔
    ∃ l r, ks = [l, r] ∧ ∃ op, g.op? id = some op ∧ op.face = f ∧ op.kids = ks.map root ∧
      op.next = cont ∧ op.other = some r.start ∧ Linked g l (some id) ∧ Linked g r cont := by
  rcases ks with _ | ⟨l, _ | ⟨r, _ | ⟨k, ks⟩⟩⟩ <;> simp [Linked, h]

theorem linked_choice (h : f.kind.shape = .choice) : Linked g (node id f ks) cont ↔
    ∃ c y n, ks = [c, y, n] ∧ ∃ op, g.op? id = some op ∧ op.face = f ∧ op.kids = ks.map root ∧
      op.next = some n.start ∧ op.other = some y.start ∧
      Linked g c (some id) ∧ Linked g y cont ∧ Linked g n cont := by
  rcases ks with _ | ⟨c, _ | ⟨y, _ | ⟨n, _ | ⟨k, ks⟩⟩⟩⟩ <;> simp [Linked, h]

theorem linkedEach_iff {ts : List HostTree} : LinkedEach g ts ↔ ∀ t ∈ ts, Linked g t none := by
  induction ts with
  | nil => simp [LinkedEach]
  | cons t ts ih => simp [LinkedEach, ih]

theorem entryOf_append (ts us : List HostTree) (cont : Option OpId) :
    entryOf (ts ++ us) cont = entryOf ts (entryOf us cont) := by
  cases ts <;> rfl

theorem linkedRow_append {ts us : List HostTree} :
    LinkedRow g (ts ++ us) cont ↔ LinkedRow g ts (entryOf us cont) ∧ LinkedRow g us cont := by
  induction ts with
  | nil => simp [LinkedRow]
  | cons t ts ih =>
    simp only [List.cons_append, LinkedRow, ih, entryOf_append, and_assoc]

end Shapes

/-- The ops of a linked tree are in the graph. -/
theorem Linked.reads {g : Graph} {t : HostTree} {cont : Option OpId} (h : Linked g t cont) :
    Reads g t := by
  induction t using induction generalizing cont with
  | step id f ks ih =>
    have row : ∀ ts : List HostTree, (∀ t ∈ ts, t ∈ ks) → ∀ c, LinkedRow g ts c →
        ∀ t ∈ ts, Reads g t := by
      intro ts
      induction ts with
      | nil => intro _ _ _ t ht; cases ht
      | cons u ts ihts =>
        intro hts c hc t ht
        rcases List.mem_cons.mp ht with rfl | ht
        · exact ih _ (hts _ (by simp)) hc.1
        · exact ihts (fun v hv => hts v (by simp [hv])) c hc.2 t ht
    have done : ∀ op, g.op? id = some op → op.face = f → op.kids = ks.map root →
        (∀ t ∈ ks, Reads g t) → Reads g (node id f ks) := fun op ho hf hk below =>
      reads_node.mpr ⟨⟨op, ho, hf, hk⟩, below⟩
    cases hs : f.kind.shape with
    | plain =>
      obtain ⟨op, ho, hf, hk, -, hr⟩ := (linked_plain hs).mp h
      exact done op ho hf hk (row ks (fun _ h => h) _ hr)
    | listed =>
      obtain ⟨op, ho, hf, hk, -, hr⟩ := (linked_listed hs).mp h
      exact done op ho hf hk (row ks (fun _ h => h) _ hr)
    | unit =>
      obtain ⟨op, ho, hf, hk, -, hr⟩ := (linked_unit hs).mp h
      exact done op ho hf hk fun t ht => ih t ht (linkedEach_iff.mp hr t ht)
    | short =>
      obtain ⟨l, r, rfl, op, ho, hf, hk, -, -, hl, hr⟩ := (linked_short hs).mp h
      refine done op ho hf hk fun t ht => ?_
      simp only [List.mem_cons, List.not_mem_nil, or_false] at ht
      rcases ht with rfl | rfl
      · exact ih _ (by simp) hl
      · exact ih _ (by simp) hr
    | choice =>
      obtain ⟨c, y, n, rfl, op, ho, hf, hk, -, -, hc, hy, hn⟩ := (linked_choice hs).mp h
      refine done op ho hf hk fun t ht => ?_
      simp only [List.mem_cons, List.not_mem_nil, or_false] at ht
      rcases ht with rfl | rfl | rfl
      · exact ih _ (by simp) hc
      · exact ih _ (by simp) hy
      · exact ih _ (by simp) hn

/-- The op of that name is the same in both graphs, its links turned by `τ`. -/
def Turned (g g' : Graph) (τ : Option OpId → Option OpId) (x : OpId) : Prop :=
  ∀ op, g.op? x = some op → ∃ op', g'.op? x = some op' ∧ op'.face = op.face ∧
    op'.kids = op.kids ∧ op'.next = τ op.next ∧ op'.other = τ op.other

/-- **A linked tree stays linked** when the links of its ops are turned, as long as those
inside the tree are kept. -/
theorem Linked.turned {g g' : Graph} {τ : Option OpId → Option OpId} {t : HostTree}
    {cont : Option OpId} (hnone : τ none = none) (hτ : ∀ x ∈ t.ids, τ (some x) = some x)
    (hg : ∀ x ∈ t.ids, Turned g g' τ x) (h : Linked g t cont) : Linked g' t (τ cont) := by
  induction t using induction generalizing cont with
  | step id f ks ih =>
    have below : ∀ k ∈ ks, k.ids ⊆ (node id f ks).ids := fun k hk =>
      ids_subset (subtrees_of_kid (t := node id f ks) hk)
    have kid : ∀ k ∈ ks, ∀ c, Linked g k c → Linked g' k (τ c) := fun k hk c hc =>
      ih k hk (fun x hx => hτ x (below k hk hx)) (fun x hx => hg x (below k hk hx)) hc
    have start : ∀ k ∈ ks, τ (some k.start) = some k.start := fun k hk =>
      hτ _ (below k hk (start_mem_ids k))
    have self : τ (some id) = some id := hτ id (root_mem_ids (node id f ks))
    have row : ∀ ts : List HostTree, (∀ t ∈ ts, t ∈ ks) → ∀ c, LinkedRow g ts c →
        LinkedRow g' ts (τ c) := by
      intro ts
      induction ts with
      | nil => intro _ _ _; trivial
      | cons u ts ihts =>
        intro hts c hc
        refine ⟨?_, ihts (fun v hv => hts v (by simp [hv])) c hc.2⟩
        have entry : entryOf ts (τ c) = τ (entryOf ts c) := by
          cases ts with
          | nil => rfl
          | cons v ts => exact (start v (hts v (by simp))).symm
        rw [entry]
        exact kid u (hts u (by simp)) _ hc.1
    have here := hg id (root_mem_ids (node id f ks))
    cases hs : f.kind.shape with
    | plain =>
      obtain ⟨op, ho, hf, hk, hn, hr⟩ := (linked_plain hs).mp h
      obtain ⟨op', ho', hf', hk', hn', -⟩ := here op ho
      refine (linked_plain hs).mpr
        ⟨op', ho', hf'.trans hf, hk'.trans hk, by rw [hn', hn], ?_⟩
      have := row ks (fun _ h => h) _ hr
      rwa [self] at this
    | listed =>
      obtain ⟨op, ho, hf, hk, hn, hr⟩ := (linked_listed hs).mp h
      obtain ⟨op', ho', hf', hk', hn', -⟩ := here op ho
      exact (linked_listed hs).mpr
        ⟨op', ho', hf'.trans hf, hk'.trans hk, by rw [hn', hn], row ks (fun _ h => h) _ hr⟩
    | unit =>
      obtain ⟨op, ho, hf, hk, hn, hr⟩ := (linked_unit hs).mp h
      obtain ⟨op', ho', hf', hk', hn', -⟩ := here op ho
      refine (linked_unit hs).mpr
        ⟨op', ho', hf'.trans hf, hk'.trans hk, by rw [hn', hn], linkedEach_iff.mpr ?_⟩
      intro k hk
      have := kid k hk none (linkedEach_iff.mp hr k hk)
      rwa [hnone] at this
    | short =>
      obtain ⟨l, r, rfl, op, ho, hf, hk, hn, hot, hl, hr⟩ := (linked_short hs).mp h
      obtain ⟨op', ho', hf', hk', hn', hot'⟩ := here op ho
      refine (linked_short hs).mpr ⟨l, r, rfl, op', ho', hf'.trans hf, hk'.trans hk,
        by rw [hn', hn], by rw [hot', hot, start r (by simp)], ?_, kid r (by simp) _ hr⟩
      have := kid l (by simp) _ hl
      rwa [self] at this
    | choice =>
      obtain ⟨c, y, n, rfl, op, ho, hf, hk, hn, hot, hc, hy, hno⟩ := (linked_choice hs).mp h
      obtain ⟨op', ho', hf', hk', hn', hot'⟩ := here op ho
      refine (linked_choice hs).mpr ⟨c, y, n, rfl, op', ho', hf'.trans hf, hk'.trans hk,
        by rw [hn', hn, start n (by simp)], by rw [hot', hot, start y (by simp)], ?_,
        kid y (by simp) _ hy, kid n (by simp) _ hno⟩
      have := kid c (by simp) _ hc
      rwa [self] at this

/-- A tree depends on its own ops only. -/
theorem Linked.congr {g g' : Graph} {t : HostTree} {cont : Option OpId}
    (hg : ∀ x ∈ t.ids, g'.op? x = g.op? x) (h : Linked g t cont) : Linked g' t cont :=
  h.turned (τ := fun c => c) rfl (fun _ _ => rfl) fun x hx op ho =>
    ⟨op, (hg x hx).trans ho, rfl, rfl, rfl, rfl⟩

theorem LinkedRow.congr {g g' : Graph} {ts : List HostTree} {cont : Option OpId}
    (hg : ∀ x ∈ idsAll ts, g'.op? x = g.op? x) (h : LinkedRow g ts cont) :
    LinkedRow g' ts cont := by
  induction ts with
  | nil => trivial
  | cons t ts ih =>
    refine ⟨h.1.congr fun x hx => hg x ?_, ih (fun x hx => hg x ?_) h.2⟩
    · rw [idsAll_cons]; exact List.mem_append_left _ hx
    · rw [idsAll_cons]; exact List.mem_append_right _ hx

theorem LinkedRow.reads {g : Graph} {ts : List HostTree} {cont : Option OpId}
    (h : LinkedRow g ts cont) : ∀ t ∈ ts, Reads g t := by
  induction ts with
  | nil => intro t ht; cases ht
  | cons t ts ih => exact List.forall_mem_cons.mpr ⟨h.1.reads, ih h.2⟩

/-- A row of trees stays linked like a single one. -/
theorem LinkedRow.turned {g g' : Graph} {τ : Option OpId → Option OpId} {ts : List HostTree}
    {cont : Option OpId} (hnone : τ none = none) (hτ : ∀ x ∈ idsAll ts, τ (some x) = some x)
    (hg : ∀ x ∈ idsAll ts, Turned g g' τ x) (h : LinkedRow g ts cont) :
    LinkedRow g' ts (τ cont) := by
  induction ts with
  | nil => trivial
  | cons t ts ih =>
    simp only [idsAll_cons, List.mem_append] at hτ hg
    refine ⟨?_, ih (fun x hx => hτ x (.inr hx)) (fun x hx => hg x (.inr hx)) h.2⟩
    have entry : entryOf ts (τ cont) = τ (entryOf ts cont) := by
      cases ts with
      | nil => rfl
      | cons u ts =>
        exact (hτ _ (.inr (by rw [idsAll_cons]; exact List.mem_append_left _ (start_mem_ids u)))).symm
    rw [entry]
    exact h.1.turned hnone (fun x hx => hτ x (.inl hx)) fun x hx => hg x (.inl hx)

/-- The ops from which a tree that is not a list is left. -/
def exits : HostTree → List OpId
  | node id f ks =>
    match f.kind.shape, ks with
    | .short, [_, r] => r.exits ++ [id]
    | .choice, [_, y, n] => y.exits ++ n.exits
    | _, _ => [id]

theorem exits_single {id : OpId} {f : Face} {ks : List HostTree} (h₁ : f.kind.shape ≠ .short)
    (h₂ : f.kind.shape ≠ .choice) : (node id f ks).exits = [id] := by
  unfold exits
  split
  · exact absurd ‹_› h₁
  · exact absurd ‹_› h₂
  · rfl

theorem exits_short {id : OpId} {f : Face} {l r : HostTree} (h : f.kind.shape = .short) :
    (node id f [l, r]).exits = r.exits ++ [id] := by
  simp only [exits, h]

theorem exits_choice {id : OpId} {f : Face} {k y n : HostTree} (h : f.kind.shape = .choice) :
    (node id f [k, y, n]).exits = y.exits ++ n.exits := by
  simp only [exits, h]

theorem exits_subset (t : HostTree) : t.exits ⊆ t.ids := by
  induction t using induction with
  | step id f ks ih =>
    unfold exits
    split
    · next l r _ =>
      have right := ih r (by simp)
      intro x hx
      simp only [List.mem_append, List.mem_singleton] at hx
      rcases hx with hx | rfl
      · simp [right hx]
      · simp
    · next c y n _ =>
      have yes := ih y (by simp)
      have no := ih n (by simp)
      intro x hx
      rcases List.mem_append.mp hx with hx | hx
      · simp [yes hx]
      · simp [no hx]
    · simp

end HostTree

end Graft
