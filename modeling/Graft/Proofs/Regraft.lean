import Graft.Proofs.HostTree
import Graft.Proofs.Lineage

/-! # Regrafting

Splicing puts trees in the place of other trees, a few siblings at a time.  `Standing` says
what a row of siblings is in a graph while it is part of the program: linked, with its ops
alive and their parents named.  `Regraft` says what it means that a row of siblings has been
put in the place of another: the new row stands where the old one stood, what is outside
has had its links turned from the old start to the new one and is otherwise as it was, and
ops of the old row that are out of use own nothing that is in use.

Regrafts follow each other (`Regraft.trans`), and a regraft below an op is one of the op
itself (`Regraft.below_row`, `Regraft.below_kid`).

With these three lemmas a batch of edits is taken apart as the compiler has put it together: each
edit is a regraft where it is made, and is carried up to the root of the program op by op.  That
is why a regraft speaks of a row and not of one tree, since the members of a run are siblings and
are replaced together; and why it says what becomes of ops *outside* the row, since that is what
an edit further on will find.

Two of its clauses are there for the edits that come later.  Old ops keep a way up to the parent
of the row, because a later edit may name one of them as the first op of its range, and climbs
from it; and an op that is out of use owns nothing in use, because marking goes down lists of
kids and must not reach what has been adopted by a unit.  Links are turned from the old start to
the new one everywhere outside, and that two regrafts turn them one after the other is the main
work in `Regraft.trans`.
-/

namespace Graft

/-- The op with its links turned; a dead op keeps them. -/
def Op.turned (τ : OpId → OpId) (op : Op) : Op :=
  if op.state = .dead then op
  else { op with next := op.next.map τ, other := op.other.map τ }

namespace Op

variable (τ : OpId → OpId) (op : Op)

theorem turned_of_live {op : Op} (h : op.state ≠ .dead) :
    op.turned τ = { op with next := op.next.map τ, other := op.other.map τ } := if_neg h

@[simp] theorem kind_turned : (op.turned τ).kind = op.kind := by unfold turned; split <;> rfl
@[simp] theorem face_turned : (op.turned τ).face = op.face := by unfold turned; split <;> rfl
@[simp] theorem kids_turned : (op.turned τ).kids = op.kids := by unfold turned; split <;> rfl
@[simp] theorem parent_turned : (op.turned τ).parent = op.parent := by unfold turned; split <;> rfl
@[simp] theorem state_turned : (op.turned τ).state = op.state := by unfold turned; split <;> rfl
@[simp] theorem heir_turned : (op.turned τ).heir = op.heir := by unfold turned; split <;> rfl

theorem turned_id : op.turned (fun x => x) = op := by
  unfold turned
  split
  · rfl
  · simp

theorem turned_turned (σ : OpId → OpId) :
    (op.turned τ).turned σ = op.turned fun x => σ (τ x) := by
  by_cases h : op.state = .dead
  · simp only [turned, if_pos h]
  · simp only [turned, if_neg h, Option.map_map]
    rfl

theorem turned_with_kids (kids : List OpId) :
    { op with kids := kids }.turned τ = { op.turned τ with kids := kids } := by
  unfold turned
  dsimp only
  split <;> rfl

end Op

namespace Graph

variable {g g₁ g₂ : Graph}

theorem kinds_trans
    (h : ∀ x op, g.op? x = some op → ∃ op', g₁.op? x = some op' ∧ op'.kind = op.kind)
    (h' : ∀ x op, g₁.op? x = some op → ∃ op', g₂.op? x = some op' ∧ op'.kind = op.kind) (x : OpId)
    (op : Op) (ho : g.op? x = some op) : ∃ op', g₂.op? x = some op' ∧ op'.kind = op.kind := by
  obtain ⟨op₁, ho₁, hk₁⟩ := h x op ho
  obtain ⟨op₂, ho₂, hk₂⟩ := h' x op₁ ho₁
  exact ⟨op₂, ho₂, hk₂.trans hk₁⟩

/-- An op that is there after the second change was added by it, or was there after the first. -/
theorem kind_before
    (h' : ∀ x op, g₁.op? x = some op → ∃ op', g₂.op? x = some op' ∧ op'.kind = op.kind) {x : OpId}
    {op : Op} (ho : g₂.op? x = some op) :
    g₁.size ≤ x.index ∨ ∃ op₁, g₁.op? x = some op₁ ∧ op.kind = op₁.kind := by
  cases ho₁ : g₁.op? x with
  | none => exact .inl (op?_eq_none_iff.mp ho₁)
  | some op₁ =>
    obtain ⟨op₂, ho₂, hk⟩ := h' x op₁ ho₁
    obtain rfl : op = op₂ := Option.some.inj (ho.symm.trans ho₂)
    exact .inr ⟨op₁, rfl, hk⟩

/-- If only units are added twice, only units are added. -/
theorem added_trans
    (hk : ∀ x op, g₁.op? x = some op → ∃ op', g₂.op? x = some op' ∧ op'.kind = op.kind)
    (h : ∀ x op, g.size ≤ x.index → g₁.op? x = some op → op.kind.shape = .unit)
    (h' : ∀ x op, g₁.size ≤ x.index → g₂.op? x = some op → op.kind.shape = .unit) (x : OpId) (op : Op)
    (hx : g.size ≤ x.index) (ho : g₂.op? x = some op) : op.kind.shape = .unit := by
  rcases kind_before hk ho with hx₁ | ⟨op₁, ho₁, hk₁⟩
  · exact h' x op hx₁ ho
  · rw [hk₁]
    exact h x op₁ hx ho₁

end Graph

namespace HostTree

variable {g g' : Graph} {p cont : Option OpId} {t : HostTree} {ts : List HostTree}

/-! ### Seated trees -/

mutual

/-- The ops of the tree are not dead and name their parents, the root `p`; only ops that
choose have a branch. -/
def Seated (g : Graph) : Option OpId → HostTree → Prop
  | p, node id f ks =>
    (∀ op, g.op? id = some op → op.parent = p ∧ op.state ≠ .dead ∧
      (f.kind.shape ≠ .short → f.kind.shape ≠ .choice → op.other = none)) ∧
    SeatedAll g (some id) ks

def SeatedAll (g : Graph) : Option OpId → List HostTree → Prop
  | _, [] => True
  | p, t :: ts => Seated g p t ∧ SeatedAll g p ts

end

theorem seatedAll_iff : SeatedAll g p ts ↔ ∀ t ∈ ts, Seated g p t := by
  induction ts with
  | nil => simp [SeatedAll]
  | cons t ts ih => simp [SeatedAll, ih]

theorem seated_node {id : OpId} {f : Face} {ks : List HostTree} :
    Seated g p (node id f ks) ↔
      (∀ op, g.op? id = some op → op.parent = p ∧ op.state ≠ .dead ∧
        (f.kind.shape ≠ .short → f.kind.shape ≠ .choice → op.other = none)) ∧
      ∀ k ∈ ks, Seated g (some id) k := by
  rw [Seated, seatedAll_iff]

/-- What being seated asks of an op. -/
def SameSeat (g g' : Graph) (x : OpId) : Prop := ∀ op', g'.op? x = some op' →
  ∃ op, g.op? x = some op ∧ op'.parent = op.parent ∧ (op.state ≠ .dead → op'.state ≠ .dead) ∧
    (op.other = none → op'.other = none)

theorem Seated.transport (h : Seated g p t) (hg : ∀ x ∈ t.ids, SameSeat g g' x) :
    Seated g' p t := by
  induction t using induction generalizing p with
  | step id f ks ih =>
    obtain ⟨here, below⟩ := seated_node.mp h
    refine seated_node.mpr ⟨fun op' ho' => ?_, fun k hk => ih k hk (below k hk) fun x hx => ?_⟩
    · obtain ⟨op, ho, hp, hs, hother⟩ := hg id (root_mem_ids _) op' ho'
      obtain ⟨hparent, hlive, hstraight⟩ := here op ho
      exact ⟨hp.trans hparent, hs hlive, fun h₁ h₂ => hother (hstraight h₁ h₂)⟩
    · exact hg x (ids_subset (subtrees_of_kid (t := node id f ks) hk) hx)

/-- A seated tree may get another parent. -/
theorem Seated.reroot {q : Option OpId} (h : Seated g p t) (hn : t.ids.Nodup)
    (hroot : ∀ op', g'.op? t.root = some op' → ∃ op, g.op? t.root = some op ∧ op'.parent = q ∧
      (op.state ≠ .dead → op'.state ≠ .dead) ∧ (op.other = none → op'.other = none))
    (hrest : ∀ x ∈ t.ids, x ≠ t.root → SameSeat g g' x) : Seated g' q t := by
  cases t with
  | node id f ks =>
    obtain ⟨here, below⟩ := seated_node.mp h
    refine seated_node.mpr ⟨fun op' ho' => ?_, fun k hk => (below k hk).transport fun x hx => ?_⟩
    · obtain ⟨op, ho, hq, hstate, hother⟩ := hroot op' ho'
      obtain ⟨-, hlive, hstraight⟩ := here op ho
      exact ⟨hq, hstate hlive, fun h₁ h₂ => hother (hstraight h₁ h₂)⟩
    · refine hrest x (ids_subset (subtrees_of_kid (t := node id f ks) hk) hx) fun he => ?_
      exact (nodup_kids hn).1 (mem_idsAll.mpr ⟨k, hk, by rwa [he] at hx⟩)

theorem Seated.live (h : Seated g p t) {x : OpId} (hx : x ∈ t.ids) {op : Op}
    (ho : g.op? x = some op) : op.state ≠ .dead := by
  induction t using induction generalizing p with
  | step id f ks ih =>
    obtain ⟨here, below⟩ := seated_node.mp h
    rw [ids_node, List.mem_cons, mem_idsAll] at hx
    rcases hx with rfl | ⟨k, hk, hx⟩
    · exact (here op ho).2.1
    · exact ih k hk (below k hk) hx

/-- `x` rises to an op whose parent is `p`. -/
def Tops (g : Graph) (S : OpId → Prop) (p : Option OpId) (x : OpId) : Prop :=
  ∃ top op, g.Rises S x top ∧ S top ∧ g.op? top = some op ∧ op.parent = p

theorem Tops.mono {S S' : OpId → Prop} {x : OpId} (h : Tops g S p x) (hS : ∀ u, S u → S' u) :
    Tops g S' p x := by
  obtain ⟨top, op, hr, hs, ho, hp⟩ := h
  exact ⟨top, op, hr.mono hS, hS top hs, ho, hp⟩

theorem Tops.exists_op? {S : OpId → Prop} {x : OpId} (h : Tops g S p x) :
    ∃ op, g.op? x = some op := by
  obtain ⟨top, op, hr, -, ho, -⟩ := h
  rcases Relation.ReflTransGen.cases_head hr with rfl | ⟨v, ⟨⟨o, hx, -⟩, -⟩, -⟩
  · exact ⟨op, ho⟩
  · exact ⟨o, hx⟩

/-- A way up goes on where it ends. -/
theorem Tops.trans {S : OpId → Prop} {x y : OpId} (h : Tops g S (some y) x) (hy : S y)
    (h' : Tops g S p y) : Tops g S p x := by
  obtain ⟨top, op, hr, hs, ho, hp⟩ := h
  obtain ⟨top', op', hr', hs', ho', hp'⟩ := h'
  exact ⟨top', op', .trans hr (.head ⟨⟨op, ho, hp⟩, hy⟩ hr'), hs', ho', hp'⟩

theorem Tops.head {S : OpId → Prop} {x y : OpId} (h : g.Up x y) (hy : S y) (h' : Tops g S p y) :
    Tops g S p x := by
  obtain ⟨top, op, hr, hs, ho, hp⟩ := h'
  exact ⟨top, op, .head ⟨h, hy⟩ hr, hs, ho, hp⟩

theorem seated_root (h : Seated g p t) (op : Op) (ho : g.op? t.root = some op) :
    op.parent = p ∧ op.state ≠ .dead := by
  cases t with
  | node id f ks =>
    obtain ⟨hp, hlive, -⟩ := (seated_node.mp h).1 op ho
    exact ⟨hp, hlive⟩

/-- From every op of a seated tree parents lead to the root. -/
theorem Seated.rises (h : Seated g p t) (hr : Reads g t) {x : OpId} (hx : x ∈ t.ids) :
    g.Rises (· ∈ t.ids) x t.root := by
  induction t using induction generalizing p with
  | step id f ks ih =>
    obtain ⟨-, below⟩ := seated_node.mp h
    obtain ⟨-, reads⟩ := reads_node.mp hr
    rw [ids_node, List.mem_cons, mem_idsAll] at hx
    rcases hx with rfl | ⟨k, hk, hx⟩
    · exact .refl
    · have way := (ih k hk (below k hk) (reads k hk) hx).mono
        (ids_subset (subtrees_of_kid (t := node id f ks) hk))
      obtain ⟨op, ho⟩ := Graph.exists_op? ((reads k hk).lt_size (root_mem_ids k))
      have up : g.Up k.root id := ⟨op, ho, (seated_root (below k hk) op ho).1⟩
      exact .tail way ⟨up, root_mem_ids (node id f ks)⟩

theorem Seated.tops (h : Seated g p t) (hr : Reads g t) {x : OpId} (hx : x ∈ t.ids) :
    Tops g (· ∈ t.ids) p x := by
  obtain ⟨op, ho⟩ := Graph.exists_op? (hr.lt_size (root_mem_ids t))
  exact ⟨t.root, op, h.rises hr hx, root_mem_ids t, ho, (seated_root h op ho).1⟩

/-- The kids of an op of a seated tree name it as their parent. -/
theorem Seated.up_of_kid (h : Seated g p t) (hr : Reads g t) {x k : OpId} (hx : x ∈ t.ids)
    (hk : g.Kid x k) : g.Up k x := by
  induction t using induction generalizing p with
  | step id f ks ih =>
    obtain ⟨-, below⟩ := seated_node.mp h
    obtain ⟨⟨op, ho, -, hkids⟩, reads⟩ := reads_node.mp hr
    rw [ids_node, List.mem_cons, mem_idsAll] at hx
    rcases hx with rfl | ⟨u, hu, hx⟩
    · obtain ⟨op', ho', hmem⟩ := hk
      obtain rfl : op = op' := Option.some.inj (ho.symm.trans ho')
      rw [hkids] at hmem
      obtain ⟨u, hu, rfl⟩ := List.mem_map.mp hmem
      obtain ⟨o, hou⟩ := Graph.exists_op? ((reads u hu).lt_size (root_mem_ids u))
      cases u with
      | node id' f' ks' => exact ⟨o, hou, ((seated_node.mp (below _ hu)).1 o hou).1⟩
    · exact ih u hu (below u hu) (reads u hu) hx

/-! ### Rows that stand in a graph -/

/-- An op of the graph that is not in the row. -/
def Outside (g : Graph) (ts : List HostTree) (x : OpId) : Prop := x ∉ idsAll ts ∧ x.index < g.size

/-- An op of the row, or one that is added later. -/
def Within (g : Graph) (ts : List HostTree) (x : OpId) : Prop := x ∈ idsAll ts ∨ g.size ≤ x.index

theorem Outside.not_within {x : OpId} (h : Outside g ts x) : ¬ Within g ts x := by
  rintro (hx | hx)
  · exact h.1 hx
  · exact Nat.not_le.mpr h.2 hx

theorem outside_of_not_within {x : OpId} (h : ¬ Within g ts x) : Outside g ts x :=
  ⟨fun hx => h (.inl hx), Nat.not_le.mp fun hx => h (.inr hx)⟩

/-- The row of siblings below `p` is part of the program and continues at `cont`. -/
structure Standing (g : Graph) (p cont : Option OpId) (ts : List HostTree) : Prop where
  linked : LinkedRow g ts cont
  seated : SeatedAll g p ts
  nodup : (idsAll ts).Nodup
  cont_outside : ∀ c, cont = some c → Outside g ts c
  parent_outside : ∀ q, p = some q → Outside g ts q
  root_old : ∀ r, g.root = some r → r.index < g.size
  /-- The root of the graph is no op of the row, unless the row is at the top. -/
  root_outside : ∀ r, g.root = some r → ∀ t ∈ ts, r ∈ t.ids → p = none ∧ r = t.root

namespace Standing

theorem reads (h : Standing g p cont ts) (ht : t ∈ ts) : Reads g t := h.linked.reads t ht

theorem lt_size (h : Standing g p cont ts) {x : OpId} (hx : x ∈ idsAll ts) : x.index < g.size := by
  obtain ⟨t, ht, hx⟩ := mem_idsAll.mp hx
  exact (h.reads ht).lt_size hx

theorem exists_op? (h : Standing g p cont ts) {x : OpId} (hx : x ∈ idsAll ts) :
    ∃ op, g.op? x = some op := Graph.exists_op? (h.lt_size hx)

theorem live (h : Standing g p cont ts) {x : OpId} (hx : x ∈ idsAll ts) {op : Op}
    (ho : g.op? x = some op) : op.state ≠ .dead := by
  obtain ⟨t, ht, hx⟩ := mem_idsAll.mp hx
  exact (seatedAll_iff.mp h.seated t ht).live hx ho

theorem up_of_kid (h : Standing g p cont ts) {x k : OpId} (hx : x ∈ idsAll ts) (hk : g.Kid x k) :
    g.Up k x := by
  obtain ⟨t, ht, hx⟩ := mem_idsAll.mp hx
  exact (seatedAll_iff.mp h.seated t ht).up_of_kid (h.reads ht) hx hk

theorem kids_nodup (h : Standing g p cont ts) {x : OpId} (hx : x ∈ idsAll ts) {op : Op}
    (ho : g.op? x = some op) : op.kids.Nodup := by
  obtain ⟨t, ht, hx⟩ := mem_idsAll.mp hx
  obtain ⟨s, hs, rfl⟩ := mem_ids.mp hx
  obtain ⟨op', ho', -, hkids⟩ := h.reads ht s hs
  obtain rfl : op = op' := Option.some.inj (ho.symm.trans ho')
  have nodup := nodup_of_subtree hs (nodup_of_mem ht h.nodup)
  cases s with
  | node id f ks =>
    rw [hkids]
    exact (nodup_kids nodup).2.sublist (map_root_sublist ks)

/-- Every op of the row rises to its parent. -/
theorem tops (h : Standing g p cont ts) {x : OpId} (hx : x ∈ idsAll ts) :
    Tops g (Within g ts) p x := by
  obtain ⟨t, ht, hx⟩ := mem_idsAll.mp hx
  exact ((seatedAll_iff.mp h.seated t ht).tops (h.reads ht) hx).mono
    fun u hu => .inl (mem_idsAll.mpr ⟨t, ht, hu⟩)

end Standing

/-! ### Putting a row in the place of another -/

/-- Outside the old row, links are turned by `τ` from the old start to the new one, and the
parent lists the new row; nothing else is changed. -/
structure Moves (g g' : Graph) (p : Option OpId) (ts ts' : List HostTree) (τ : OpId → OpId) :
    Prop where
  fixes : ∀ x, Outside g ts x → τ x = x
  maps : ∀ x ∈ idsAll ts, Within g ts (τ x) ∧ (τ x).index < g'.size
  start : (entryOf ts none).map τ = entryOf ts' none
  entry : g'.entry = g.entry.map τ
  ops : ∀ x op, x ∉ idsAll ts → some x ≠ p → g.op? x = some op → g'.op? x = some (op.turned τ)
  parent : ∀ q op, p = some q → g.op? q = some op → ∃ kids,
    g'.op? q = some { op.turned τ with kids := kids } ∧
      ∀ as bs, op.kids.Nodup → op.kids = as ++ ts.map root ++ bs → kids = as ++ ts'.map root ++ bs

/-- **The row `ts'` has been put in the place of the row `ts` below `p`.** -/
structure Regraft (g g' : Graph) (p : Option OpId) (ts ts' : List HostTree) : Prop where
  owner : g'.owner = g.owner
  size_le : g.size ≤ g'.size
  /-- No op changes its kind. -/
  kinds : ∀ x op, g.op? x = some op → ∃ op', g'.op? x = some op' ∧ op'.kind = op.kind
  within : ∀ x ∈ idsAll ts', Within g ts x
  /-- What was added are units, and units stay in use. -/
  added : ∀ x op, g.size ≤ x.index → g'.op? x = some op → op.kind.shape = .unit
  units : ∀ x op, Within g ts x → g'.op? x = some op → op.kind.shape = .unit → x ∈ idsAll ts'
  standing : ∀ cont, Standing g p cont ts → Standing g' p cont ts'
  moves : ∃ τ, Moves g g' p ts ts' τ
  root_inner : p ≠ none → g'.root = g.root
  root_outer : p = none → ∀ t t', ts = [t] → ts' = [t'] → g.root = some t.root →
    g'.root = some t'.root
  /-- From the old ops parents still lead to `p`. -/
  rises : ∀ x ∈ idsAll ts, Tops g' (Within g ts) p x
  /-- What is out of use owns nothing that is in use. -/
  shed : ∀ y ∈ idsAll ts, y ∉ idsAll ts' → ∀ k, g'.Kid y k →
    Within g ts k ∧ k ∉ idsAll ts' ∧ k.index < g'.size
  ordered : g.Ordered → g'.Ordered
  /-- What stood outside stands there still; the new start and the new exits stand where the
  old ones stood. -/
  stands : ∀ x y, y ∉ idsAll ts → g.Stands x y → g'.Stands x y
  stands_start : ∀ x y y', entryOf ts none = some y → entryOf ts' none = some y' →
    g.Stands x y → g'.Stands x y'
  stands_root : ∀ t t', ts = [t] → ts' = [t'] → ∀ x, g.Stands x t.root → g'.Stands x t'.root
  stands_exits : ∀ t t', ts = [t] → ts' = [t'] →
    List.Forall₂ (fun y y' => ∀ x, g.Stands x y → g'.Stands x y') t.exits t'.exits

theorem Standing.regraft_refl (h : Standing g p cont ts) : Regraft g g p ts ts where
  owner := rfl
  size_le := Nat.le_refl _
  kinds _ op ho := ⟨op, ho, rfl⟩
  within _ hx := .inl hx
  added _ _ hx ho := absurd (Graph.lt_size_of_op? ho) (Nat.not_lt.mpr hx)
  units _ _ hx ho _ := hx.elim id fun hx => absurd (Graph.lt_size_of_op? ho) (Nat.not_lt.mpr hx)
  standing _ hs := hs
  moves := by
    refine ⟨fun x => x, fun _ _ => rfl, fun x hx => ⟨.inl hx, h.lt_size hx⟩, by simp, by simp,
      fun x op _ _ ho => ?_, fun q op _ ho => ?_⟩
    · rw [ho, Op.turned_id]
    · exact ⟨op.kids, by rw [ho, Op.turned_id], fun _ _ _ hk => hk⟩
  root_inner _ := rfl
  root_outer _ t t' ht ht' hr := by
    rw [ht] at ht'
    cases ht'
    exact hr
  rises _ hx := h.tops hx
  shed _ hy hy' := absurd hy hy'
  ordered ho := ho
  stands _ _ _ hs := hs
  stands_start x y y' hy hy' hs := by
    rw [hy] at hy'
    cases hy'
    exact hs
  stands_root t t' ht ht' x hx := by
    rw [ht] at ht'
    cases ht'
    exact hx
  stands_exits t t' ht ht' := by
    rw [ht] at ht'
    cases ht'
    exact List.forall₂_same.mpr fun _ _ _ hs => hs

theorem forall₂_comp {α β γ : Type} {R : α → β → Prop} {Q : β → γ → Prop} {P : α → γ → Prop}
    (hP : ∀ a b c, R a b → Q b c → P a c) {as : List α} {bs : List β} {cs : List γ}
    (h : List.Forall₂ R as bs) (h' : List.Forall₂ Q bs cs) : List.Forall₂ P as cs := by
  induction h generalizing cs with
  | nil => cases h'; exact .nil
  | cons hr _ ih =>
    cases h' with
    | cons hq hrest => exact .cons (hP _ _ _ hr hq) (ih hrest)

namespace Moves

variable {ts' : List HostTree} {τ : OpId → OpId}

/-- An op outside, the parent included. -/
theorem op (h : Moves g g' p ts ts' τ) {x : OpId} {op : Op} (hx : x ∉ idsAll ts)
    (ho : g.op? x = some op) :
    ∃ kids, g'.op? x = some { op.turned τ with kids := kids } ∧ (some x ≠ p → kids = op.kids) := by
  by_cases hp : some x = p
  · obtain ⟨kids, ho', -⟩ := h.parent x op hp.symm ho
    exact ⟨kids, ho', fun hne => absurd hp hne⟩
  · refine ⟨op.kids, ?_, fun _ => rfl⟩
    rw [h.ops x op hx hp ho, ← Op.kids_turned τ op]

/-- The links of a live op outside are turned. -/
theorem turned (h : Moves g g' p ts ts' τ) {x : OpId} (hx : x ∉ idsAll ts) (hp : some x ≠ p)
    (hl : ∀ op, g.op? x = some op → op.state ≠ .dead) : Turned g g' (Option.map τ) x := by
  intro op ho
  refine ⟨op.turned τ, h.ops x op hx hp ho, by simp, by simp, ?_, ?_⟩ <;>
    rw [Op.turned_of_live τ (hl op ho)]

end Moves

namespace Regraft

variable {g₁ g₂ : Graph} {ts' : List HostTree}

theorem outside (h : Regraft g g' p ts ts') {x : OpId} (hx : Outside g ts x) : Outside g' ts' x :=
  ⟨fun hx' => hx.not_within (h.within x hx'), Nat.lt_of_lt_of_le hx.2 h.size_le⟩

theorem within_of_within (h : Regraft g g' p ts ts') {x : OpId} (hx : Within g' ts' x) :
    Within g ts x :=
  hx.elim (h.within x) fun hx => .inr (Nat.le_trans h.size_le hx)

/-- A way up to `p` is not lost. -/
theorem tops (h : Regraft g g' p ts ts') {S : OpId → Prop} (hS : ∀ u, Within g ts u → S u) {x : OpId}
    (hx : Tops g S p x) : Tops g' S p x := by
  obtain ⟨τ, hτ⟩ := h.moves
  have inside : ∀ u ∈ idsAll ts, Tops g' S p u := fun u hu => (h.rises u hu).mono hS
  have parent : ∀ u op, u ∉ idsAll ts → g.op? u = some op →
      ∃ op', g'.op? u = some op' ∧ op'.parent = op.parent := by
    intro u op hu ho
    obtain ⟨kids, ho', -⟩ := hτ.op hu ho
    exact ⟨_, ho', Op.parent_turned τ op⟩
  obtain ⟨top, op, hr, hs, ho, hp⟩ := hx
  induction hr using Relation.ReflTransGen.head_induction_on with
  | refl =>
    by_cases hu : top ∈ idsAll ts
    · exact inside top hu
    · obtain ⟨op', ho', hp'⟩ := parent top op hu ho
      exact ⟨top, op', .refl, hs, ho', hp'.trans hp⟩
  | @head u v step _ ih =>
    by_cases hu : u ∈ idsAll ts
    · exact inside u hu
    · obtain ⟨⟨o, hou, hup⟩, hv⟩ := step
      obtain ⟨o', ho', hp'⟩ := parent u o hu hou
      exact .head ⟨o', ho', hp'.trans hup⟩ hv ih

theorem moves_trans {t t₁ t₂ : HostTree} {τ σ : OpId → OpId} (h : Regraft g g₁ p [t] [t₁])
    (hτ : Moves g g₁ p [t] [t₁] τ) (hσ : Moves g₁ g₂ p [t₁] [t₂] σ) (hsize : g₁.size ≤ g₂.size)
    (hroot : t₁.root = t.root) : Moves g g₂ p [t] [t₂] fun x => σ (τ x) where
  fixes x hx := by rw [hτ.fixes x hx, hσ.fixes x (h.outside hx)]
  maps x hx := by
    obtain ⟨hw, hlt⟩ := hτ.maps x hx
    by_cases hin : τ x ∈ idsAll [t₁]
    · obtain ⟨hw₁, hlt₁⟩ := hσ.maps _ hin
      exact ⟨h.within_of_within hw₁, hlt₁⟩
    · rw [hσ.fixes _ ⟨hin, hlt⟩]
      exact ⟨hw, Nat.lt_of_lt_of_le hlt hsize⟩
  start := by
    rw [← hσ.start, ← hτ.start, Option.map_map]
    rfl
  entry := by
    rw [hσ.entry, hτ.entry, Option.map_map]
    rfl
  ops x op hx hxp ho := by
    have hx₁ := (h.outside ⟨hx, Graph.lt_size_of_op? ho⟩).1
    rw [hσ.ops x _ hx₁ hxp (hτ.ops x op hx hxp ho), Op.turned_turned]
  parent q op hq ho := by
    obtain ⟨kids₁, ho₁, hkids₁⟩ := hτ.parent q op hq ho
    obtain ⟨kids₂, ho₂, hkids₂⟩ := hσ.parent q _ hq ho₁
    refine ⟨kids₂, ?_, fun as bs hn hk => ?_⟩
    · rw [ho₂, Op.turned_with_kids, Op.turned_turned]
    · have same := hkids₁ as bs hn hk
      simp only [List.map_cons, List.map_nil, hroot] at same hk
      have kept : kids₁ = op.kids := same.trans hk.symm
      refine hkids₂ as bs (kept ▸ hn) ?_
      simpa only [List.map_cons, List.map_nil, hroot] using same

/-- **One regraft after the other**, the root kept by the first. -/
theorem trans {t t₁ t₂ : HostTree} (h : Regraft g g₁ p [t] [t₁]) (h' : Regraft g₁ g₂ p [t₁] [t₂])
    (hroot : t₁.root = t.root) (hp : ∀ q, p = some q → q ∉ idsAll [t]) : Regraft g g₂ p [t] [t₂] where
  owner := h'.owner.trans h.owner
  size_le := Nat.le_trans h.size_le h'.size_le
  kinds := Graph.kinds_trans h.kinds h'.kinds
  within x hx := h.within_of_within (h'.within x hx)
  added := Graph.added_trans h'.kinds h.added h'.added
  units x op hx ho hu := by
    -- a unit that the first regraft left is in its tree, any other is new to the second
    refine h'.units x op ?_ ho hu
    rcases Graph.kind_before h'.kinds ho with hnew | ⟨op₁, ho₁, hk⟩
    · exact .inr hnew
    · exact .inl (h.units x op₁ hx ho₁ (hk ▸ hu))
  standing cont hs := h'.standing cont (h.standing cont hs)
  moves := by
    obtain ⟨τ, hτ⟩ := h.moves
    obtain ⟨σ, hσ⟩ := h'.moves
    exact ⟨_, h.moves_trans hτ hσ h'.size_le hroot⟩
  root_inner hne := (h'.root_inner hne).trans (h.root_inner hne)
  root_outer hnone u u' hu hu' hr := by
    cases hu
    cases hu'
    exact h'.root_outer hnone t₁ t₂ rfl rfl (h.root_outer hnone t t₁ rfl rfl hr)
  rises x hx := h'.tops (fun u hu => h.within_of_within hu) (h.rises x hx)
  shed y hy hy₂ k hk := by
    obtain ⟨op₂, ho₂, hmem⟩ := hk
    by_cases hy₁ : y ∈ idsAll [t₁]
    · obtain ⟨hw, hout, hlt⟩ := h'.shed y hy₁ hy₂ k ⟨op₂, ho₂, hmem⟩
      exact ⟨h.within_of_within hw, hout, hlt⟩
    · -- out of use since the first regraft, and not touched by the second
      obtain ⟨σ, hσ⟩ := h'.moves
      obtain ⟨op₁, ho₁⟩ := (h.rises y hy).exists_op?
      obtain ⟨kids, ho₂', hkids⟩ := hσ.op hy₁ ho₁
      rw [ho₂] at ho₂'
      cases ho₂'
      obtain rfl := hkids fun hyp => hp y hyp.symm hy
      obtain ⟨hw, hout, hlt⟩ := h.shed y hy hy₁ k ⟨op₁, ho₁, hmem⟩
      obtain ⟨hout₂, hlt₂⟩ := h'.outside ⟨hout, hlt⟩
      exact ⟨hw, hout₂, hlt₂⟩
  ordered ho := h'.ordered (h.ordered ho)
  stands x y hy hs := by
    obtain ⟨op, ho, -⟩ := hs.2
    exact h'.stands x y (h.outside ⟨hy, Graph.lt_size_of_op? ho⟩).1 (h.stands x y hy hs)
  stands_start x y y' hy hy' hs := by
    exact h'.stands_start x t₁.start y' rfl hy' (h.stands_start x y t₁.start hy rfl hs)
  stands_root u u' hu hu' x hx := by
    cases hu
    cases hu'
    exact h'.stands_root t₁ t₂ rfl rfl x (h.stands_root t t₁ rfl rfl x hx)
  stands_exits u u' hu hu' := by
    cases hu
    cases hu'
    exact forall₂_comp (fun _ _ _ hs hs' x hx => hs' x (hs x hx))
      (h.stands_exits t t₁ rfl rfl) (h'.stands_exits t₁ t₂ rfl rfl)

end Regraft

/-! ### Regrafts below an op -/

section Node

variable {id : OpId} {f : Face} {as bs ks ks' : List HostTree} {τ : OpId → OpId}

/-- A part of the kids of a standing op stands below it. -/
theorem Standing.segment (hN : Standing g p cont [node id f (as ++ ks ++ bs)])
    {c : Option OpId} (hl : LinkedRow g ks c) (hc : ∀ x, c = some x → Outside g ks x) :
    Standing g (some id) c ks where
  linked := hl
  seated := by
    have seated := (seated_node.mp hN.seated.1).2
    exact seatedAll_iff.mpr fun k hk => seated k (by simp [hk])
  nodup := by
    have nodup := hN.nodup
    simp only [idsAll_cons, idsAll_nil, ids_node, idsAll_append, List.append_nil, List.nodup_cons,
      List.nodup_append] at nodup
    exact nodup.2.1.2.1
  cont_outside := hc
  parent_outside q hq := by
    cases hq
    have nodup := hN.nodup
    simp only [idsAll_cons, idsAll_nil, ids_node, idsAll_append, List.append_nil, List.nodup_cons,
      List.mem_append, not_or] at nodup
    exact ⟨nodup.1.1.2, hN.lt_size (by simp)⟩
  root_old := hN.root_old
  root_outside r hr k hk hrk := by
    have nodup := hN.nodup
    simp only [idsAll_cons, idsAll_nil, ids_node, idsAll_append, List.append_nil, List.nodup_cons,
      List.mem_append, not_or] at nodup
    have hks := mem_idsAll.mpr ⟨k, hk, hrk⟩
    obtain ⟨-, top⟩ := hN.root_outside r hr (node id f (as ++ ks ++ bs)) (by simp) (by simp [hks])
    rw [top, root_node] at hks
    exact absurd hks nodup.1.1.2

/-- What is in the node but not in the part is outside it. -/
theorem Standing.outside_segment (hN : Standing g p cont [node id f (as ++ ks ++ bs)]) :
    Outside g ks id ∧ (∀ x ∈ idsAll as, Outside g ks x) ∧ ∀ x ∈ idsAll bs, Outside g ks x := by
  have nodup := hN.nodup
  simp only [idsAll_cons, idsAll_nil, ids_node, idsAll_append, List.append_nil, List.nodup_cons,
    List.nodup_append, List.mem_append, not_or] at nodup
  obtain ⟨⟨⟨-, hid⟩, -⟩, ⟨-, -, hak⟩, -, hkb⟩ := nodup
  refine ⟨⟨hid, hN.lt_size (by simp)⟩, fun x hx => ⟨fun hx' => hak x hx x hx' rfl, ?_⟩,
    fun x hx => ⟨fun hx' => hkb x (.inr hx') x hx rfl, ?_⟩⟩
  · exact hN.lt_size (by simp [hx])
  · exact hN.lt_size (by simp [hx])

theorem Regraft.within_node (h : Regraft g g' (some id) ks ks') {x : OpId}
    (hx : x ∈ idsAll [node id f (as ++ ks' ++ bs)]) :
    Within g [node id f (as ++ ks ++ bs)] x := by
  simp only [idsAll_cons, idsAll_nil, ids_node, idsAll_append, List.append_nil, List.mem_cons,
    List.mem_append] at hx
  rcases hx with rfl | (hx | hx) | hx
  · exact .inl (by simp)
  · exact .inl (by simp [hx])
  · exact (h.within x hx).imp (fun hx => by simp [hx]) fun hx => hx
  · exact .inl (by simp [hx])

/-- The start of an op is kept, or it is that of the regrafted kids. -/
theorem Moves.starts (hτ : Moves g g' (some id) ks ks' τ)
    (hN : Standing g p cont [node id f (as ++ ks ++ bs)]) (hu : f.kind.shape ≠ .unit) :
    (Outside g ks (node id f (as ++ ks ++ bs)).start ∧
      (node id f (as ++ ks ++ bs)).start = (node id f (as ++ ks' ++ bs)).start) ∨
    (entryOf ks none = some (node id f (as ++ ks ++ bs)).start ∧
      entryOf ks' none = some (node id f (as ++ ks' ++ bs)).start) := by
  obtain ⟨idOut, inAs, inBs⟩ := hN.outside_segment
  have start := hτ.start
  cases as with
  | cons a as =>
    refine .inl ⟨?_, by simp only [List.cons_append, start_cons hu]⟩
    rw [List.cons_append, List.cons_append, start_cons hu]
    exact inAs _ (by simp [start_mem_ids])
  | nil =>
    cases ks with
    | cons k ks =>
      cases ks' with
      | nil => cases start
      | cons k' ks' =>
        refine .inr ⟨?_, ?_⟩ <;> simp only [List.nil_append, List.cons_append, start_cons hu] <;> rfl
    | nil =>
      cases ks' with
      | cons k' ks' => cases start
      | nil =>
        refine .inl ⟨?_, rfl⟩
        cases bs with
        | nil => rw [List.append_nil, List.append_nil, start_leaf]; exact idOut
        | cons b bs =>
          rw [List.nil_append, List.nil_append, start_cons hu]
          exact inBs _ (by simp [start_mem_ids])

/-- An op whose kids were regrafted lists the new ones. -/
theorem Moves.here (hτ : Moves g g' (some id) ks ks' τ)
    (hN : Standing g p cont [node id f (as ++ ks ++ bs)]) :
    ∃ op, g.op? id = some op ∧ op.face = f ∧ op.kids = (as ++ ks ++ bs).map root ∧
      op.state ≠ .dead ∧
      g'.op? id = some { op with
        next := op.next.map τ, other := op.other.map τ, kids := (as ++ ks' ++ bs).map root } := by
  obtain ⟨⟨op, ho, hf, hk⟩, -⟩ := reads_node.mp hN.linked.1.reads
  have live : op.state ≠ .dead := hN.live (by simp) ho
  obtain ⟨kids, ho', hkids⟩ := hτ.parent id op rfl ho
  have nodup : op.kids.Nodup := by
    have nodup := hN.nodup
    simp only [idsAll_cons, idsAll_nil, ids_node, List.append_nil, List.nodup_cons] at nodup
    rw [hk]
    exact nodup.2.sublist (map_root_sublist _)
  have new := hkids (as.map root) (bs.map root) nodup (by rw [hk]; simp)
  refine ⟨op, ho, hf, hk, live, ?_⟩
  rw [ho', new, Op.turned_of_live τ live]
  simp

/-- A row outside the regrafted part stays linked and seated. -/
theorem Moves.apart (hτ : Moves g g' (some id) ks ks' τ) (us : List HostTree)
    (hus : ∀ x ∈ idsAll us, Outside g ks x ∧ x ≠ id ∧ ∀ op, g.op? x = some op → op.state ≠ .dead) :
    (∀ {c}, LinkedRow g us c → LinkedRow g' us (c.map τ)) ∧
      ∀ x ∈ idsAll us, τ x = x ∧ SameSeat g g' x := by
  have turned : ∀ x ∈ idsAll us, Turned g g' (Option.map τ) x := by
    intro x hx
    obtain ⟨hout, hne, hlive⟩ := hus x hx
    exact hτ.turned hout.1 (fun h => hne (Option.some.inj h)) hlive
  refine ⟨fun hl => hl.turned rfl (fun x hx => ?_) turned, fun x hx => ?_⟩
  · exact congrArg some (hτ.fixes x (hus x hx).1)
  · obtain ⟨hout, hne, hlive⟩ := hus x hx
    refine ⟨hτ.fixes x hout, fun op' ho' => ?_⟩
    obtain ⟨op, ho⟩ := Graph.exists_op? hout.2
    have := hτ.ops x op hout.1 (fun h => hne (Option.some.inj h)) ho
    rw [ho'] at this
    cases this
    refine ⟨op, ho, by simp, by simp, fun hnone => ?_⟩
    rw [Op.turned_of_live τ (hlive op ho), hnone]
    rfl

/-- A sibling outside the regrafted part stays linked. -/
theorem Moves.sibling (hτ : Moves g g' (some id) ks ks' τ)
    (hN : Standing g p cont [node id f (as ++ ks ++ bs)]) (us : List HostTree)
    (hus : (∀ u ∈ us, u ∈ as) ∨ ∀ u ∈ us, u ∈ bs) :
    (∀ {c}, LinkedRow g us c → LinkedRow g' us (c.map τ)) ∧
      ∀ x ∈ idsAll us, τ x = x ∧ SameSeat g g' x := by
  obtain ⟨-, inAs, inBs⟩ := hN.outside_segment
  refine hτ.apart us fun x hx => ?_
  have nodup := hN.nodup
  simp only [idsAll_cons, idsAll_nil, ids_node, idsAll_append, List.append_nil, List.nodup_cons,
    List.mem_append, not_or] at nodup
  obtain ⟨u, hu, hx⟩ := mem_idsAll.mp hx
  rcases hus with hus | hus
  · have hx := mem_idsAll.mpr ⟨u, hus u hu, hx⟩
    exact ⟨inAs x hx, fun h => nodup.1.1.1 (h ▸ hx), fun op ho => hN.live (by simp [hx]) ho⟩
  · have hx := mem_idsAll.mpr ⟨u, hus u hu, hx⟩
    exact ⟨inBs x hx, fun h => nodup.1.2 (h ▸ hx), fun op ho => hN.live (by simp [hx]) ho⟩

/-- An op whose kids were regrafted stands, if it is linked. -/
theorem Regraft.standing_node (h : Regraft g g' (some id) ks ks')
    (hN : Standing g p cont [node id f (as ++ ks ++ bs)]) (hk : ∃ c, Standing g (some id) c ks)
    (hl : Linked g' (node id f (as ++ ks' ++ bs)) cont) :
    Standing g' p cont [node id f (as ++ ks' ++ bs)] := by
  obtain ⟨τ, hτ⟩ := h.moves
  obtain ⟨c, hk⟩ := hk
  have new := h.standing c hk
  obtain ⟨op, ho, hf, -, -, here⟩ := hτ.here hN
  have left := (hτ.sibling hN as (.inl fun _ hu => hu)).2
  have right := (hτ.sibling hN bs (.inr fun _ hu => hu)).2
  obtain ⟨idOut, inAs, inBs⟩ := hN.outside_segment
  obtain ⟨atRoot, atKids⟩ := seated_node.mp hN.seated.1
  have out : ∀ x, Outside g [node id f (as ++ ks ++ bs)] x →
      Outside g' [node id f (as ++ ks' ++ bs)] x := fun x hx =>
    ⟨fun hx' => hx.not_within (h.within_node hx'), Nat.lt_of_lt_of_le hx.2 h.size_le⟩
  refine ⟨⟨hl, trivial⟩, ⟨seated_node.mpr ⟨fun op' ho' => ?_, fun k hk => ?_⟩, trivial⟩, ?_,
    fun c hc => out c (hN.cont_outside c hc), fun q hq => out q (hN.parent_outside q hq),
    fun r hr => ?_, ?_⟩
  · rw [here] at ho'
    cases ho'
    obtain ⟨hp, hlive, hstraight⟩ := atRoot op ho
    exact ⟨hp, hlive, fun h₁ h₂ => by rw [hstraight h₁ h₂]; rfl⟩
  · simp only [List.mem_append] at hk
    rcases hk with (hk | hk) | hk
    · exact (atKids k (by simp [hk])).transport fun x hx =>
        (left x (mem_idsAll.mpr ⟨k, hk, hx⟩)).2
    · exact seatedAll_iff.mp new.seated k hk
    · exact (atKids k (by simp [hk])).transport fun x hx =>
        (right x (mem_idsAll.mpr ⟨k, hk, hx⟩)).2
  · have nodup := hN.nodup
    simp only [idsAll_cons, idsAll_nil, ids_node, idsAll_append, List.append_nil, List.nodup_cons,
      List.nodup_append, List.mem_append, not_or] at nodup ⊢
    obtain ⟨⟨⟨hia, -⟩, hib⟩, ⟨ha, -, -⟩, hb, hab⟩ := nodup
    refine ⟨⟨⟨hia, fun hx => (h.outside idOut).1 hx⟩, hib⟩, ⟨ha, new.nodup, ?_⟩, hb, ?_⟩
    · rintro x hx y hy rfl
      exact (h.outside (inAs x hx)).1 hy
    · rintro x (hx | hx) y hy rfl
      · exact hab x (.inl hx) x hy rfl
      · exact (h.outside (inBs x hy)).1 hx
  · rw [h.root_inner (by simp)] at hr
    exact Nat.lt_of_lt_of_le (hN.root_old r hr) h.size_le
  · intro r hr t ht hrt
    obtain rfl := List.mem_singleton.mp ht
    rw [h.root_inner (by simp)] at hr
    by_cases hks : r ∈ idsAll ks'
    · obtain ⟨k, hk, hrk⟩ := mem_idsAll.mp hks
      exact absurd (new.root_outside r ((h.root_inner (by simp)).trans hr) k hk hrk).1 (by simp)
    · refine hN.root_outside r hr (node id f (as ++ ks ++ bs)) (by simp) ?_
      simp only [ids_node, idsAll_append, List.mem_cons, List.mem_append] at hrt ⊢
      rcases hrt with hrt | (hrt | hrt) | hrt
      · exact .inl hrt
      · exact .inr (.inl (.inl hrt))
      · exact absurd hrt hks
      · exact .inr (.inr hrt)

theorem not_mem_node {x : OpId} (hx : x ∉ idsAll [node id f (as ++ ks ++ bs)]) :
    x ≠ id ∧ x ∉ idsAll ks := by
  simp only [idsAll_cons, idsAll_nil, ids_node, idsAll_append, List.append_nil, List.mem_cons,
    List.mem_append, not_or] at hx
  exact ⟨hx.1, hx.2.1.2⟩

theorem Within.node {x : OpId} (hx : Within g ks x) : Within g [node id f (as ++ ks ++ bs)] x :=
  hx.imp (fun hx => by simp [hx]) fun hx => hx

/-- An op of the node is kept, or is one of the regrafted part. -/
theorem Within.kept {x : OpId} (hx : Within g [HostTree.node id f (as ++ ks ++ bs)] x)
    (ks' : List HostTree) :
    x ∈ idsAll [HostTree.node id f (as ++ ks' ++ bs)] ∨ Within g ks x := by
  rcases hx with hx | hx
  · simp only [idsAll_cons, idsAll_nil, ids_node, idsAll_append, List.append_nil, List.mem_cons,
      List.mem_append] at hx ⊢
    rcases hx with hx | (hx | hx) | hx
    · exact .inl (.inl hx)
    · exact .inl (.inr (.inl (.inl hx)))
    · exact .inr (.inl hx)
    · exact .inl (.inr (.inr hx))
  · exact .inr (.inr hx)

/-- What becomes of the ops outside an op when kids of it are regrafted. -/
theorem Moves.node (hτ : Moves g g' (some id) ks ks' τ)
    (hN : Standing g p cont [HostTree.node id f (as ++ ks ++ bs)]) (hu : f.kind.shape ≠ .unit)
    (hsize : g.size ≤ g'.size) :
    Moves g g' p [HostTree.node id f (as ++ ks ++ bs)] [HostTree.node id f (as ++ ks' ++ bs)] τ where
  fixes x hx := hτ.fixes x ⟨(not_mem_node hx.1).2, hx.2⟩
  maps x hx := by
    by_cases hks : x ∈ idsAll ks
    · exact (hτ.maps x hks).imp Within.node fun h => h
    · have hlt := hN.lt_size hx
      rw [hτ.fixes x ⟨hks, hlt⟩]
      exact ⟨.inl hx, Nat.lt_of_lt_of_le hlt hsize⟩
  start := by
    rcases hτ.starts hN hu with ⟨hout, hsame⟩ | ⟨hold, hnew⟩
    · exact congrArg some ((hτ.fixes _ hout).trans hsame)
    · have start := hτ.start
      rw [hold, hnew] at start
      exact start
  entry := hτ.entry
  ops x op hx _ ho := by
    obtain ⟨hne, hx⟩ := not_mem_node hx
    exact hτ.ops x op hx (fun h => hne (Option.some.inj h)) ho
  parent q op hq ho := by
    obtain ⟨hne, hx⟩ := not_mem_node (hN.parent_outside q hq).1
    refine ⟨op.kids, ?_, fun _ _ _ hkids => hkids⟩
    rw [hτ.ops q op hx (fun h => hne (Option.some.inj h)) ho, ← Op.kids_turned τ op]

/-- What is out of use below an op lists nothing of the op. -/
theorem Regraft.shed_node (h : Regraft g g' (some id) ks ks')
    (hN : Standing g p cont [node id f (as ++ ks ++ bs)]) {y k : OpId}
    (hy : y ∈ idsAll [node id f (as ++ ks ++ bs)]) (hy' : y ∉ idsAll [node id f (as ++ ks' ++ bs)])
    (hkid : g'.Kid y k) : Within g [node id f (as ++ ks ++ bs)] k ∧
      k ∉ idsAll [node id f (as ++ ks' ++ bs)] ∧ k.index < g'.size := by
  obtain ⟨idOut, inAs, inBs⟩ := hN.outside_segment
  have hyk : y ∈ idsAll ks := by
    rcases Within.kept (.inl hy) ks' with h | h | h
    · exact absurd h hy'
    · exact h
    · exact absurd (hN.lt_size hy) (Nat.not_lt.mpr h)
  obtain ⟨hw, hout, hlt⟩ := h.shed y hyk (fun hx => hy' (by simp [hx])) k hkid
  refine ⟨hw.node, fun hk' => ?_, hlt⟩
  simp only [idsAll_cons, idsAll_nil, ids_node, idsAll_append, List.append_nil, List.mem_cons,
    List.mem_append] at hk'
  rcases hk' with rfl | (hk' | hk') | hk'
  · exact idOut.not_within hw
  · exact (inAs k hk').not_within hw
  · exact hout hk'
  · exact (inBs k hk').not_within hw

/-- **A regraft below an op is one of the op**, if it keeps the op linked. -/
theorem Regraft.below (h : Regraft g g' (some id) ks ks')
    (hN : Standing g p cont [node id f (as ++ ks ++ bs)]) (hu : f.kind.shape ≠ .unit)
    (hk : ∃ c, Standing g (some id) c ks)
    (hl : ∀ cont, Standing g p cont [node id f (as ++ ks ++ bs)] →
      Linked g' (node id f (as ++ ks' ++ bs)) cont)
    (hexits : List.Forall₂ (fun y y' => ∀ x, g.Stands x y → g'.Stands x y')
      (node id f (as ++ ks ++ bs)).exits (node id f (as ++ ks' ++ bs)).exits) :
    Regraft g g' p [node id f (as ++ ks ++ bs)] [node id f (as ++ ks' ++ bs)] := by
  obtain ⟨τ, hτ⟩ := h.moves
  have new := h.standing_node hN hk (hl cont hN)
  exact {
    owner := h.owner
    size_le := h.size_le
    kinds := h.kinds
    within := fun x hx => h.within_node hx
    added := h.added
    units := fun x op hx ho hunit => by
      rcases hx.kept ks' with hx | hx
      · exact hx
      · have := h.units x op hx ho hunit
        simp [this]
    standing := fun cont hs => h.standing_node hs hk (hl cont hs)
    moves := ⟨τ, hτ.node hN hu h.size_le⟩
    root_inner := fun _ => h.root_inner (by simp)
    root_outer := fun _ t t' ht ht' hr => by
      cases ht
      cases ht'
      exact (h.root_inner (by simp)).trans hr
    rises := fun x hx => by
      have whole : ∀ u ∈ idsAll [HostTree.node id f (as ++ ks' ++ bs)],
          Tops g' (Within g [HostTree.node id f (as ++ ks ++ bs)]) p u := fun u hu =>
        (new.tops hu).mono fun v hv => hv.elim h.within_node fun hv =>
          .inr (Nat.le_trans h.size_le hv)
      -- an op of `ks` rises to `id` in the regraft, and from there through the new node
      rcases Within.kept (.inl hx) ks' with hx' | hx' | hx'
      · exact whole x hx'
      · exact ((h.rises x hx').mono fun _ => Within.node).trans (.inl (by simp)) (whole id (by simp))
      · exact absurd (hN.lt_size hx) (Nat.not_lt.mpr hx')
    shed := fun y hy hy' k hkid => h.shed_node hN hy hy' hkid
    ordered := h.ordered
    stands := fun x y hy hs => h.stands x y (not_mem_node hy).2 hs
    stands_start := fun x y y' hy hy' hs => by
      cases hy
      cases hy'
      rcases hτ.starts hN hu with ⟨hout, hsame⟩ | ⟨hold, hnew⟩
      · rw [← hsame]
        exact h.stands x _ hout.1 hs
      · exact h.stands_start x _ _ hold hnew hs
    stands_root := fun t t' ht ht' x hx => by
      cases ht
      cases ht'
      exact h.stands x id hN.outside_segment.1.1 hx
    stands_exits := fun t t' ht ht' => by
      cases ht
      cases ht'
      exact hexits }

theorem Moves.entryOf_append (hτ : Moves g g' p ks ks' τ) {us : List HostTree} {c : Option OpId}
    (hus : (entryOf us c).map τ = entryOf us c) :
    (entryOf (ks ++ us) c).map τ = entryOf (ks' ++ us) c := by
  have start := hτ.start
  cases ks with
  | nil =>
    cases ks' with
    | nil => exact hus
    | cons k' ks' => cases start
  | cons k ks =>
    cases ks' with
    | nil => cases start
    | cons k' ks' => exact start

/-- Where a row below an op leads is outside the part of it that comes before. -/
theorem Standing.entryOf_outside (hN : Standing g p cont [node id f (as ++ ks ++ bs)])
    {c : Option OpId} (hc : c = some id ∨ c = cont) {x : OpId} (hx : entryOf bs c = some x) :
    Outside g ks x := by
  obtain ⟨idOut, -, inBs⟩ := hN.outside_segment
  cases bs with
  | cons b bs =>
    cases hx
    exact inBs _ (by simp [start_mem_ids])
  | nil =>
    rcases hc with rfl | rfl
    · cases hx
      exact idOut
    · obtain ⟨hout, hlt⟩ := hN.cont_outside x hx
      simp only [idsAll_cons, idsAll_nil, ids_node, idsAll_append, List.append_nil, List.mem_cons,
        List.mem_append, not_or] at hout
      exact ⟨hout.2.2, hlt⟩

/-- Where an op continues is outside its kids. -/
theorem Standing.cont_outside_segment (hN : Standing g p cont [node id f (as ++ ks ++ bs)]) {x : OpId}
    (hx : cont = some x) : Outside g ks x :=
  outside_of_not_within fun hw =>
    (hN.cont_outside x hx).not_within (hw.imp (fun h => by simp [h]) fun h => h)

theorem Moves.fixes_option (hτ : Moves g g' p ks ks' τ) {c : Option OpId}
    (hc : ∀ x, c = some x → Outside g ks x) : c.map τ = c := by
  cases c with
  | none => rfl
  | some x => exact congrArg some (hτ.fixes x (hc x rfl))

theorem rowEnd_cases (f : Face) (id : OpId) (cont : Option OpId) :
    rowEnd f id cont = some id ∨ rowEnd f id cont = cont := by
  unfold rowEnd
  split
  · exact .inr rfl
  · exact .inl rfl

/-- A part of a row below an op stands where the row goes on after it. -/
theorem Standing.row (hN : Standing g p cont [node id f (as ++ ks ++ bs)])
    (hs : f.kind.shape = .plain ∨ f.kind.shape = .listed) :
    LinkedRow g as (entryOf (ks ++ bs) (rowEnd f id cont)) ∧
      Standing g (some id) (entryOf bs (rowEnd f id cont)) ks ∧
      LinkedRow g bs (rowEnd f id cont) := by
  obtain ⟨op, -, -, -, -, hr⟩ := (linked_row hs).mp hN.linked.1
  rw [List.append_assoc, linkedRow_append, linkedRow_append] at hr
  exact ⟨hr.1, hN.segment hr.2.1 fun x hx => hN.entryOf_outside (rowEnd_cases f id cont) hx, hr.2.2⟩

/-- **A part of a row below an op may be regrafted.**

Links into the part are moved to its new start and all others stay, so the siblings before it lead
to the new start, and those after it are linked as before; the part itself stands by itself. -/
theorem Regraft.below_row (h : Regraft g g' (some id) ks ks')
    (hN : Standing g p cont [node id f (as ++ ks ++ bs)])
    (hs : f.kind.shape = .plain ∨ f.kind.shape = .listed) :
    Regraft g g' p [node id f (as ++ ks ++ bs)] [node id f (as ++ ks' ++ bs)] := by
  obtain ⟨τ, hτ⟩ := h.moves
  have notUnit : f.kind.shape ≠ .unit := by rcases hs with hs | hs <;> rw [hs] <;> simp
  refine h.below hN notUnit ⟨_, (hN.row hs).2.1⟩ (fun cont hN => ?_) ?_
  · obtain ⟨hA, hK, hB⟩ := hN.row hs
    obtain ⟨op, ho, hf, -, -, here⟩ := hτ.here hN
    obtain ⟨op', ho', -, -, hn, -⟩ := (linked_row hs).mp hN.linked.1
    obtain rfl : op = op' := Option.some.inj (ho.symm.trans ho')
    have contFixed : cont.map τ = cont := hτ.fixes_option fun _ => hN.cont_outside_segment
    have endFixed : (rowEnd f id cont).map τ = rowEnd f id cont := by
      rcases rowEnd_cases f id cont with he | he
      · rw [he]
        exact congrArg some (hτ.fixes id hN.outside_segment.1)
      · rw [he]
        exact contFixed
    have left := (hτ.sibling hN as (.inl fun _ hu => hu)).1 hA
    have right := (hτ.sibling hN bs (.inr fun _ hu => hu)).1 hB
    rw [hτ.entryOf_append (hτ.fixes_option fun x hx =>
      hN.entryOf_outside (rowEnd_cases f id cont) hx)] at left
    rw [endFixed] at right
    refine (linked_row hs).mpr ⟨_, here, hf, rfl, ?_, ?_⟩
    · rw [hn]
      exact contFixed
    · rw [List.append_assoc, linkedRow_append, linkedRow_append]
      exact ⟨left, (h.standing _ hK).linked, right⟩
  · have exits : ∀ ks, (node id f ks).exits = [id] := by
      intro ks
      rcases hs with hs | hs <;> exact exits_single (by simp [hs]) (by simp [hs])
    rw [exits, exits]
    exact .cons (fun x hx => h.stands x id hN.outside_segment.1.1 hx) .nil

/-- What becomes of a kid of an op, where some of the kids, `ks`, are regrafted. -/
structure KidMoves (g g' : Graph) (ks : List HostTree) (τ : OpId → OpId) (t t' : HostTree) : Prop where
  start : τ t.start = t'.start
  exits : List.Forall₂ (fun y y' => ∀ x, g.Stands x y → g'.Stands x y') t.exits t'.exits
  linked : ∀ {c}, (∀ x, c = some x → Outside g ks x) → Linked g t c → Linked g' t' c

/-- One kid is regrafted, and the others stay. -/
theorem Regraft.kidMoves {k k' : HostTree} (h : Regraft g g' (some id) [k] [k'])
    (hτ : Moves g g' (some id) [k] [k'] τ) (hN : Standing g p cont [node id f (as ++ [k] ++ bs)]) :
    List.Forall₂ (KidMoves g g' [k] τ) (as ++ [k] ++ bs) (as ++ [k'] ++ bs) := by
  obtain ⟨-, inAs, inBs⟩ := hN.outside_segment
  have stays : ∀ t, (t ∈ as ∨ t ∈ bs) → KidMoves g g' [k] τ t t := by
    intro t ht
    have out : ∀ x ∈ t.ids, Outside g [k] x := fun x hx => by
      rcases ht with ht | ht
      · exact inAs x (mem_idsAll.mpr ⟨t, ht, hx⟩)
      · exact inBs x (mem_idsAll.mpr ⟨t, ht, hx⟩)
    refine ⟨hτ.fixes _ (out _ (start_mem_ids t)), List.forall₂_same.mpr fun y hy x => ?_,
      fun hc hl => ?_⟩
    · exact h.stands x y (out y (exits_subset t hy)).1
    · have turned := (hτ.sibling hN [t] (by simpa using ht)).1 ⟨hl, trivial⟩
      rw [hτ.fixes_option hc] at turned
      exact turned.1
  have kid : KidMoves g g' [k] τ k k' := ⟨Option.some.inj hτ.start, h.stands_exits k k' rfl rfl,
    fun hc hl => (h.standing _ (hN.segment ⟨hl, trivial⟩ hc)).linked.1⟩
  exact List.rel_append (List.rel_append (List.forall₂_same.mpr fun t ht => stays t (.inl ht))
    (.cons kid .nil)) (List.forall₂_same.mpr fun t ht => stays t (.inr ht))

/-- **A kid of an op may be regrafted**, whatever the shape of the op.

For kids in a row this is `Regraft.below_row`.  The branches of a choice and the operands of `and`
and `or` lead to an op outside the kid, which is not moved, and where a kid starts is moved with
it. -/
theorem Regraft.below_kid {k k' : HostTree} (h : Regraft g g' (some id) [k] [k'])
    (hN : Standing g p cont [node id f (as ++ [k] ++ bs)]) (hu : f.kind.shape ≠ .unit) :
    Regraft g g' p [node id f (as ++ [k] ++ bs)] [node id f (as ++ [k'] ++ bs)] := by
  obtain ⟨τ, hτ⟩ := h.moves
  have moves := h.kidMoves hτ hN
  have idOut : Outside g [k] id := hN.outside_segment.1
  have here : ∀ x, some id = some x → Outside g [k] x := fun x hx => by
    cases hx
    exact idOut
  have exitsHere : List.Forall₂ (fun y y' => ∀ x, g.Stands x y → g'.Stands x y') [id] [id] :=
    .cons (fun x => h.stands x id idOut.1) .nil
  have mem : k ∈ as ++ [k] ++ bs := by simp
  cases hs : f.kind.shape with
  | plain => exact h.below_row hN (.inl hs)
  | listed => exact h.below_row hN (.inr hs)
  | unit => exact absurd hs hu
  | short =>
    obtain ⟨l, r, hks, -, -, -, -, -, -, hl, hr⟩ := (linked_short hs).mp hN.linked.1
    rw [hks] at moves mem
    obtain ⟨l', _, left, after, hks'⟩ := List.forall₂_cons_left_iff.mp moves
    obtain ⟨r', _, right, last, rfl⟩ := List.forall₂_cons_left_iff.mp after
    obtain rfl := List.forall₂_nil_left_iff.mp last
    have standing : ∃ c, Standing g (some id) c [k] := by
      simp only [List.mem_cons, List.not_mem_nil, or_false] at mem
      rcases mem with rfl | rfl
      · exact ⟨_, hN.segment ⟨hl, trivial⟩ here⟩
      · exact ⟨_, hN.segment ⟨hr, trivial⟩ fun _ => hN.cont_outside_segment⟩
    refine h.below hN hu standing (fun cont hN => ?_) ?_
    · obtain ⟨op, ho, hf, -, -, turned⟩ := hτ.here hN
      obtain ⟨_, _, he, op', ho', -, -, hnext, hother, hl, hr⟩ := (linked_short hs).mp hN.linked.1
      cases hks.symm.trans he
      obtain rfl : op = op' := Option.some.inj (ho.symm.trans ho')
      rw [hks'] at turned ⊢
      refine (linked_short hs).mpr ⟨l', r', rfl, _, turned, hf, rfl, ?_, ?_, left.linked here hl,
        right.linked (fun _ => hN.cont_outside_segment) hr⟩
      · rw [hnext]
        exact hτ.fixes_option fun _ => hN.cont_outside_segment
      · rw [hother]
        exact congrArg some right.start
    · rw [hks, hks', exits_short hs, exits_short hs]
      exact List.rel_append right.exits exitsHere
  | choice =>
    obtain ⟨c, y, n, hks, -, -, -, -, -, -, hc, hy, hn⟩ := (linked_choice hs).mp hN.linked.1
    rw [hks] at moves mem
    obtain ⟨c', _, test, after, hks'⟩ := List.forall₂_cons_left_iff.mp moves
    obtain ⟨y', _, yes, last, rfl⟩ := List.forall₂_cons_left_iff.mp after
    obtain ⟨n', _, no, ended, rfl⟩ := List.forall₂_cons_left_iff.mp last
    obtain rfl := List.forall₂_nil_left_iff.mp ended
    have standing : ∃ c, Standing g (some id) c [k] := by
      simp only [List.mem_cons, List.not_mem_nil, or_false] at mem
      rcases mem with rfl | rfl | rfl
      · exact ⟨_, hN.segment ⟨hc, trivial⟩ here⟩
      · exact ⟨_, hN.segment ⟨hy, trivial⟩ fun _ => hN.cont_outside_segment⟩
      · exact ⟨_, hN.segment ⟨hn, trivial⟩ fun _ => hN.cont_outside_segment⟩
    refine h.below hN hu standing (fun cont hN => ?_) ?_
    · obtain ⟨op, ho, hf, -, -, turned⟩ := hτ.here hN
      obtain ⟨_, _, _, he, op', ho', -, -, hnext, hother, hc, hy, hn⟩ :=
        (linked_choice hs).mp hN.linked.1
      cases hks.symm.trans he
      obtain rfl : op = op' := Option.some.inj (ho.symm.trans ho')
      have outside : ∀ x, cont = some x → Outside g [k] x := fun _ => hN.cont_outside_segment
      rw [hks'] at turned ⊢
      refine (linked_choice hs).mpr ⟨c', y', n', rfl, _, turned, hf, rfl, ?_, ?_, test.linked here hc,
        yes.linked outside hy, no.linked outside hn⟩
      · rw [hnext]
        exact congrArg some no.start
      · rw [hother]
        exact congrArg some yes.start
    · rw [hks, hks', exits_choice hs, exits_choice hs]
      exact List.rel_append yes.exits no.exits

end Node

end HostTree

end Graft
