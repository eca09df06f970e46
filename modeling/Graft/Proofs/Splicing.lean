import Graft.Proofs.Regraft
import Mathlib.Tactic.SplitIfs

/-! # What an edit does to the ops of a graph

Both edits are sequences of small changes.  Here each of them is summed up in what becomes
of every single op: `Graph.detach_rewrites` for taking out a fragment, and
`Graph.replace_replaced` for putting in a unit.  The marking of what was replaced goes down
lists of kids: it does not leave a set of ops that is closed under kids
(`Graph.markWithin_remarked`), and it reaches all of a tree (`Graph.isDead_mark`).

A change of one op is a rewriting of all of them that leaves the others alone.  Rewritings are
composed, and so a loop over ops becomes one function on ops (`Graph.Rewrites`); nobody who
uses an edit has to go through its steps again.

A replacement is summed up in two stages, since an edit may stop between them.  First the new
op takes the place of the range in its parent's list, and the range is marked
(`Graph.Vacated`); then it adopts the fragments, links to the front of the range are turned to
it, and it becomes the heir of the range (`Graph.Replaced`).  The states of the marked ops are left
open in both, up to a set that holds them.  That every op of a range of trees is dead afterwards
is shown apart, from the depth that marking is allowed: as many levels as there are ops.
-/

namespace Graft.Graph

open HostTree (Tops)

variable {g g₁ g₂ g' : Graph} {x y : OpId} {op : Op}

/-! ### Rewriting every op -/

theorem size_of_map {F : OpId → Op → Op} (h : ∀ x, g'.op? x = (g.op? x).map (F x)) :
    g'.size = g.size := by
  have none_iff : ∀ n, g'.size ≤ n ↔ g.size ≤ n := by
    intro n
    have gone : g'.op? ⟨n⟩ = none ↔ g.op? ⟨n⟩ = none := by rw [h, Option.map_eq_none_iff]
    rwa [op?_eq_none_iff, op?_eq_none_iff] at gone
  have := none_iff g.size
  have := none_iff g'.size
  omega

/-- The ops have been rewritten by `F`; nothing else is changed. -/
structure Rewrites (F : OpId → Op → Op) (g g' : Graph) : Prop where
  owner : g'.owner = g.owner
  root : g'.root = g.root
  entry : g'.entry = g.entry
  ops : ∀ x, g'.op? x = (g.op? x).map (F x)

namespace Rewrites

variable {F G : OpId → Op → Op}

theorem refl (g : Graph) : Rewrites (fun _ op => op) g g :=
  ⟨rfl, rfl, rfl, fun x => by simp⟩

theorem trans (h : Rewrites F g g₁) (h' : Rewrites G g₁ g₂) :
    Rewrites (fun x op => G x (F x op)) g g₂ where
  owner := h'.owner.trans h.owner
  root := h'.root.trans h.root
  entry := h'.entry.trans h.entry
  ops x := by
    rw [h'.ops, h.ops, Option.map_map]
    rfl

theorem congr (h : Rewrites F g g') (hF : ∀ x op, g.op? x = some op → F x op = G x op) :
    Rewrites G g g' where
  owner := h.owner
  root := h.root
  entry := h.entry
  ops x := by
    rw [h.ops]
    cases ho : g.op? x with
    | none => rfl
    | some op => exact congrArg some (hF x op ho)

theorem update (id : OpId) (f : Op → Op) :
    Rewrites (fun x op => if x = id then f op else op) g (g.update id f) where
  owner := rfl
  root := rfl
  entry := rfl
  ops x := by
    rw [op?_update]
    by_cases h : x = id
    · rw [if_pos h]
      simp only [if_pos h]
    · rw [if_neg h]
      simp only [if_neg h, Option.map_id']

theorem op_of (h : Rewrites F g g') (ho : g.op? x = some op) : g'.op? x = some (F x op) := by
  rw [h.ops, ho, Option.map_some]

/-- Every op comes from one. -/
theorem op_inv (h : Rewrites F g g') {op' : Op} (ho : g'.op? x = some op') :
    ∃ op, g.op? x = some op ∧ op' = F x op := by
  rw [h.ops] at ho
  obtain ⟨op, ho, he⟩ := Option.map_eq_some_iff.mp ho
  exact ⟨op, ho, he.symm⟩

theorem size (h : Rewrites F g g') : g'.size = g.size := size_of_map h.ops

theorem heir_iff (h : Rewrites F g g') (hF : ∀ x op, (F x op).heir = op.heir) :
    g'.Heir x y ↔ g.Heir x y := by
  constructor
  · rintro ⟨op', ho', hh⟩
    obtain ⟨op, ho, rfl⟩ := h.op_inv ho'
    exact ⟨op, ho, (hF x op).symm.trans hh⟩
  · rintro ⟨op, ho, hh⟩
    exact ⟨F x op, h.op_of ho, (hF x op).trans hh⟩

theorem ordered (h : Rewrites F g g') (hF : ∀ x op, (F x op).heir = op.heir) (ho : g.Ordered) :
    g'.Ordered := fun x y hxy => ho x y ((h.heir_iff hF).mp hxy)

theorem stands (h : Rewrites F g g') (hF : ∀ x op, (F x op).heir = op.heir) (hs : g.Stands x y) :
    g'.Stands x y := hs.mono fun x op ho => ⟨F x op, h.op_of ho, hF x op⟩

end Rewrites

theorem change_rewrites (f : Op → Op) (ho : g.op? x = some op) :
    ∃ g', change x f g = .ok () g' ∧ Rewrites (fun y o => if y = x then f o else o) g g' :=
  ⟨g.update x f, change_of_some ho, .update x f⟩

/-! ### Taking out a fragment -/

/-- Exits are cut where they stand now. -/
theorem forM_cut {exits es : List OpId} (h : List.Forall₂ g.Stands exits es) (ho : g.Ordered) :
    ∃ g', exits.forM cut g = .ok ⟨⟩ g' ∧
      Rewrites (fun x op => if x ∈ es then { op with next := none } else op) g g' := by
  induction exits generalizing g es with
  | nil =>
    cases h
    exact ⟨g, rfl, by simpa using Rewrites.refl g⟩
  | cons exit exits ih =>
    obtain ⟨e, es', hs, hrest, rfl⟩ := List.forall₂_cons_left_iff.mp h
    obtain ⟨op, hop, -⟩ := hs.2
    obtain ⟨g₁, hcut, rw₁⟩ := change_rewrites (fun o => { o with next := none }) hop
    have keeps : ∀ y (o : Op), (if y = e then { o with next := none } else o).heir = o.heir := by
      intro y o
      split <;> rfl
    obtain ⟨g', hall, rw₂⟩ := ih (hrest.imp fun _ _ hs => rw₁.stands keeps hs) (rw₁.ordered keeps ho)
    refine ⟨g', ?_, (rw₁.trans rw₂).congr fun x o _ => ?_⟩
    · have here : cut exit g = .ok ⟨⟩ g₁ := by
        unfold cut
        rw [Effect.get_bind, hs.resolve ho]
        exact hcut
      rw [List.forM_eq_forM, List.forM_cons, Effect.bind_ok here]
      exact hall
    · by_cases hx : x = e <;> by_cases hx' : x ∈ es' <;> simp [hx, hx']

/-- What becomes of an op when the fragment `r` with the exits `es` is taken out below `d`. -/
def detached (d r : OpId) (es : List OpId) (x : OpId) (op : Op) : Op :=
  { op with
    kids := if x = d then op.kids.filter fun k => k ≠ r else op.kids
    state := if x = r then .detached else op.state
    next := if x ∈ es then none else op.next }

/-- **Taking out a fragment** takes it out of the list of its parent, marks its root and cuts
its exits. -/
theorem detach_rewrites {root r d : OpId} {exits es : List OpId} (ho : g.Ordered)
    (hr : g.Stands root r) (hup : g.Up r d) (hd : ∃ o, g.op? d = some o) (htop : g.root ≠ some r)
    (hexits : List.Forall₂ g.Stands exits es) :
    ∃ g', detach root true exits g = .ok ⟨⟩ g' ∧ Rewrites (detached d r es) g g' := by
  obtain ⟨op, hop, hparent⟩ := hup
  obtain ⟨o, hd⟩ := hd
  obtain ⟨g₁, hdisown, rw₁⟩ :=
    change_rewrites (fun o => { o with kids := o.kids.filter fun k => k ≠ r }) hd
  obtain ⟨g₂, hretire, rw₂⟩ :=
    change_rewrites (fun o => { o with state := .detached }) (rw₁.op_of hop)
  have rw₁₂ := rw₁.trans rw₂
  have keeps : ∀ y (o : Op), (if y = r then
      { (if y = d then { o with kids := o.kids.filter fun k => k ≠ r } else o) with
        state := OpState.detached }
      else if y = d then { o with kids := o.kids.filter fun k => k ≠ r } else o).heir = o.heir := by
    intro y o
    split <;> split <;> rfl
  obtain ⟨g', hcut, rw₃⟩ :=
    forM_cut (hexits.imp fun _ _ hs => rw₁₂.stands keeps hs) (rw₁₂.ordered keeps ho)
  refine ⟨g', ?_, (rw₁₂.trans rw₃).congr fun x o _ => ?_⟩
  · unfold detach
    rw [Effect.get_bind, hr.resolve ho, Effect.bind_ok (find_of_some hop), hparent]
    rw [Effect.bind_ok (show disown (some d) r g = _ from hdisown), Effect.modify_bind]
    rw [if_neg (rw₁.root ▸ htop : ¬ g₁.root = some r)]
    rw [Effect.bind_ok (show retire true r _ = _ from hretire)]
    exact hcut
  · unfold detached
    split_ifs <;> rfl

/-! ### Marking what was replaced -/

/-- A set of ops that holds the kids of its ops. -/
def Closed (g : Graph) (X : OpId → Prop) : Prop := ∀ a b, X a → g.Kid a b → X b

/-- Only states have changed, and only those of ops in `X`. -/
structure Remarked (X : OpId → Prop) (g g' : Graph) : Prop where
  owner : g'.owner = g.owner
  root : g'.root = g.root
  entry : g'.entry = g.entry
  size : g'.size = g.size
  ops : ∀ x op, g.op? x = some op →
    ∃ s, (¬ X x → s = op.state) ∧ g'.op? x = some { op with state := s }

namespace Remarked

variable {X : OpId → Prop}

theorem refl (g : Graph) : Remarked X g g :=
  ⟨rfl, rfl, rfl, rfl, fun _ op ho => ⟨op.state, fun _ => rfl, ho⟩⟩

theorem trans (h : Remarked X g g₁) (h' : Remarked X g₁ g₂) : Remarked X g g₂ where
  owner := h'.owner.trans h.owner
  root := h'.root.trans h.root
  entry := h'.entry.trans h.entry
  size := h'.size.trans h.size
  ops x op ho := by
    obtain ⟨s, hs, ho₁⟩ := h.ops x op ho
    obtain ⟨s', hs', ho₂⟩ := h'.ops x _ ho₁
    exact ⟨s', fun hx => (hs' hx).trans (hs hx), ho₂⟩

theorem update (hx : X x) (s : OpState) :
    Remarked X g (g.update x fun o => { o with state := s }) where
  owner := rfl
  root := rfl
  entry := rfl
  size := size_update _ _
  ops y op ho := by
    by_cases h : y = x
    · exact ⟨s, fun hy => absurd (h ▸ hx) hy, h ▸ op?_update_self (h ▸ ho)⟩
    · exact ⟨op.state, fun _ => rfl, (op?_update_of_ne h).trans ho⟩

theorem closed (h : Remarked X g g') (hc : g.Closed X) : g'.Closed X := by
  rintro a b ha ⟨op', ho', hb⟩
  obtain ⟨op, ho⟩ := exists_op? (h.size ▸ lt_size_of_op? ho')
  obtain ⟨s, -, hs⟩ := h.ops a op ho
  rw [ho'] at hs
  cases hs
  exact hc a b ha ⟨op, ho, hb⟩

theorem foldl {f : Graph → OpId → Graph}
    (hf : ∀ g k, X k → g.Closed X → Remarked X g (f g k)) {ks : List OpId} (hks : ∀ k ∈ ks, X k)
    (hc : g.Closed X) : Remarked X g (ks.foldl f g) := by
  induction ks generalizing g with
  | nil => exact .refl g
  | cons k ks ih =>
    have first := hf g k (hks k (by simp)) hc
    exact first.trans (ih (fun k hk => hks k (by simp [hk])) (first.closed hc))

end Remarked

/-- **Marking does not leave a set that holds the kids of its ops.** -/
theorem markWithin_remarked {X : OpId → Prop} (state : OpState) (n : Nat) (hx : X x)
    (hc : g.Closed X) : Remarked X g (markWithin state n g x) := by
  induction n generalizing g x with
  | zero => exact .refl g
  | succ n ih =>
    rw [markWithin]
    cases ho : g.op? x with
    | none => exact .refl g
    | some op =>
      have here : Remarked X g (g.update x fun o => { o with state := state }) := .update hx state
      have below := Remarked.foldl (fun g k hk hc => ih hk hc)
        (fun k hk => hc x k hx ⟨op, ho, hk⟩) (here.closed hc)
      exact here.trans below

/-- If the graph has the op, it is dead. -/
def IsDead (g : Graph) (x : OpId) : Prop := ∀ op, g.op? x = some op → op.state = .dead

/-- Changes that keep the states keep what is dead. -/
theorem IsDead.map {F : Op → Op} (h : g.IsDead x) (hops : g'.op? x = (g.op? x).map F)
    (hF : ∀ op, (F op).state = op.state) : g'.IsDead x := by
  intro op' ho'
  rw [hops] at ho'
  obtain ⟨op, ho, rfl⟩ := Option.map_eq_some_iff.mp ho'
  exact (hF op).trans (h op ho)

theorem IsDead.update (h : y = x ∨ g.IsDead y) :
    (g.update x fun o => { o with state := .dead }).IsDead y := by
  intro op' ho'
  rw [op?_update] at ho'
  split at ho'
  · obtain ⟨op, -, rfl⟩ := Option.map_eq_some_iff.mp ho'
    rfl
  · exact h.resolve_left ‹_› op' ho'

theorem IsDead.foldl {f : Graph → OpId → Graph} (hf : ∀ g k, g.IsDead y → (f g k).IsDead y)
    (h : g.IsDead y) (ks : List OpId) : (ks.foldl f g).IsDead y := by
  induction ks generalizing g with
  | nil => exact h
  | cons k ks ih => exact ih (hf g k h)

/-- What is dead stays so while other ops are marked. -/
theorem IsDead.markWithin (h : g.IsDead y) (n : Nat) (x : OpId) :
    (markWithin .dead n g x).IsDead y := by
  induction n generalizing g x with
  | zero => exact h
  | succ n ih =>
    rw [Graph.markWithin]
    split
    · exact .foldl (fun _ _ h => ih h _) (.update (.inr h)) _
    · exact h

/-- Marking leaves the trees of a graph as they are. -/
theorem Remarked.reads {X : OpId → Prop} {t : HostTree} (h : Remarked X g g')
    (hr : HostTree.Reads g t) : HostTree.Reads g' t := by
  intro s hs
  obtain ⟨op, ho, hface, hkids⟩ := hr s hs
  obtain ⟨_, -, ho'⟩ := h.ops _ op ho
  exact ⟨_, ho', hface, hkids⟩

/-- Trees are marked one after the other. -/
theorem isDead_foldl {f : Graph → OpId → Graph} {us : List HostTree}
    (hf : ∀ g k, Remarked (fun _ => True) g (f g k))
    (hkeep : ∀ g k y, g.IsDead y → (f g k).IsDead y)
    (hhit : ∀ g, ∀ u ∈ us, HostTree.Reads g u → ∀ x ∈ u.ids, (f g u.root).IsDead x)
    (hr : ∀ u ∈ us, HostTree.Reads g u) (hx : x ∈ HostTree.idsAll us) :
    ((us.map HostTree.root).foldl f g).IsDead x := by
  induction us generalizing g with
  | nil => cases hx
  | cons u us ih =>
    rw [HostTree.idsAll_cons, List.mem_append] at hx
    rw [List.map_cons, List.foldl_cons]
    rcases hx with hx | hx
    · exact .foldl (fun g k => hkeep g k x) (hhit g u (by simp) (hr u (by simp)) x hx) _
    · refine ih (fun g v hv => hhit g v (by simp [hv])) (fun v hv => ?_) hx
      exact (hf g u.root).reads (hr v (by simp [hv]))

theorem markWithin_remarked_all (n : Nat) (g : Graph) (x : OpId) :
    Remarked (fun _ => True) g (markWithin .dead n g x) :=
  markWithin_remarked .dead n trivial fun _ _ _ _ => trivial

/-- **Marking reaches all of a tree**, if it may go as deep as the tree has ops. -/
theorem isDead_markWithin {t : HostTree} {n : Nat} (hr : HostTree.Reads g t)
    (hn : t.ids.length ≤ n) (hx : x ∈ t.ids) : (markWithin .dead n g t.root).IsDead x := by
  induction t using HostTree.induction generalizing g n x with
  | step id f ks ih =>
    obtain ⟨⟨op, ho, -, hkids⟩, below⟩ := HostTree.reads_node.mp hr
    rw [HostTree.ids_node] at hn hx
    obtain ⟨n, rfl⟩ : ∃ m, n = m + 1 := ⟨n - 1, by simp at hn; omega⟩
    rw [HostTree.root_node, markWithin, ho]
    dsimp only
    rcases List.mem_cons.mp hx with rfl | hx
    · exact .foldl (fun _ _ h => h.markWithin n _) (.update (.inl rfl)) _
    · have here : Remarked (fun _ => True) g (g.update id fun o => { o with state := .dead }) :=
        .update trivial .dead
      rw [hkids]
      refine isDead_foldl (markWithin_remarked_all n) (fun _ _ _ h => h.markWithin n _)
        (fun g k hk hr x hx => ih k hk hr ?_ hx) (fun k hk => here.reads (below k hk)) hx
      have := (HostTree.ids_sublist_idsAll hk).length_le
      simp at hn
      omega

/-- **Marking the roots of trees marks the trees.** -/
theorem isDead_mark {us : List HostTree} (hn : ∀ u ∈ us, u.ids.Nodup)
    (hr : ∀ u ∈ us, HostTree.Reads g u) (hx : x ∈ HostTree.idsAll us) :
    ((us.map HostTree.root).foldl (fun g r => g.mark .dead r) g).IsDead x :=
  isDead_foldl (fun g k => markWithin_remarked_all g.size g k) (fun g _ _ h => h.markWithin g.size _)
    (fun _ u hu hr _ hx => isDead_markWithin hr (hr.length_ids_le (hn u hu)) hx) hr hx

/-! ### Putting in a unit -/

/-- A unit adopts its fragments in their order, where they stand now. -/
theorem forM_adopt {new : OpId} {fragments fs : List OpId} (ho : g.Ordered)
    (hnew : ∃ o, g.op? new = some o) (hfs : List.Forall₂ g.Stands fragments fs) :
    ∃ g', fragments.forM (adopt new) g = .ok ⟨⟩ g' ∧
      Rewrites (fun x op => { op with
        parent := if x ∈ fs then some new else op.parent
        kids := if x = new then op.kids ++ fs else op.kids }) g g' := by
  induction fragments generalizing g fs with
  | nil =>
    cases hfs
    exact ⟨g, rfl, (Rewrites.refl g).congr fun x o _ => by simp⟩
  | cons fragment fragments ih =>
    obtain ⟨f, fs', hf, hrest, rfl⟩ := List.forall₂_cons_left_iff.mp hfs
    obtain ⟨o, hof, -⟩ := hf.2
    obtain ⟨n, hnew⟩ := hnew
    obtain ⟨g₁, hparent, rw₁⟩ := change_rewrites (fun o => { o with parent := some new }) hof
    obtain ⟨g₂, hkids, rw₂⟩ :=
      change_rewrites (fun o => { o with kids := o.kids ++ [f] }) (rw₁.op_of hnew)
    have rw₁₂ : Rewrites (fun x op => { op with
        parent := if x = f then some new else op.parent
        kids := if x = new then op.kids ++ [f] else op.kids }) g g₂ :=
      (rw₁.trans rw₂).congr fun x o _ => by split_ifs <;> rfl
    have here : adopt new fragment g = .ok ⟨⟩ g₂ := by
      unfold adopt
      rw [Effect.get_bind, hf.resolve ho, Effect.bind_ok hparent]
      exact hkids
    obtain ⟨g', hall, rw₃⟩ := ih (rw₁₂.ordered (fun _ _ => rfl) ho) ⟨_, rw₁₂.op_of hnew⟩
      (hrest.imp fun _ _ hs => rw₁₂.stands (fun _ _ => rfl) hs)
    refine ⟨g', ?_, (rw₁₂.trans rw₃).congr fun x o _ => ?_⟩
    · rw [List.forM_eq_forM, List.forM_cons, Effect.bind_ok here]
      exact hall
    · simp only [List.mem_cons]
      split_ifs <;> simp_all

/-- A link turned from `old` to `new`. -/
def turn (old new : OpId) (x : OpId) : OpId := if x = old then new else x

theorem redirect_eq_map (old new : OpId) (link : Option OpId) :
    redirect old new link = link.map (turn old new) := by
  unfold redirect turn
  cases link with
  | none => simp
  | some x => by_cases h : x = old <;> simp [h]

/-- Links are turned everywhere but at `new`. -/
theorem op?_redirectLinks (old new : OpId) (g : Graph) (x : OpId) :
    (redirectLinks old new g).op? x =
      (g.op? x).map fun op => if x = new then op else op.turned (turn old new) := by
  unfold redirectLinks op?
  dsimp only
  rw [Array.getElem?_mapIdx]
  refine congrArg (fun f => Option.map f g.ops[x.index]?) (funext fun op => ?_)
  unfold Op.turned
  by_cases h : x = new
  · simp [h]
  · have hi : x.index ≠ new.index := fun he => h (by cases x; cases new; exact congrArg OpId.mk he)
    by_cases hd : op.state = .dead <;> simp [h, hi, hd, redirect_eq_map]

/-- An op that is appended comes after the others. -/
theorem op?_push (g : Graph) (new : Op) (x : OpId) :
    { g with ops := g.ops.push new }.op? x = if x = ⟨g.size⟩ then some new else g.op? x := by
  unfold op?
  dsimp only
  rw [Array.getElem?_push]
  by_cases h : x = ⟨g.size⟩
  · subst h
    simp [size]
  · have : x.index ≠ g.ops.size := fun he => h (by cases x; exact congrArg OpId.mk he)
    simp [h, this]

/-- The siblings `seg` from `top` to `last` below `p`, with those before and after them. -/
def Range (g : Graph) (p : Option OpId) (top last : OpId) (as seg bs : List OpId) : Prop :=
  match p with
  | some q => ∃ op, g.op? q = some op ∧ op.kids.Nodup ∧ op.kids = as ++ seg ++ bs ∧
      seg.head? = some top ∧ seg.getLast? = some last
  | none => top = last ∧ seg = [last]

theorem idxOf?_of_split {as bs : List OpId} (h : (as ++ x :: bs).Nodup) :
    (as ++ x :: bs).idxOf? x = some as.length := by
  induction as with
  | nil => simp [List.idxOf?_cons]
  | cons a as ih =>
    rw [List.cons_append, List.nodup_cons] at h
    have hne : a ≠ x := fun he => h.1 (by simp [he])
    rw [List.cons_append, List.idxOf?_cons, if_neg (by simpa using hne), ih h.2]
    rfl

/-- The op `new` takes the place of the range. -/
theorem exchange_range {p : Option OpId} {top last : OpId} {as seg bs : List OpId}
    (h : g.Range p top last as seg bs) (new : OpId) (fault : Fault) :
    ∃ g', exchange p top last new fault g = .ok seg g' ∧ g'.owner = g.owner ∧ g'.entry = g.entry ∧
      g'.root = (if p = none ∧ g.root = some last then some new else g.root) ∧
      ∀ x, g'.op? x = (g.op? x).map fun op =>
        { op with kids := if some x = p then as ++ new :: bs else op.kids } := by
  cases p with
  | none =>
    obtain ⟨rfl, rfl⟩ := h
    refine ⟨{ g with root := if g.root = some top then some new else g.root }, ?_, rfl, rfl, ?_,
      fun x => ?_⟩
    · unfold exchange
      rw [if_pos rfl]
      rfl
    · simp
    · simp [op?]
  | some q =>
    obtain ⟨op, ho, hn, hk, hhead, hlast⟩ := h
    obtain ⟨front, hfront⟩ := List.head?_eq_some_iff.mp hhead
    obtain ⟨back, hback⟩ := List.getLast?_eq_some_iff.mp hlast
    have first : op.kids.idxOf? top = some as.length := by
      have hk' : op.kids = as ++ top :: (front ++ bs) := by rw [hk, hfront]; simp
      rw [hk'] at hn ⊢
      exact idxOf?_of_split hn
    have second : op.kids.idxOf? last = some (as ++ back).length := by
      have hk' : op.kids = (as ++ back) ++ last :: bs := by rw [hk, hback]; simp
      rw [hk'] at hn ⊢
      exact idxOf?_of_split hn
    have length : seg.length = back.length + 1 := by rw [hback]; simp
    have left : op.kids.take as.length = as := by rw [hk]; simp
    have right : op.kids.drop ((as ++ back).length + 1) = bs := by
      rw [hk]
      exact List.drop_left' (by simp [length]; omega)
    have middle : (op.kids.take ((as ++ back).length + 1)).drop as.length = seg := by
      rw [hk, List.take_left' (by simp [length]; omega)]
      simp
    obtain ⟨g', hchange, rw₁⟩ :=
      change_rewrites (fun o => { o with kids := as ++ new :: bs }) ho
    refine ⟨g', ?_, rw₁.owner, rw₁.entry, by simp [rw₁.root], fun x => ?_⟩
    · unfold exchange
      dsimp only
      rw [Effect.bind_ok (find_of_some ho)]
      simp only [first, second]
      rw [if_pos (by simp), left, right, middle, Effect.bind_ok hchange]
      rfl
    · rw [rw₁.ops]
      refine congrArg (fun f => Option.map f _) (funext fun o => ?_)
      by_cases hx : x = q <;> simp [hx]

/-- An exchange that succeeds has found both ends of the range. -/
theorem exchange_eq_ok {q top last new : OpId} {fault : Fault} {seg : List OpId}
    (h : exchange (some q) top last new fault g = .ok seg g') :
    ∃ op, g.op? q = some op ∧ top ∈ op.kids ∧ last ∈ op.kids := by
  unfold exchange at h
  obtain ⟨op, g₁, hfind, hrest⟩ := Effect.bind_eq_ok.mp h
  obtain ⟨hop, rfl⟩ := find_eq_ok.mp hfind
  cases hi : op.kids.idxOf? top with
  | none =>
    simp only [hi] at hrest
    cases hrest
  | some i =>
    cases hj : op.kids.idxOf? last with
    | none =>
      simp only [hi, hj] at hrest
      cases hrest
    | some j =>
      exact ⟨op, hop, List.isSome_idxOf?.mp (by rw [hi]; rfl),
        List.isSome_idxOf?.mp (by rw [hj]; rfl)⟩

/-- **A replacement that succeeds has climbed and exchanged.** -/
theorem exchange_of_replace {first last new : OpId} {unit : CompiledUnit} {keep : Bool}
    (h : replace first last unit keep g = .ok new g') :
    ∃ lastOp top seg g₁, g.op? (g.resolve last) = some lastOp ∧
      childWithin lastOp.parent (.notContiguous first (g.resolve last)) (g.size + 1) first g =
        .ok top g ∧
      exchange lastOp.parent top (g.resolve last) ⟨g.size⟩ (.notContiguous first (g.resolve last))
        { g with
          ops := g.ops.push
            { kind := .native unit, next := lastOp.next, parent := lastOp.parent } } = .ok seg g₁ := by
  unfold replace at h
  rw [Effect.get_bind, Effect.get_bind] at h
  obtain ⟨lastOp, g₁, hfind, h₁⟩ := Effect.bind_eq_ok.mp h
  obtain ⟨hlast, rfl⟩ := find_eq_ok.mp hfind
  rw [Effect.get_bind] at h₁
  obtain ⟨top, g₂, hclimb, h₂⟩ := Effect.bind_eq_ok.mp h₁
  obtain ⟨rfl, -, -⟩ := childWithin_eq_ok hclimb
  obtain ⟨id, g₃, happend, h₃⟩ := Effect.bind_eq_ok.mp h₂
  obtain ⟨seg, g₄, hex, -⟩ := Effect.bind_eq_ok.mp h₃
  cases happend
  exact ⟨lastOp, top, seg, g₄, hlast, hclimb, hex⟩

/-- **A replacement that succeeds has climbed to a sibling of the last op**, and both were kids
of their parent. -/
theorem replace_eq_ok {first last new : OpId} {unit : CompiledUnit} {keep : Bool}
    (h : replace first last unit keep g = .ok new g') :
    ∃ lastOp top fault, g.op? (g.resolve last) = some lastOp ∧
      childWithin lastOp.parent fault (g.size + 1) first g = .ok top g ∧
      ∀ q, lastOp.parent = some q →
        ∃ op, g.op? q = some op ∧ top ∈ op.kids ∧ g.resolve last ∈ op.kids := by
  obtain ⟨lastOp, top, seg, g₁, hlast, hclimb, hex⟩ := exchange_of_replace h
  refine ⟨lastOp, top, _, hlast, hclimb, fun q hq => ?_⟩
  rw [hq] at hex
  obtain ⟨op, ho, htop, hmem⟩ := exchange_eq_ok hex
  rw [op?_push] at ho
  split at ho
  · cases ho
    cases htop
  · exact ⟨op, ho, htop, hmem⟩

/-- **The unit `new` has been put in the place of a range**: of its op, and of every other one
what it has become.  The states of ops in `X` are left open. -/
structure Replaced (X : OpId → Prop) (first last front : OpId) (unit : CompiledUnit)
    (p next : Option OpId) (as bs : List OpId) (g g' : Graph) : Prop where
  owner : g'.owner = g.owner
  size : g'.size = g.size + 1
  root : g'.root = if p = none ∧ g.root = some last then some ⟨g.size⟩ else g.root
  entry : g'.entry = g.entry.map (turn front ⟨g.size⟩)
  new : g'.op? ⟨g.size⟩ = some
    { kind := .native unit, next := next, parent := p, kids := unit.fragments }
  ops : ∀ x op, g.op? x = some op → ∃ s, (¬ X x → s = op.state) ∧
    g'.op? x = some { ({ op with
        state := s
        parent := if x ∈ unit.fragments then some ⟨g.size⟩ else op.parent
        kids := if some x = p then as ++ ⟨g.size⟩ :: bs else op.kids } : Op).turned
          (turn front ⟨g.size⟩) with
      heir := if x = first ∨ x = last ∨ x = front then some ⟨g.size⟩ else op.heir }

/-- **A new op `n` has taken the place of a range**: that what is in `X` may have been marked is all
that has become of the range. -/
structure Vacated (X : OpId → Prop) (last : OpId) (n : Op) (p : Option OpId) (as bs : List OpId)
    (g g' : Graph) : Prop where
  owner : g'.owner = g.owner
  size : g'.size = g.size + 1
  root : g'.root = if p = none ∧ g.root = some last then some ⟨g.size⟩ else g.root
  entry : g'.entry = g.entry
  new : g'.op? ⟨g.size⟩ = some n
  ops : ∀ x op, g.op? x = some op → ∃ s, (¬ X x → s = op.state) ∧
    g'.op? x = some { op with
      state := s, kids := if some x = p then as ++ ⟨g.size⟩ :: bs else op.kids }

theorem ne_new {x : OpId} {op : Op} (hx : g.op? x = some op) : x ≠ ⟨g.size⟩ := by
  rintro rfl
  exact Nat.lt_irrefl _ (lt_size_of_op? hx)

theorem Vacated.op_of {X : OpId → Prop} {last : OpId} {n : Op} {p : Option OpId} {as bs : List OpId}
    (h : Vacated X last n p as bs g g') (hx : ¬ X x) (ho : g.op? x = some op) :
    g'.op? x = some { op with kids := if some x = p then as ++ ⟨g.size⟩ :: bs else op.kids } := by
  obtain ⟨s, hs, ho'⟩ := h.ops x op ho
  rw [ho', hs hx]

/-- The new op is appended and takes the place of the range; nothing has been marked yet. -/
theorem exchange_appended {p : Option OpId} {top last : OpId} {as seg bs : List OpId}
    (hrange : g.Range p top last as seg bs) (n : Op) (fault : Fault) :
    ∃ g', exchange p top last ⟨g.size⟩ fault { g with ops := g.ops.push n } = .ok seg g' ∧
      Vacated (fun _ => False) last n p as bs g g' := by
  let g₁ : Graph := { g with ops := g.ops.push n }
  have ops₁ : ∀ {x o}, g.op? x = some o → g₁.op? x = some o := fun hx => by
    rw [op?_push, if_neg (ne_new hx), hx]
  have new₁ : g₁.op? ⟨g.size⟩ = some n := by rw [op?_push, if_pos rfl]
  have hrange₁ : g₁.Range p top last as seg bs := by
    unfold Range at hrange ⊢
    cases p with
    | none => exact hrange
    | some q =>
      obtain ⟨o, hq, hrest⟩ := hrange
      exact ⟨o, ops₁ hq, hrest⟩
  obtain ⟨g₂, hex, owner₂, entry₂, root₂, ops₂⟩ := exchange_range hrange₁ ⟨g.size⟩ fault
  have hparentNew : some ⟨g.size⟩ ≠ p := by
    rintro rfl
    obtain ⟨o, hq, -⟩ := hrange
    exact ne_new hq rfl
  refine ⟨g₂, hex, owner₂, (size_of_map ops₂).trans (by simp [g₁, size]), root₂, entry₂, ?_,
    fun x o hx => ⟨o.state, fun _ => rfl, ?_⟩⟩
  · rw [ops₂, new₁, Option.map_some, if_neg hparentNew]
  · rw [ops₂, ops₁ hx, Option.map_some]

/-- The new op is appended and takes the place of the range, whose ops are marked as dead; where the
range consists of trees, all their ops are. -/
theorem exchange_vacated {X : OpId → Prop} {p : Option OpId} {top last : OpId} {as seg bs : List OpId}
    (hrange : g.Range p top last as seg bs) (hX : g.Closed X) (hold : ∀ x, X x → x.index < g.size)
    (hseg : ∀ x ∈ seg, X x) (hpX : ∀ q, p = some q → ¬ X q) (n : Op) (fault : Fault) :
    ∃ g', exchange p top last ⟨g.size⟩ fault { g with ops := g.ops.push n } = .ok seg g' ∧
      Vacated X last n p as bs g (seg.foldl (fun g r => g.mark .dead r) g') ∧
      ∀ us : List HostTree, seg = us.map HostTree.root → (∀ u ∈ us, HostTree.Reads g u ∧
        u.ids.Nodup ∧ ∀ x ∈ u.ids, X x) → ∀ x ∈ HostTree.idsAll us,
          (seg.foldl (fun g r => g.mark .dead r) g').IsDead x := by
  obtain ⟨g₂, hex, opened⟩ := exchange_appended hrange n fault
  have closed₂ : g₂.Closed X := by
    rintro a b ha ⟨o, hoa, hb⟩
    obtain ⟨o₁, ho₁⟩ := exists_op? (hold a ha)
    rw [opened.op_of id ho₁] at hoa
    cases hoa
    have hne : some a ≠ p := fun hp => hpX a hp.symm ha
    simp only [if_neg hne] at hb
    exact hX a b ha ⟨o₁, ho₁, hb⟩
  have marked := Remarked.foldl (f := fun g r => g.mark .dead r)
    (fun g k hk hc => markWithin_remarked .dead g.size hk hc) hseg closed₂
  refine ⟨g₂, hex, ⟨marked.owner.trans opened.owner, marked.size.trans opened.size,
    marked.root.trans opened.root, marked.entry.trans opened.entry, ?_, fun x o hx => ?_⟩,
    fun us hus trees x hx => ?_⟩
  · obtain ⟨s, hs, ho₃⟩ := marked.ops _ n opened.new
    rw [ho₃, hs fun hx => Nat.lt_irrefl _ (hold _ hx)]
  · exact marked.ops x _ (opened.op_of id hx)
  · have reads₂ : ∀ u ∈ us, HostTree.Reads g₂ u := by
      intro u hu s hs
      obtain ⟨hr, -, hin⟩ := trees u hu
      obtain ⟨o, hso, hface, hkids⟩ := hr s hs
      have hne : some s.root ≠ p := fun hp =>
        hpX _ hp.symm (hin _ (HostTree.mem_ids.mpr ⟨s, hs, rfl⟩))
      exact ⟨o, by rw [opened.op_of id hso, if_neg hne], hface, hkids⟩
    rw [hus]
    exact isDead_mark (fun u hu => (trees u hu).2.1) reads₂ hx

theorem Vacated.ordered {X : OpId → Prop} {last : OpId} {n : Op} {p : Option OpId} {as bs : List OpId}
    (h : Vacated X last n p as bs g g') (ho : g.Ordered) (hn : n.heir = none) : g'.Ordered := by
  rintro x y ⟨o', hx', hheir⟩
  by_cases hx : x = ⟨g.size⟩
  · rw [hx, h.new] at hx'
    cases hx'
    rw [hn] at hheir
    cases hheir
  · have hlt := lt_size_of_op? hx'
    rw [h.size] at hlt
    have hne : x.index ≠ g.size := fun he => hx (by cases x; exact congrArg OpId.mk he)
    obtain ⟨o, hxo⟩ := exists_op? (show x.index < g.size by omega)
    obtain ⟨s, -, hs⟩ := h.ops x o hxo
    rw [hx'] at hs
    cases hs
    exact ho x y ⟨o, hxo, hheir⟩

/-- Three ops get an heir. -/
theorem op?_bequeath (first last front new : OpId) (g : Graph) (x : OpId) :
    ([first, last, front].foldl (bequeath new) g).op? x = (g.op? x).map fun o =>
      { o with heir := if x = first ∨ x = last ∨ x = front then some new else o.heir } := by
  simp only [List.foldl_cons, List.foldl_nil, bequeath, op?_update]
  cases g.op? x with
  | none => simp
  | some o => split_ifs <;> simp_all

/-- **A unit that has taken the place of a range adopts its fragments**, links to the front of the
range are turned to it, and it is the heir of the range. -/
theorem Vacated.replaced {X : OpId → Prop} {first last front : OpId} {unit : CompiledUnit}
    {p next : Option OpId} {as bs : List OpId} {g₁ g₂ : Graph}
    (h : Vacated X last { kind := .native unit, next := next, parent := p } p as bs g g₁)
    (hadopt : Rewrites (fun x op => { op with
      parent := if x ∈ unit.fragments then some ⟨g.size⟩ else op.parent
      kids := if x = ⟨g.size⟩ then op.kids ++ unit.fragments else op.kids }) g₁ g₂)
    (hnew : ⟨g.size⟩ ∉ unit.fragments) (hends : ∀ x ∈ [first, last, front], x ≠ ⟨g.size⟩) :
    Replaced X first last front unit p next as bs g
      ([first, last, front].foldl (bequeath ⟨g.size⟩) (redirectLinks front ⟨g.size⟩ g₂)) where
  owner := by
    show g₂.owner = g.owner
    rw [hadopt.owner, h.owner]
  size := by
    rw [size_of_map (op?_bequeath first last front ⟨g.size⟩ _),
      size_of_map (op?_redirectLinks front ⟨g.size⟩ g₂), hadopt.size, h.size]
  root := by
    show g₂.root = _
    rw [hadopt.root, h.root]
  entry := by
    show redirect front ⟨g.size⟩ g₂.entry = _
    rw [redirect_eq_map, hadopt.entry, h.entry]
  new := by
    have fresh : ¬ (⟨g.size⟩ = first ∨ ⟨g.size⟩ = last ∨ ⟨g.size⟩ = front) := by
      simp only [List.mem_cons, List.not_mem_nil, or_false, forall_eq_or_imp, forall_eq] at hends
      obtain ⟨h₁, h₂, h₃⟩ := hends
      exact fun h => h.elim h₁.symm fun h => h.elim h₂.symm h₃.symm
    rw [op?_bequeath, op?_redirectLinks, hadopt.op_of h.new]
    simp only [Option.map_some, if_true, if_neg fresh, if_neg hnew]
    rfl
  ops x o hx := by
    obtain ⟨s, hs, ho₁⟩ := h.ops x o hx
    refine ⟨s, hs, ?_⟩
    rw [op?_bequeath, op?_redirectLinks, hadopt.op_of ho₁]
    simp only [Option.map_some, if_neg (ne_new hx), Op.heir_turned]

/-- **Putting in a unit succeeds**, where the range is one of siblings and its first op rises
to the first of them; where the range consists of trees, all their ops are dead then. -/
theorem replace_replaced {X S : OpId → Prop} {first last front top : OpId} {unit : CompiledUnit}
    {lastOp topOp : Op} {as seg bs : List OpId} (ho : g.Ordered) (hfront : g.Stands first front)
    (hlast : g.op? last = some lastOp) (hheir : lastOp.heir = none) (hclimb : g.Rises S first top)
    (htop : g.op? top = some topOp) (hparent : topOp.parent = lastOp.parent)
    (hS : ∀ q, lastOp.parent = some q → ¬ S q) (hrange : g.Range lastOp.parent top last as seg bs)
    (hX : g.Closed X) (hold : ∀ x, X x → x.index < g.size) (hseg : ∀ x ∈ seg, X x)
    (hpX : ∀ q, lastOp.parent = some q → ¬ X q)
    (hfs : ∀ f ∈ unit.fragments, ∃ o, g.op? f = some o ∧ o.heir = none) :
    ∃ g', replace first last unit false g = .ok ⟨g.size⟩ g' ∧
      Replaced X first last front unit lastOp.parent lastOp.next as bs g g' ∧
      ∀ us : List HostTree, seg = us.map HostTree.root → (∀ u ∈ us, HostTree.Reads g u ∧
        u.ids.Nodup ∧ ∀ x ∈ u.ids, X x) → ∀ x ∈ HostTree.idsAll us, g'.IsDead x := by
  obtain ⟨g₂, hex, vacated, dead⟩ := exchange_vacated hrange hX hold hseg hpX
    { kind := .native unit, next := lastOp.next, parent := lastOp.parent }
    (Fault.notContiguous first last)
  have placed : List.Forall₂ (seg.foldl (fun g r => g.mark .dead r) g₂).Stands unit.fragments
      unit.fragments := List.forall₂_same.mpr fun f hf => by
    obtain ⟨o, hfo, hfh⟩ := hfs f hf
    obtain ⟨s, -, hs⟩ := vacated.ops f o hfo
    exact .refl hs hfh
  have fresh : ⟨g.size⟩ ∉ unit.fragments := fun hf => by
    obtain ⟨o, hfo, -⟩ := hfs _ hf
    exact ne_new hfo rfl
  obtain ⟨g₄, hadopt, rw₄⟩ := forM_adopt (vacated.ordered ho rfl) ⟨_, vacated.new⟩ placed
  have ends : ∀ x ∈ [first, last, front], x ≠ ⟨g.size⟩ := by
    obtain ⟨o, hfirst⟩ := hfront.exists_op?
    obtain ⟨o', hfront', -⟩ := hfront.2
    simpa using ⟨ne_new hfirst, ne_new hlast, ne_new hfront'⟩
  refine ⟨_, ?_, vacated.replaced rw₄ fresh ends, fun us hus trees x hx => ?_⟩
  · unfold replace
    rw [Effect.get_bind, hfront.resolve ho, Effect.get_bind,
      (Stands.refl hlast hheir).resolve ho]
    dsimp only
    rw [Effect.bind_ok (find_of_some hlast), Effect.get_bind,
      Effect.bind_ok (hclimb.childWithin htop hparent hS _)]
    have appended : append { kind := .native unit, next := lastOp.next, parent := lastOp.parent } g =
        .ok ⟨g.size⟩ _ := rfl
    rw [Effect.bind_ok appended, Effect.bind_ok hex, Effect.modify_bind]
    simp only [Bool.false_eq_true, if_false]
    rw [Effect.bind_ok hadopt]
    rfl
  · have dead₄ : g₄.IsDead x := (dead us hus trees x hx).map (rw₄.ops x) fun _ => rfl
    refine IsDead.map ?_ (op?_bequeath first last front ⟨g.size⟩ _ x) fun _ => rfl
    refine dead₄.map (op?_redirectLinks front ⟨g.size⟩ g₄ x) fun o => ?_
    split
    · rfl
    · exact Op.state_turned _ o

end Graft.Graph
