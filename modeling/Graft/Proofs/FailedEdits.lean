import Graft.Proofs.RepeatedSplice
import Graft.Proofs.Succession

/-! # Edits that fail

An edit looks up the ops that it names as it goes.  The owner, and the ends of a range or the root
of a fragment, come before anything is changed; only the op of a unit is appended by the time the
range is found not to be one.  An edit that fails there has not changed the program
(`Graph.Untouched`).

The fragments of a unit and the exits of a fragment are looked up last, one by one, when the unit or
the fragment has already changed its place.  If one of them is not an op, the edit stops there, and
what it has done stays (`Graph.Stopped`): a parent may list a unit that no link leads to, or may
have lost a fragment whose exits are not all cut.

What such an edit leaves is said in full.  Of a detachment it is what the detachment does with the
exits before the missing one, and that is an edit which succeeds.  A replacement has no such shorter
edit, since it would go on to turn links and name heirs.  So its state is described by itself
(`Graph.Halfway`): which range it has found, from the sibling that holds the first op to the op that
stands for the last; the new op in its place; the fragments that the new op has adopted by then; and
that other ops are as they were but for their states.

The loops over fragments and exits have one lemma between them (`forM_known_or_stops`).  Where a
loop fails it has found all ops before the missing one, and the state is that of the loop over
these.
-/

namespace Graft

open Effect (stateOf)

/-- The ops that a change looks up when it has begun to change the graph: the fragments of a unit,
or the exits of a fragment. -/
def Change.trailing : Change → List OpId
  | .replace _ _ unit _ => unit.fragments
  | .detach _ _ exits => exits

namespace Graph

variable {g g₁ g' : Graph} {x y : OpId} {op : Op}

/-! ### Ops that are not there -/

/-- **A loop over ops stops at the first one that is not there**, if it succeeds as long as they
are. -/
theorem forM_known_or_stops {k : OpId → GraphM PUnit} {Q : List OpId → Graph → Prop}
    (known : ∀ xs, (∀ x ∈ xs, ∃ op, g.op? x = some op) → ∃ g', xs.forM k g = .ok ⟨⟩ g' ∧ Q xs g')
    (unknown : ∀ xs g' x, Q xs g' → g.op? x = none → k x g' = .error (.unknownOp x) g')
    (xs : List OpId) :
    (∃ g', xs.forM k g = .ok ⟨⟩ g') ∨ ∃ before x after g', xs = before ++ x :: after ∧
      (∀ y ∈ before, ∃ op, g.op? y = some op) ∧ g.op? x = none ∧
      xs.forM k g = .error (.unknownOp x) g' ∧ before.forM k g = .ok ⟨⟩ g' ∧ Q before g' := by
  cases hfind : xs.find? fun x => (g.op? x).isNone with
  | none =>
    have all : ∀ x ∈ xs, ∃ op, g.op? x = some op := by
      intro x hx
      have here := List.find?_eq_none.mp hfind x hx
      exact Option.ne_none_iff_exists'.mp fun hnone => here (by simp [hnone])
    obtain ⟨g', hloop, -⟩ := known xs all
    exact .inl ⟨g', hloop⟩
  | some x =>
    obtain ⟨hx, before, after, rfl, hbefore⟩ := List.find?_eq_some_iff_append.mp hfind
    have hnone : g.op? x = none := by simpa using hx
    have all : ∀ y ∈ before, ∃ op, g.op? y = some op := by
      intro y hy
      have here := hbefore y hy
      exact Option.ne_none_iff_exists'.mp fun hnone => by simp [hnone] at here
    obtain ⟨g', hloop, hq⟩ := known before all
    refine .inr ⟨before, x, after, g', rfl, all, hnone, ?_, hloop, hq⟩
    rw [List.forM_eq_forM, List.forM_append, ← List.forM_eq_forM, Effect.bind_ok hloop,
      List.forM_eq_forM, List.forM_cons, Effect.bind_error (unknown before g' x hq hnone)]

theorem resolve_of_lineage (h : g'.lineage = g.lineage) (x : OpId) : g'.resolve x = g.resolve x := by
  have heirs : ∀ x, (g'.op? x).bind Op.heir = (g.op? x).bind Op.heir := by
    intro x
    have same := congrArg (Option.bind · Prod.snd) (congrFun h x)
    simp only [lineage, Option.bind_map] at same
    exact same
  have within : ∀ n x, g'.resolveWithin n x = g.resolveWithin n x := by
    intro n
    induction n with
    | zero => exact fun _ => rfl
    | succ n ih =>
      intro x
      rw [resolveWithin, resolveWithin, heirs x]
      cases (g.op? x).bind Op.heir with
      | none => rfl
      | some z => exact ih z
  rw [resolve, resolve, size_of_lineage h, within]

theorem op?_none_of_lineage (h : g'.lineage = g.lineage) (hx : g.op? x = none) : g'.op? x = none := by
  rw [op?_eq_none_iff] at hx ⊢
  rw [size_of_lineage h]
  exact hx

/-- Rewriting that keeps kinds and heirs. -/
theorem Rewrites.lineage_eq {F : OpId → Op → Op} (h : Rewrites F g g')
    (hF : ∀ x op, (F x op).kind = op.kind ∧ (F x op).heir = op.heir) : g'.lineage = g.lineage := by
  funext x
  unfold lineage
  rw [h.ops, Option.map_map]
  refine congrArg (fun k => Option.map k (g.op? x)) (funext fun o => ?_)
  simp [hF x o]

theorem HeirsLater.stands_all (hg : g.HeirsLater) {xs : List OpId}
    (h : ∀ x ∈ xs, ∃ op, g.op? x = some op) :
    List.Forall₂ g.Stands xs (xs.map g.resolve) := by
  rw [List.forall₂_map_right_iff, List.forall₂_same]
  intro x hx
  obtain ⟨op, ho⟩ := h x hx
  exact hg.stands_resolve ho

/-- Exits are cut up to the first one that is not an op. -/
theorem forM_cut_known_or_stops (hg : g.HeirsLater) (exits : List OpId) :
    (∃ g', exits.forM cut g = .ok ⟨⟩ g') ∨ ∃ before x after g', exits = before ++ x :: after ∧
      (∀ y ∈ before, ∃ op, g.op? y = some op) ∧ g.op? x = none ∧
      exits.forM cut g = .error (.unknownOp x) g' ∧ before.forM cut g = .ok ⟨⟩ g' ∧
      g'.lineage = g.lineage := by
  refine forM_known_or_stops (fun xs hxs => ?_) (fun _ g' x kept hx => ?_) exits
  · obtain ⟨g', hcut, rewritten⟩ := forM_cut (hg.stands_all hxs) hg.ordered
    refine ⟨g', hcut, rewritten.lineage_eq fun x op => ?_⟩
    split <;> exact ⟨rfl, rfl⟩
  · have hnone := op?_none_of_lineage kept hx
    unfold cut
    rw [Effect.get_bind, resolve_of_none hnone]
    exact change_of_none hnone

/-- What an op adopts, as seen from the graph before or from the one after. -/
theorem Rewrites.adopted {new : OpId} {xs : List OpId}
    (h : Rewrites (fun x op => { op with
      parent := if x ∈ xs.map g.resolve then some new else op.parent
      kids := if x = new then op.kids ++ xs.map g.resolve else op.kids }) g g') :
    Rewrites (fun x op => { op with
      parent := if x ∈ xs.map g'.resolve then some new else op.parent
      kids := if x = new then op.kids ++ xs.map g'.resolve else op.kids }) g g' := by
  have kept : g'.lineage = g.lineage := h.lineage_eq fun _ _ => ⟨rfl, rfl⟩
  have same : xs.map g'.resolve = xs.map g.resolve :=
    List.map_congr_left fun y _ => resolve_of_lineage kept y
  rw [same]
  exact h

/-- Fragments are adopted up to the first one that is not an op. -/
theorem forM_adopt_known_or_stops (hg : g.HeirsLater) {new : OpId} (hnew : ∃ op, g.op? new = some op)
    (fragments : List OpId) :
    (∃ g', fragments.forM (adopt new) g = .ok ⟨⟩ g') ∨
    ∃ before x after g', fragments = before ++ x :: after ∧
      (∀ y ∈ before, ∃ op, g.op? y = some op) ∧ g.op? x = none ∧
      fragments.forM (adopt new) g = .error (.unknownOp x) g' ∧
      before.forM (adopt new) g = .ok ⟨⟩ g' ∧ Rewrites (fun x op => { op with
        parent := if x ∈ before.map g'.resolve then some new else op.parent
        kids := if x = new then op.kids ++ before.map g'.resolve else op.kids }) g g' := by
  refine forM_known_or_stops (fun xs hxs => ?_) (fun _ g' x rewritten hx => ?_) fragments
  · obtain ⟨g', hadopt, rewritten⟩ := forM_adopt hg.ordered hnew (hg.stands_all hxs)
    exact ⟨g', hadopt, rewritten.adopted⟩
  · have hnone := op?_none_of_lineage (rewritten.lineage_eq fun _ _ => ⟨rfl, rfl⟩) hx
    unfold adopt
    rw [Effect.get_bind, resolve_of_none hnone, Effect.bind_error (change_of_none hnone)]

/-! ### Detachments -/

/-- What a detachment does before it comes to the exits. -/
theorem detach_eq_bind (root : OpId) (keep : Bool) (exits : List OpId) :
    detach root keep exits = (do detach root keep []; exits.forM cut) := by
  unfold detach
  simp only [bind_assoc, List.forM_eq_forM, List.forM_nil, pure_bind]

theorem disown_rewrites {p : Option OpId} (r : OpId)
    (hp : ∀ q, p = some q → ∃ op, g.op? q = some op) : ∃ g', disown p r g = .ok () g' ∧
      Rewrites (fun x op => { op with
        kids := if p = some x then op.kids.filter fun k => k ≠ r else op.kids }) g g' := by
  cases p with
  | none => exact ⟨g, rfl, by simpa using Rewrites.refl g⟩
  | some q =>
    obtain ⟨op, hq⟩ := hp q rfl
    obtain ⟨g', hchange, rewritten⟩ :=
      change_rewrites (fun o => { o with kids := o.kids.filter fun k => k ≠ r }) hq
    refine ⟨g', hchange, rewritten.congr fun x o _ => ?_⟩
    by_cases hx : x = q
    · simp [hx]
    · simp [hx, Ne.symm hx]

theorem retire_remarked {r : OpId} (keep : Bool) (hr : g.op? r = some op) :
    ∃ g', retire keep r g = .ok () g' ∧ Remarked (fun _ => True) g g' := by
  cases keep with
  | true => exact ⟨_, change_of_some hr, .update trivial _⟩
  | false => exact ⟨_, rfl, markWithin_remarked_all _ g r⟩

/-- **A detachment up to its exits** takes the root out of its parent's list, and marks ops. -/
theorem detach_nil_ok {root : OpId} {rootOp : Op} (keep : Bool)
    (hroot : g.op? (g.resolve root) = some rootOp)
    (hparent : ∀ p, rootOp.parent = some p → ∃ op, g.op? p = some op) :
    ∃ g', detach root keep [] g = .ok () g' ∧ ∀ x op, g.op? x = some op → ∃ s ks,
      (rootOp.parent ≠ some x → ks = op.kids) ∧ g'.op? x = some { op with state := s, kids := ks } := by
  obtain ⟨g₁, hdisown, rewritten⟩ := disown_rewrites (g.resolve root) hparent
  obtain ⟨g₂, hretire, marked⟩ := retire_remarked keep
    (g := { g₁ with root := if g₁.root = some (g.resolve root) then none else g₁.root })
    (rewritten.op_of hroot)
  refine ⟨g₂, ?_, fun x op ho => ?_⟩
  · unfold detach
    rw [Effect.get_bind, Effect.bind_ok (find_of_some hroot), Effect.bind_ok hdisown,
      Effect.modify_bind, Effect.bind_ok hretire]
    rfl
  · obtain ⟨s, -, hs⟩ := marked.ops x _ (rewritten.op_of ho)
    exact ⟨s, _, fun hx => if_neg hx, hs⟩

/-- A detachment that fails before it comes to the exits has changed nothing. -/
theorem detach_nil_error {root : OpId} {keep : Bool} {fault : Fault}
    (h : detach root keep [] g = .error fault g') : g' = g := by
  cases hroot : g.op? (g.resolve root) with
  | none =>
    unfold detach at h
    rw [Effect.get_bind, Effect.bind_error (find_of_none hroot)] at h
    cases h
    rfl
  | some rootOp =>
    by_cases hparent : ∀ p, rootOp.parent = some p → ∃ op, g.op? p = some op
    · -- once the parent has been found, nothing is left that can fail
      obtain ⟨g₁, hok, -⟩ := detach_nil_ok keep hroot hparent
      rw [hok] at h
      cases h
    · push Not at hparent
      obtain ⟨p, hp, missing⟩ := hparent
      have missed : disown rootOp.parent (g.resolve root) g = .error (.unknownOp p) g := by
        rw [hp]
        exact change_of_none (Option.eq_none_iff_forall_ne_some.mpr missing)
      unfold detach at h
      rw [Effect.get_bind, Effect.bind_ok (find_of_some hroot), Effect.bind_error missed] at h
      cases h
      rfl

/-- **A detachment that fails** has changed nothing, or it has not found one of its exits, and has
done what it does with the exits before that one. -/
theorem detach_error (hg : g.HeirsLater) {root : OpId} {keep : Bool} {exits : List OpId} {fault : Fault}
    (h : detach root keep exits g = .error fault g') :
    g' = g ∨ ∃ before x after, exits = before ++ x :: after ∧ g.op? x = none ∧
      fault = .unknownOp x ∧ detach root keep before g = .ok () g' := by
  rw [detach_eq_bind] at h
  have kept := (stable_lineage g.lineage).detach root keep [] g rfl
  cases hstart : detach root keep [] g with
  | error e g₁ =>
    rw [Effect.bind_error hstart] at h
    cases h
    exact .inl (detach_nil_error hstart)
  | ok u g₁ =>
    rw [hstart] at kept
    have lineage₁ : g₁.lineage = g.lineage := kept
    have later := hg.congr lineage₁
    rw [Effect.bind_ok hstart] at h
    obtain ⟨g₂, hok⟩ | ⟨before, x, after, g₂, hsplit, -, hx, herror, hbefore, -⟩ :=
      forM_cut_known_or_stops later exits
    · rw [hok] at h
      cases h
    · rw [herror] at h
      cases h
      refine .inr ⟨before, x, after, hsplit, op?_none_of_lineage lineage₁.symm hx, rfl, ?_⟩
      rw [detach_eq_bind, Effect.bind_ok hstart]
      exact hbefore

/-! ### Replacements -/

/-- **The siblings from `top` to `last` below `p`**, from the first place where the one is listed to
the first place where the other is. -/
def Between (g : Graph) (p : Option OpId) (top last : OpId) (as seg bs : List OpId) : Prop :=
  match p with
  | some q => ∃ op, g.op? q = some op ∧ op.kids = as ++ seg ++ bs ∧ seg.head? = some top ∧
      seg.getLast? = some last ∧ top ∉ as ∧ last ∉ as ++ seg.dropLast
  | none => top = last ∧ as = [] ∧ seg = [last] ∧ bs = []

theorem notMem_take_of_idxOf? {ks : List OpId} {i : Nat} (h : ks.idxOf? x = some i) :
    x ∉ ks.take i := by
  obtain ⟨_, _, before⟩ := List.findIdx?_eq_some_iff_getElem.mp h
  intro hx
  obtain ⟨j, hj, here⟩ := List.mem_take_iff_getElem.mp hx
  exact before j (by omega) (by simpa using here)

/-- A list is cut where two of its members are first found. -/
theorem split_of_idxOf? {ks : List OpId} {i j : Nat} (hi : ks.idxOf? x = some i)
    (hj : ks.idxOf? y = some j) (hij : i ≤ j) :
    ks = ks.take i ++ (ks.take (j + 1)).drop i ++ ks.drop (j + 1) ∧
      ((ks.take (j + 1)).drop i).head? = some x ∧ ((ks.take (j + 1)).drop i).getLast? = some y ∧
      x ∉ ks.take i ∧ y ∉ ks.take i ++ ((ks.take (j + 1)).drop i).dropLast := by
  have hx := getElem?_of_idxOf? hi
  have hy := getElem?_of_idxOf? hj
  have long : j < ks.length := (List.getElem?_eq_some_iff.mp hy).1
  have shorter : ks.take i = (ks.take (j + 1)).take i := by
    rw [List.take_take, Nat.min_eq_left (by omega)]
  have segment : (ks.take (j + 1)).drop i = (ks.take j).drop i ++ [y] := by
    rw [List.take_add_one, hy, Option.toList_some, List.drop_append_of_le_length (by simp; omega)]
  refine ⟨?_, ?_, ?_, notMem_take_of_idxOf? hi, ?_⟩
  · rw [shorter, List.take_append_drop, List.take_append_drop]
  · rw [List.head?_drop, List.getElem?_take_of_lt (by omega), hx]
  · rw [segment, List.getLast?_concat]
  · have prior : ks.take i ++ (ks.take j).drop i = ks.take j := by
      rw [show ks.take i = (ks.take j).take i by rw [List.take_take, Nat.min_eq_left hij],
        List.take_append_drop]
    rw [segment, List.dropLast_concat, prior]
    exact notMem_take_of_idxOf? hj

/-- **An exchange below a parent** finds both ends in the right order, or changes nothing. -/
theorem exchange_cases {q top last new : OpId} {fault : Fault} (hq : g.op? q = some op) :
    exchange (some q) top last new fault g = .error fault g ∨
    ∃ i j, op.kids.idxOf? top = some i ∧ op.kids.idxOf? last = some j ∧ i ≤ j ∧
      exchange (some q) top last new fault g = .ok ((op.kids.take (j + 1)).drop i)
        (g.update q fun o => { o with kids := op.kids.take i ++ new :: op.kids.drop (j + 1) }) := by
  unfold exchange
  dsimp only
  rw [Effect.bind_ok (find_of_some hq)]
  cases hi : op.kids.idxOf? top with
  | none => exact .inl rfl
  | some i =>
    cases hj : op.kids.idxOf? last with
    | none => exact .inl rfl
    | some j =>
      dsimp only
      split
      next hij =>
        rw [Effect.bind_ok (change_of_some hq)]
        exact .inr ⟨i, j, rfl, rfl, hij, rfl⟩
      next => exact .inl rfl

/-- An exchange that fails changes nothing. -/
theorem exchange_error {p : Option OpId} {top last new : OpId} {fault e : Fault}
    (h : exchange p top last new fault g = .error e g') : g' = g := by
  cases p with
  | none =>
    unfold exchange at h
    dsimp only at h
    split at h
    · cases h
    · cases h
      rfl
  | some q =>
    cases hq : g.op? q with
    | none =>
      unfold exchange at h
      dsimp only at h
      rw [Effect.bind_error (find_of_none hq)] at h
      cases h
      rfl
    | some op =>
      obtain hfail | ⟨i, j, -, -, -, hok⟩ := exchange_cases hq
      · rw [hfail] at h
        cases h
        rfl
      · rw [hok] at h
        cases h

/-- The new op has taken the place of a range, also where a kid is listed twice. -/
theorem vacated_of_exchange {p : Option OpId} {top last : OpId} {fault : Fault} {seg : List OpId}
    {n : Op} (hn : n.kids = [])
    (h : exchange p top last ⟨g.size⟩ fault { g with ops := g.ops.push n } = .ok seg g') :
    ∃ as bs, Vacated (fun _ => False) last n p as bs g g' ∧ g.Between p top last as seg bs := by
  have size₁ : Graph.size { g with ops := g.ops.push n } = g.size + 1 := by simp [size]
  cases p with
  | none =>
    unfold exchange at h
    dsimp only at h
    split at h
    · next htop =>
      cases h
      refine ⟨[], [], ⟨rfl, size₁, ?_, rfl, ?_, ?_⟩, htop, rfl, rfl, rfl⟩
      · simp
      · exact (op?_push g n _).trans (if_pos rfl)
      · intro x op ho
        refine ⟨op.state, fun _ => rfl, ?_⟩
        rw [if_neg (by simp)]
        exact (op?_push g n x).trans ((if_neg (ne_new ho)).trans ho)
    · cases h
  | some q =>
    obtain ⟨op, hq₁, -, -⟩ := exchange_eq_ok h
    obtain hfail | ⟨i, j, hi, hj, hij, hok⟩ := exchange_cases hq₁
    · rw [hfail] at h
      cases h
    rw [hok] at h
    cases h
    have hold : g.op? q = some op := by
      rw [op?_push] at hq₁
      split at hq₁
      · -- the new op lists nothing
        cases hq₁
        rw [hn] at hj
        cases hj
      · exact hq₁
    have hqnew := ne_new hold
    refine ⟨op.kids.take i, op.kids.drop (j + 1), ⟨rfl, ?_, ?_, rfl, ?_, ?_⟩, ?_⟩
    · rw [size_update, size₁]
    · rw [if_neg (by simp)]
      rfl
    · rw [op?_update_of_ne (Ne.symm hqnew), op?_push, if_pos rfl]
    · intro x o ho
      refine ⟨o.state, fun _ => rfl, ?_⟩
      rw [op?_update, op?_push, if_neg (ne_new ho), ho]
      by_cases hx : x = q
      · rw [if_pos hx, if_pos (congrArg some hx)]
        rfl
      · rw [if_neg hx, if_neg (by simpa using hx)]
    · exact ⟨op, hold, split_of_idxOf? hi hj hij⟩

/-- **What a replacement leaves that stops at one of its fragments.**  The new op `n` has taken the
place of the range, which ended with `last`, and has adopted `fs`; ops are changed in nothing else
but their states, and no link has been turned. -/
structure Interrupted (n : Op) (last : OpId) (p : Option OpId) (as bs fs : List OpId)
    (g g' : Graph) : Prop where
  owner : g'.owner = g.owner
  size : g'.size = g.size + 1
  root : g'.root = if p = none ∧ g.root = some last then some ⟨g.size⟩ else g.root
  entry : g'.entry = g.entry
  /-- The new op may have been named as one of its own fragments. -/
  new : ∃ s, g'.op? ⟨g.size⟩ = some { n with
    state := s
    parent := if ⟨g.size⟩ ∈ fs then some ⟨g.size⟩ else n.parent
    kids := n.kids ++ fs }
  ops : ∀ x op, g.op? x = some op → ∃ s, g'.op? x = some { op with
    state := s
    parent := if x ∈ fs then some ⟨g.size⟩ else op.parent
    kids := if some x = p then as ++ ⟨g.size⟩ :: bs else op.kids }

/-- A unit that has taken the place of a range adopts fragments, whatever has been marked. -/
theorem Vacated.interrupted {last : OpId} {n : Op} {p : Option OpId} {as bs fs : List OpId}
    {g₂ g₃ : Graph} (h : Vacated (fun _ => False) last n p as bs g g₁)
    (hmark : Remarked (fun _ => True) g₁ g₂)
    (hadopt : Rewrites (fun x op => { op with
      parent := if x ∈ fs then some ⟨g.size⟩ else op.parent
      kids := if x = ⟨g.size⟩ then op.kids ++ fs else op.kids }) g₂ g₃) :
    Interrupted n last p as bs fs g g₃ where
  owner := by rw [hadopt.owner, hmark.owner, h.owner]
  size := by rw [hadopt.size, hmark.size, h.size]
  root := by rw [hadopt.root, hmark.root, h.root]
  entry := by rw [hadopt.entry, hmark.entry, h.entry]
  new := by
    obtain ⟨s, -, hs⟩ := hmark.ops _ _ h.new
    exact ⟨s, by rw [hadopt.op_of hs, if_pos rfl]⟩
  ops x op hx := by
    obtain ⟨s, -, hs⟩ := hmark.ops x _ (h.op_of id hx)
    exact ⟨s, by rw [hadopt.op_of hs]; simp only [if_neg (ne_new hx)]⟩

/-- **Putting a unit in its place** fails before it changes anything, or at one of the fragments;
what comes after that does not fail. -/
theorem place_error (hg : g.HeirsLater) {unit : CompiledUnit} {p next : Option OpId} {top last : OpId}
    {refusal fault : Fault} {state : OpState} {k : GraphM OpId} (hk : ∀ g, ∃ a g', k g = .ok a g')
    (h : (do
      let removed ← exchange p top last ⟨g.size⟩ refusal
      modify fun g : Graph => removed.foldl (fun g r => g.mark state r) g
      unit.fragments.forM (adopt ⟨g.size⟩)
      k : GraphM OpId) (g.withUnit unit next p) = .error fault g') :
    g' = g.withUnit unit next p ∨
    ∃ before x after, unit.fragments = before ++ x :: after ∧ g.op? x = none ∧ fault = .unknownOp x ∧
      ∃ as seg bs, g.Between p top last as seg bs ∧ (∀ y ∈ before, ∃ op, g'.op? y = some op) ∧
        Interrupted { kind := .native unit, next, parent := p } last p as bs (before.map g'.resolve)
          g g' := by
  have kept := (stable_lineage (g.withUnit unit next p).lineage).exchange p top last ⟨g.size⟩ refusal
    _ rfl
  cases hex : exchange p top last ⟨g.size⟩ refusal (g.withUnit unit next p) with
  | error e g₁ =>
    rw [Effect.bind_error hex] at h
    cases h
    exact .inl (exchange_error hex)
  | ok seg g₁ =>
    rw [hex] at kept
    rw [Effect.bind_ok hex, Effect.modify_bind] at h
    obtain ⟨as, bs, vacated, between⟩ := vacated_of_exchange
      (n := { kind := .native unit, next, parent := p }) rfl hex
    have marked : Remarked (fun _ => True) g₁ (seg.foldl (fun g r => g.mark state r) g₁) :=
      .foldl (fun g _ hk hc => markWithin_remarked state g.size hk hc) (fun _ _ => trivial)
        fun _ _ _ _ => trivial
    have lineage₂ : (seg.foldl (fun g r => g.mark state r) g₁).lineage =
        (g.withUnit unit next p).lineage :=
      foldl_maintains (P := fun g₂ => g₂.lineage = (g.withUnit unit next p).lineage)
        (fun g r => (stable_lineage _).markWithin state g.size r) seg kept
    generalize seg.foldl (fun g r => g.mark state r) g₁ = g₂ at h marked lineage₂
    have later : g₂.HeirsLater :=
      (hg.push (n := { kind := .native unit, next, parent := p }) rfl).congr lineage₂
    obtain ⟨s, -, hnew⟩ := marked.ops _ _ vacated.new
    obtain ⟨g₃, hok⟩ | ⟨before, x, after, g₃, hsplit, known, hx, herror, -, rw₃⟩ :=
      forM_adopt_known_or_stops later ⟨_, hnew⟩ unit.fragments
    · obtain ⟨a, g₄, hdone⟩ := hk g₃
      rw [Effect.bind_ok hok, hdone] at h
      cases h
    · rw [Effect.bind_error herror] at h
      cases h
      have unknown : g.op? x = none := by
        have hx₁ := op?_none_of_lineage lineage₂.symm hx
        rw [withUnit, op?_push] at hx₁
        split at hx₁
        · cases hx₁
        · exact hx₁
      refine .inr ⟨before, x, after, hsplit, unknown, rfl, as, seg, bs, between, fun y hy => ?_,
        vacated.interrupted marked rw₃⟩
      obtain ⟨op, ho⟩ := known y hy
      exact ⟨_, rw₃.op_of ho⟩

/-- **How far a replacement has come that has found the fragments `before`** and not the one after
them.  The range is that of the siblings from the one that holds `first` to the op that stands for
`last`, and the op of the unit is in its place, with the successor of the last op and with the
fragments `before` as its kids. -/
def Halfway (first last : OpId) (unit : CompiledUnit) (before : List OpId) (g g' : Graph) : Prop :=
  ∃ lastOp top as seg bs, g.op? (g.resolve last) = some lastOp ∧
    childWithin lastOp.parent (.notContiguous first (g.resolve last)) (g.size + 1) first g =
      .ok top g ∧
    g.Between lastOp.parent top (g.resolve last) as seg bs ∧
    (∀ y ∈ before, ∃ op, g'.op? y = some op) ∧
    Interrupted { kind := .native unit, next := lastOp.next, parent := lastOp.parent }
      (g.resolve last) lastOp.parent as bs (before.map g'.resolve) g g'

/-- **A replacement that fails** has at most appended the op of its unit, or it has not found one of
its fragments. -/
theorem replace_error (hg : g.HeirsLater) {first last : OpId} {unit : CompiledUnit} {keep : Bool}
    {fault : Fault} (h : replace first last unit keep g = .error fault g') :
    g' = g ∨ (∃ next parent, g' = g.withUnit unit next parent) ∨
    ∃ before x after, unit.fragments = before ++ x :: after ∧ g.op? x = none ∧ fault = .unknownOp x ∧
      Halfway first last unit before g g' := by
  unfold replace at h
  rw [Effect.get_bind, Effect.get_bind] at h
  dsimp only at h
  cases hlast : g.op? (g.resolve last) with
  | none =>
    rw [Effect.bind_error (find_of_none hlast)] at h
    cases h
    exact .inl rfl
  | some lastOp =>
    rw [Effect.bind_ok (find_of_some hlast), Effect.get_bind] at h
    have unchanged := maintains_childWithin (P := (· = g)) lastOp.parent
      (.notContiguous first (g.resolve last)) (g.size + 1) first g rfl
    cases hclimb : childWithin lastOp.parent (.notContiguous first (g.resolve last)) (g.size + 1)
        first g with
    | error e g₁ =>
      rw [hclimb] at unchanged
      rw [Effect.bind_error hclimb] at h
      cases h
      exact .inl unchanged
    | ok top g₁ =>
      obtain ⟨rfl, -, -⟩ := childWithin_eq_ok hclimb
      have appended :
          append { kind := .native unit, next := lastOp.next, parent := lastOp.parent } g₁ =
            .ok ⟨g₁.size⟩ (g₁.withUnit unit lastOp.next lastOp.parent) := rfl
      rw [Effect.bind_ok hclimb, Effect.bind_ok appended] at h
      rcases place_error hg (fun _ => ⟨_, _, rfl⟩) h with hpushed | stopped
      · exact .inr (.inl ⟨_, _, hpushed⟩)
      · obtain ⟨before, x, after, hsplit, hx, hfault, as, seg, bs, between, known, interrupted⟩ :=
          stopped
        exact .inr (.inr ⟨before, x, after, hsplit, hx, hfault, lastOp, top, as, seg, bs, hlast, hclimb,
          between, known, interrupted⟩)

/-! ### Edits -/

/-- **The edit has not changed the program**: the graph is as it was, or has the op of the edit's
unit at its end and is else as it was. -/
def Untouched (e : Edit) (g g' : Graph) : Prop :=
  g' = g ∨ ∃ unit next parent, e.unit? = some unit ∧ g' = g.withUnit unit next parent

/-- **How far a change has come** that has found the ops `before` and not the one after them.  A
unit is in its place, with no link to it; from a fragment the exits `before` have been cut. -/
def Stopped (before : List OpId) (g g' : Graph) : Change → Prop
  | .replace first last unit _ => Halfway first last unit before g g'
  | .detach root keep _ => detach root keep before g = .ok () g'

theorem applyEdit_error (hg : g.HeirsLater) {e : Edit} {fault : Fault}
    (h : applyEdit e g = .error fault g') :
    Untouched e g g' ∨ ∃ before x after, e.change.trailing = before ++ x :: after ∧ g.op? x = none ∧
      fault = .unknownOp x ∧ Stopped before g g' e.change := by
  obtain ⟨owner, change⟩ := e
  unfold applyEdit at h
  rw [Effect.get_bind] at h
  dsimp only at h
  split at h
  · cases h
    exact .inl (.inl rfl)
  · cases change with
    | replace first last unit keep =>
      dsimp only at h
      cases hr : replace first last unit keep g with
      | ok new g₁ =>
        rw [Effect.map_ok hr] at h
        cases h
      | error e g₁ =>
        rw [Effect.map_error hr] at h
        cases h
        obtain rfl | ⟨next, parent, rfl⟩ | ⟨before, x, after, hsplit, hx, hfault, stopped⟩ :=
          replace_error hg hr
        · exact .inl (.inl rfl)
        · exact .inl (.inr ⟨unit, next, parent, rfl, rfl⟩)
        · exact .inr ⟨before, x, after, hsplit, hx, hfault, stopped⟩
    | detach root keep exits =>
      dsimp only at h
      cases hd : detach root keep exits g with
      | ok u g₁ =>
        rw [Effect.bind_ok hd] at h
        cases h
      | error e g₁ =>
        rw [Effect.bind_error hd] at h
        cases h
        obtain rfl | ⟨before, x, after, hsplit, hx, hfault, stopped⟩ := detach_error hg hd
        · exact .inl (.inl rfl)
        · exact .inr ⟨before, x, after, hsplit, hx, hfault, stopped⟩

/-- **What an edit that fails leaves.**  In a graph that has come about, an edit that fails has not
changed the program if all the fragments or exits that it names are ops of the graph.  In any case
it has not changed the program, or it has stopped at the first fragment or exit that is not an op;
then a replacement has put its unit in the place of the range and turned no link to it, and a
detachment has done what it does with the exits before that one.

An edit is followed to where it fails.  Before its trailing list nothing but the op of its unit has
been added.  In the list it fails only at an op that is not there, since what stands for an op of
the graph is one as well, and what comes after the list does not fail. -/
theorem failed_edit (hg : Reachable g) {e : Edit} {fault : Fault}
    (h : applyEdit e g = .error fault g') :
    ((∀ x ∈ e.change.trailing, ∃ op, g.op? x = some op) → Untouched e g g') ∧
    (Untouched e g g' ∨ ∃ before x after, e.change.trailing = before ++ x :: after ∧
      g.op? x = none ∧ fault = .unknownOp x ∧ Stopped before g g' e.change) := by
  have cases := applyEdit_error hg.heirsLater h
  refine ⟨fun known => ?_, cases⟩
  rcases cases with untouched | ⟨before, x, after, hsplit, hx, -, -⟩
  · exact untouched
  · obtain ⟨op, ho⟩ := known x (by simp [hsplit])
    rw [hx] at ho
    cases ho

/-! ### The negation of a constant

Its operand is replaced by a unit, or taken out.  One of the ops that the edits name is not
there. -/

def negatedGraph : Graph :=
  let g : Graph := { owner := ⟨0⟩ }
  let g := (g.add { kind := .const (.int 5) }).2
  let g := (g.add { kind := .negate, kids := [⟨0⟩] }).2
  stateOf (link ⟨1⟩ g)

theorem negatedGraph_reachable : Reachable negatedGraph :=
  (((Reachable.empty ⟨0⟩).add { kind := .const (.int 5) } rfl).add
    { kind := .negate, kids := [⟨0⟩] } rfl).link ⟨1⟩

/-- A range that is not one changes nothing; a fragment that is not there is noticed too late. -/
theorem failed_edit_negated :
    (∃ fault g', applyEdit ⟨⟨0⟩, .replace ⟨1⟩ ⟨0⟩ ⟨"unit", [], [⟨0⟩]⟩ false⟩ negatedGraph =
        .error fault g' ∧
      Untouched ⟨⟨0⟩, .replace ⟨1⟩ ⟨0⟩ ⟨"unit", [], [⟨0⟩]⟩ false⟩ negatedGraph g') ∧
    ∃ g', applyEdit ⟨⟨0⟩, .replace ⟨0⟩ ⟨0⟩ ⟨"unit", [], [⟨0⟩, ⟨9⟩]⟩ false⟩ negatedGraph =
        .error (.unknownOp ⟨9⟩) g' ∧
      ∃ before x after, [⟨0⟩, ⟨9⟩] = before ++ x :: after ∧ negatedGraph.op? x = none ∧
        Stopped before negatedGraph g'
          (.replace ⟨0⟩ ⟨0⟩ ⟨"unit", [], [⟨0⟩, ⟨9⟩]⟩ false) := by
  refine ⟨⟨_, _, rfl, (failed_edit negatedGraph_reachable rfl).1 ?_⟩, _, rfl, ?_⟩
  · intro x hx
    rw [List.mem_singleton.mp hx]
    exact ⟨_, rfl⟩
  · have cases := (failed_edit negatedGraph_reachable
      (e := ⟨⟨0⟩, .replace ⟨0⟩ ⟨0⟩ ⟨"unit", [], [⟨0⟩, ⟨9⟩]⟩ false⟩) rfl).2
    rcases cases with (same | ⟨unit, next, parent, -, same⟩) | ⟨before, x, after, hsplit, hx, -, stopped⟩
    · cases congrArg (fun g => (g.op? ⟨1⟩).map Op.kids) same
    · cases congrArg (fun g => (g.op? ⟨1⟩).map Op.kids) same
    · exact ⟨before, x, after, hsplit, hx, stopped⟩

/-- **Edits that fail and change the program.**  The operand is taken out of its parent's list
although an exit is not there; it is dead, and the parent lists the unit, although a fragment is not
there, while a run still starts with the operand. -/
theorem failed_edit_changes : Reachable negatedGraph ∧
    (negatedGraph.op? ⟨1⟩).map Op.kids = some [⟨0⟩] ∧ negatedGraph.isDead ⟨0⟩ = false ∧
    (∃ g', applyEdit ⟨⟨0⟩, .detach ⟨0⟩ true [⟨9⟩]⟩ negatedGraph = .error (.unknownOp ⟨9⟩) g' ∧
      (g'.op? ⟨1⟩).map Op.kids = some []) ∧
    ∃ g', applyEdit ⟨⟨0⟩, .replace ⟨0⟩ ⟨0⟩ ⟨"unit", [], [⟨9⟩]⟩ false⟩ negatedGraph =
        .error (.unknownOp ⟨9⟩) g' ∧
      (g'.op? ⟨1⟩).map Op.kids = some [⟨2⟩] ∧ g'.isDead ⟨0⟩ = true ∧ g'.entry = some ⟨0⟩ :=
  ⟨negatedGraph_reachable, rfl, rfl, ⟨_, rfl, rfl⟩, _, rfl, rfl, rfl, rfl⟩

end Graph

end Graft
