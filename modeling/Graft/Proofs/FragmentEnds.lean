import Graft.Proofs.FailedEdits

/-! # Where fragments end

A fragment that is handed over to the host is taken out of its tree, and its exits are cut: it is to
be run from its start, and to stop at its end.  The exits are computed from the term and the links
from the ops, so the two have to agree.

They agree on operators, at any depth (`HostTree.Sealed.leaves`).  They do not where a fragment ends
in a list of statements: control leaves a list from its last statement and never comes to the op of
the list, but that op is taken to be the exit.  Such a fragment goes on into what followed it
(`HostTree.Linked.leaks`).

Which of the two it is can be read off the tree: `HostTree.Sealed` follows the ways by which a tree
may end, through both branches of a choice and the right operand of `and`, down to ops that are
their own exits.  The induction that control leaves a sealed tree only by its exits is over the
tree, and a kid that is followed by another one leads to its start, inside the tree.  For the
converse a way through the tree to its end has to be given, and it is given for every tree.

Cutting the exits clears their successors and changes no other link, so a way in the cut graph is a
way in the old one that does not go past an exit.
-/

namespace Graft

/-- The links of an op lead to ops of `X`; if the op is an exit, its successor may be elsewhere. -/
def Op.StaysIn (op : Op) (X : OpId → Prop) (exit : Prop) : Prop :=
  (∀ y, op.other = some y → X y) ∧ ∀ y, op.next = some y → X y ∨ exit

theorem Op.StaysIn.mono {op : Op} {X Y : OpId → Prop} {exit exit' : Prop} (h : op.StaysIn X exit)
    (hX : ∀ y, X y → Y y) (hexit : exit → exit') : op.StaysIn Y exit' :=
  ⟨fun y hy => hX y (h.1 y hy), fun y hy => (h.2 y hy).imp (hX y) hexit⟩

/-- Where nothing has been replaced there are no heirs. -/
theorem Graph.Pristine.heirsLater {g : Graph} (hg : g.Pristine) : g.HeirsLater := by
  rintro x y ⟨op, ho, hheir⟩
  rw [hg.heirless x op ho] at hheir
  cases hheir

namespace HostTree

variable {g g' : Graph} {p cont : Option OpId} {t : HostTree} {c x : OpId}

/-! ### The way through a tree -/

/-- Trees in a row are passed one after the other. -/
theorem LinkedRow.leads_on {ts : List HostTree} {s : OpId} (h : LinkedRow g ts (some c))
    (hts : ∀ t ∈ ts, ∀ c, Linked g t (some c) → Relation.ReflTransGen g.Leads t.start c)
    (hs : entryOf ts (some c) = some s) : Relation.ReflTransGen g.Leads s c := by
  induction ts generalizing s with
  | nil =>
    cases hs
    exact .refl
  | cons t ts ih =>
    cases hs
    obtain ⟨next, hnext⟩ : ∃ next, entryOf ts (some c) = some next := by
      cases ts <;> exact ⟨_, rfl⟩
    obtain ⟨hl, hrow⟩ := h
    rw [hnext] at hl
    exact (hts t (by simp) next hl).trans
      (ih hrow (fun u hu => hts u (List.mem_cons_of_mem t hu)) hnext)

/-- **From its start control comes to where a tree leads.** -/
theorem Linked.leads_on (h : Linked g t (some c)) : Relation.ReflTransGen g.Leads t.start c := by
  induction t using induction generalizing c with
  | step id f ks ih =>
    cases hs : f.kind.shape with
    | plain =>
      obtain ⟨op, ho, -, -, hnext, hrow⟩ := (linked_plain hs).mp h
      exact .tail (hrow.leads_on (fun k hk c hl => ih k hk hl) (entryOf_kids (by simp [hs])))
        ⟨op, ho, .inl hnext⟩
    | listed =>
      obtain ⟨op, ho, -, -, hnext, hrow⟩ := (linked_listed hs).mp h
      cases ks with
      | nil =>
        rw [start_leaf]
        exact .single ⟨op, ho, .inl hnext⟩
      | cons k ks =>
        rw [start_cons (by simp [hs])]
        exact hrow.leads_on (fun k hk c hl => ih k hk hl) rfl
    | unit =>
      obtain ⟨op, ho, -, -, hnext, -⟩ := (linked_unit hs).mp h
      rw [start_unit hs]
      exact .single ⟨op, ho, .inl hnext⟩
    | short =>
      obtain ⟨l, r, rfl, op, ho, -, -, hnext, -, hl, -⟩ := (linked_short hs).mp h
      rw [start_cons (by simp [hs])]
      exact (ih l (by simp) hl).tail ⟨op, ho, .inl hnext⟩
    | choice =>
      obtain ⟨k, y, n, rfl, op, ho, -, -, hnext, -, hk, -, hn⟩ := (linked_choice hs).mp h
      rw [start_cons (by simp [hs])]
      exact ((ih k (by simp) hk).tail ⟨op, ho, .inl hnext⟩).trans (ih n (by simp) hn)

/-! ### Trees that are left by their exits -/

/-- No list of statements is what the tree ends with. -/
def Sealed : HostTree → Prop
  | node _ f ks =>
    match f.kind.shape, ks with
    | .listed, ks => ks = []
    | .short, [_, r] => r.Sealed
    | .choice, [_, y, n] => y.Sealed ∧ n.Sealed
    | _, _ => True

variable {id : OpId} {f : Face}

theorem sealed_listed {ks : List HostTree} (h : f.kind.shape = .listed) :
    (node id f ks).Sealed ↔ ks = [] := by
  simp only [Sealed, h]

theorem sealed_short {l r : HostTree} (h : f.kind.shape = .short) :
    (node id f [l, r]).Sealed ↔ r.Sealed := by
  simp only [Sealed, h]

theorem sealed_choice {k y n : HostTree} (h : f.kind.shape = .choice) :
    (node id f [k, y, n]).Sealed ↔ y.Sealed ∧ n.Sealed := by
  simp only [Sealed, h]

theorem sealed_single {ks : List HostTree} (h : f.kind.shape = .plain ∨ f.kind.shape = .unit) :
    (node id f ks).Sealed := by
  rcases h with h | h <;> simp [Sealed, h]

/-- **Control leaves such a tree only by the successors of its exits.**

By induction over the tree.  A kid with others after it leads to one of them, or to the op itself,
and that is inside; the kids by which the tree ends are sealed too, and their exits are exits of the
tree. -/
theorem Sealed.leaves {op : Op} (hc : t.Sealed) (hl : Linked g t cont) (hs : Seated g p t)
    (hx : x ∈ t.ids) (ho : g.op? x = some op) : op.StaysIn (· ∈ t.ids) (x ∈ t.exits) := by
  induction t using induction generalizing cont p with
  | step id f ks ih =>
    obtain ⟨here, below⟩ := seated_node.mp hs
    have inKids : ∀ k ∈ ks, ∀ y ∈ k.ids, y ∈ (node id f ks).ids := fun k hk y hy => by
      simp [mem_idsAll.mpr ⟨k, hk, hy⟩]
    -- a kid that leads to an op of the tree, and one that the tree ends with
    have within : ∀ k ∈ ks, ∀ c, Linked g k c → (∀ z, c = some z → z ∈ (node id f ks).ids) →
        x ∈ k.ids → op.StaysIn (· ∈ (node id f ks).ids) (x ∈ (node id f ks).exits) := by
      intro k hk c hlk hc hxk
      have leads : ∀ y, g.Leads x y → y ∈ (node id f ks).ids := fun y hy =>
        (hlk.leads (below k hk) hxk hy).elim (inKids k hk y) (hc y)
      exact ⟨fun y hy => leads y ⟨op, ho, .inr hy⟩, fun y hy => .inl (leads y ⟨op, ho, .inl hy⟩)⟩
    have last : ∀ k ∈ ks, ∀ c, k.Sealed → Linked g k c → k.exits ⊆ (node id f ks).exits →
        x ∈ k.ids → op.StaysIn (· ∈ (node id f ks).ids) (x ∈ (node id f ks).exits) :=
      fun k hk c hck hlk hsub hxk =>
        (ih k hk hck hlk (below k hk) hxk).mono (inKids k hk) fun hmem => hsub hmem
    have straight : f.kind.shape ≠ .short → f.kind.shape ≠ .choice → x = id →
        op.StaysIn (· ∈ (node id f ks).ids) (x ∈ (node id f ks).exits) := by
      rintro h₁ h₂ rfl
      refine ⟨fun y hy => ?_, fun y _ => .inr (by simp [exits_single h₁ h₂])⟩
      rw [(here op ho).2.2 h₁ h₂] at hy
      cases hy
    rw [ids_node, List.mem_cons, mem_idsAll] at hx
    cases hshape : f.kind.shape with
    | plain =>
      obtain ⟨-, -, -, -, -, hrow⟩ := (linked_plain hshape).mp hl
      rcases hx with hx | ⟨k, hk, hx⟩
      · exact straight (by simp [hshape]) (by simp [hshape]) hx
      · obtain ⟨c, hlk, hc⟩ := hrow.mem hk
        refine within k hk c hlk (fun z hz => ?_) hx
        rcases hc with rfl | ⟨u, hu, rfl⟩
        · cases hz
          exact root_mem_ids (node id f ks)
        · cases hz
          exact inKids u hu _ (start_mem_ids u)
    | listed =>
      obtain rfl := (sealed_listed hshape).mp hc
      rcases hx with hx | ⟨k, hk, -⟩
      · exact straight (by simp [hshape]) (by simp [hshape]) hx
      · cases hk
    | unit =>
      obtain ⟨-, -, -, -, -, each⟩ := (linked_unit hshape).mp hl
      rcases hx with hx | ⟨k, hk, hx⟩
      · exact straight (by simp [hshape]) (by simp [hshape]) hx
      · exact within k hk none (linkedEach_iff.mp each k hk) (fun z hz => by cases hz) hx
    | short =>
      obtain ⟨l, r, rfl, op', ho', -, -, -, hother, left, right⟩ := (linked_short hshape).mp hl
      have exits : (node id f [l, r]).exits = r.exits ++ [id] := exits_short hshape
      rcases hx with rfl | ⟨k, hk, hx⟩
      · obtain rfl : op = op' := Option.some.inj (ho.symm.trans ho')
        refine ⟨fun y hy => ?_, fun y _ => .inr (by simp [exits])⟩
        rw [hother] at hy
        cases hy
        exact inKids r (by simp) _ (start_mem_ids r)
      · rcases List.mem_pair.mp hk with rfl | rfl
        · refine within k hk _ left (fun z hz => ?_) hx
          cases hz
          exact root_mem_ids (node id f [k, r])
        · exact last k hk _ ((sealed_short hshape).mp hc) right (by simp [exits]) hx
    | choice =>
      obtain ⟨k, y, n, rfl, op', ho', -, -, hnext, hother, cond, yes, no⟩ :=
        (linked_choice hshape).mp hl
      have exits : (node id f [k, y, n]).exits = y.exits ++ n.exits := exits_choice hshape
      obtain ⟨hy, hn⟩ := (sealed_choice hshape).mp hc
      rcases hx with rfl | ⟨u, hu, hx⟩
      · obtain rfl : op = op' := Option.some.inj (ho.symm.trans ho')
        refine ⟨fun z hz => ?_, fun z hz => .inl ?_⟩
        · rw [hother] at hz
          cases hz
          exact inKids y (by simp) _ (start_mem_ids y)
        · rw [hnext] at hz
          cases hz
          exact inKids n (by simp) _ (start_mem_ids n)
      · simp only [List.mem_cons, List.not_mem_nil, or_false] at hu
        rcases hu with rfl | rfl | rfl
        · refine within u (by simp) _ cond (fun z hz => ?_) hx
          cases hz
          exact root_mem_ids (node id f [u, y, n])
        · exact last u (by simp) _ hy yes (by simp [exits]) hx
        · exact last u (by simp) _ hn no (by simp [exits]) hx

/-- A tree without cut ops stays as it is. -/
theorem Linked.uncut {es : List OpId} (h : Linked g t cont) (hg : ∀ x ∈ t.ids, CutAt g g' es x)
    (hout : ∀ x ∈ t.ids, x ∉ es) : Linked g' t cont :=
  h.turned (τ := fun c => c) rfl (fun _ _ => rfl) fun x hx => (hg x hx).turned (hout x hx)

theorem Reads.cut {es : List OpId} (h : Reads g t) (hg : ∀ x ∈ t.ids, CutAt g g' es x) :
    Reads g' t := by
  intro s hs
  obtain ⟨op, ho, hface, hkids⟩ := h s hs
  obtain ⟨op', ho', hface', hkids', -⟩ := hg s.root (mem_ids.mpr ⟨s, hs, rfl⟩) op ho
  exact ⟨op', ho', hface'.trans hface, hkids'.trans hkids⟩

/-- **A tree that ends with a list of statements goes on where it led**, although its exits are
cut.

Down the branch that is not sealed one comes to a list.  Its last statement leads on past the op of
the list, and the cut is at that op. -/
theorem Linked.leaks (es : List OpId) (hn : t.ids.Nodup)
    (he : ∀ x ∈ t.ids, (x ∈ es ↔ x ∈ t.exits)) (hg : ∀ x ∈ t.ids, CutAt g g' es x)
    (hc : ¬ t.Sealed) (h : Linked g t (some c)) : Relation.ReflTransGen g'.Leads t.start c := by
  induction t using induction with
  | step id f ks ih =>
    have below : ∀ k ∈ ks, ∀ x ∈ k.ids, x ∈ (node id f ks).ids := fun k hk x hx => by
      simp [mem_idsAll.mpr ⟨k, hk, hx⟩]
    have whole : ∀ k ∈ ks, ∀ c, (∀ x ∈ k.ids, x ∉ (node id f ks).exits) → Linked g k c →
        Linked g' k c := fun k hk c hout hl =>
      hl.uncut (fun x hx => hg x (below k hk x hx))
        fun x hx hmem => hout x hx ((he x (below k hk x hx)).mp hmem)
    have last : ∀ k ∈ ks, (∀ x ∈ k.ids, (x ∈ (node id f ks).exits ↔ x ∈ k.exits)) →
        ¬ k.Sealed → Linked g k (some c) → Relation.ReflTransGen g'.Leads k.start c :=
      fun k hk hexits hck hl => ih k hk (nodup_of_mem hk (nodup_kids hn).2)
        (fun x hx => (he x (below k hk x hx)).trans (hexits x hx))
        (fun x hx => hg x (below k hk x hx)) hck hl
    cases hs : f.kind.shape with
    | plain => exact absurd (sealed_single (.inl hs)) hc
    | unit => exact absurd (sealed_single (.inr hs)) hc
    | listed =>
      -- the op of the list is cut, and no statement leads to it
      obtain ⟨-, -, -, -, -, hrow⟩ := (linked_listed hs).mp h
      have exits : (node id f ks).exits = [id] := exits_single (by simp [hs]) (by simp [hs])
      have row : LinkedRow g' ks (some c) := by
        refine hrow.turned (τ := fun c => c) rfl (fun _ _ => rfl) fun x hx => ?_
        have hmem : x ∈ (node id f ks).ids := by simp [hx]
        refine (hg x hmem).turned fun hes => (nodup_kids hn).1 ?_
        have := (he x hmem).mp hes
        rw [exits, List.mem_singleton] at this
        exact this ▸ hx
      cases ks with
      | nil => exact absurd ((sealed_listed hs).mpr rfl) hc
      | cons k ks =>
        rw [start_cons (by simp [hs])]
        exact row.leads_on (fun _ _ _ hl => hl.leads_on) rfl
    | short =>
      obtain ⟨l, r, rfl, op, ho, -, -, -, hother, left, right⟩ := (linked_short hs).mp h
      obtain ⟨op', ho', -, -, -, hother'⟩ := hg id (by simp) op ho
      obtain ⟨outside, inside⟩ := exits_of_short hs hn
      have test := (whole l (by simp) _ outside left).leads_on
      have rest := last r (by simp) inside (fun hr => hc ((sealed_short hs).mpr hr)) right
      rw [start_cons (by simp [hs])]
      exact (test.tail ⟨op', ho', .inr (hother'.trans hother)⟩).trans rest
    | choice =>
      obtain ⟨k, y, n, rfl, op, ho, -, -, hnext, hother, cond, yes, no⟩ := (linked_choice hs).mp h
      obtain ⟨op', ho', -, -, hnext', hother'⟩ := hg id (by simp) op ho
      obtain ⟨idOut, outside, inYes, inNo⟩ := exits_of_choice hs hn
      rw [if_neg fun hmem => idOut ((he id (by simp)).mp hmem), hnext] at hnext'
      have test := (whole k (by simp) _ outside cond).leads_on
      rw [start_cons (by simp [hs])]
      by_cases hy : y.Sealed
      · have rest := last n (by simp) inNo (fun hn => hc ((sealed_choice hs).mpr ⟨hy, hn⟩)) no
        exact (test.tail ⟨op', ho', .inl hnext'⟩).trans rest
      · have rest := last y (by simp) inYes hy yes
        exact (test.tail ⟨op', ho', .inr (hother'.trans hother)⟩).trans rest

/-! ### Detached trees -/

/-- **Taking out a tree cuts its exits**, and leaves the rest of it as it is. -/
theorem Standing.detach (h : Standing g p cont [t]) (hg : g.Pristine) (keep : Bool) :
    ∃ g', Graph.detach t.root keep t.exits g = .ok ⟨⟩ g' ∧ ∀ x ∈ t.ids, CutAt g g' t.exits x := by
  have known : ∀ x ∈ t.ids, ∃ op, g.op? x = some op := fun x hx => h.exists_op? (by simpa using hx)
  obtain ⟨rootOp, hroot⟩ := known t.root (root_mem_ids t)
  obtain ⟨hparent, -⟩ := seated_root h.seated.1 rootOp hroot
  obtain ⟨g₁, hstart, hops⟩ := Graph.detach_nil_ok keep (hg.resolve t.root ▸ hroot) fun q hq =>
    Graph.exists_op? (h.parent_outside q (hparent.symm.trans hq)).2
  have lineage := (Graph.stable_lineage g.lineage).detach t.root keep [] g rfl
  rw [hstart] at lineage
  have lineage₁ : g₁.lineage = g.lineage := lineage
  have later : g₁.HeirsLater := hg.heirsLater.congr lineage₁
  have exits : t.exits.map g₁.resolve = t.exits := by
    rw [List.map_congr_left fun x _ => (Graph.resolve_of_lineage lineage₁ x).trans (hg.resolve x),
      List.map_id']
  obtain ⟨g', hcut, rewritten⟩ := Graph.forM_cut (later.stands_all fun x hx => by
    obtain ⟨op, ho⟩ := known x (exits_subset t hx)
    obtain ⟨s, ks, -, ho₁⟩ := hops x op ho
    exact ⟨_, ho₁⟩) later.ordered
  rw [exits] at rewritten
  refine ⟨g', ?_, fun x hx op ho => ?_⟩
  · rw [Graph.detach_eq_bind, Effect.bind_ok hstart]
    exact hcut
  · obtain ⟨s, ks, hks, ho₁⟩ := hops x op ho
    have apart : rootOp.parent ≠ some x := fun he =>
      (h.parent_outside x (hparent.symm.trans he)).1 (by simpa using hx)
    obtain rfl := hks apart
    refine ⟨_, rewritten.op_of ho₁, ?_⟩
    split <;> exact ⟨rfl, rfl, rfl, rfl⟩

/-- A step from an op of a tree that has been cut, if the exits are all that led out of it or
nothing followed it. -/
theorem Standing.step_stays {y : OpId} (h : Standing g p cont [t])
    (hcut : ∀ x ∈ t.ids, CutAt g g' t.exits x) (hend : t.Sealed ∨ cont = none) (hx : x ∈ t.ids)
    (step : g'.Leads x y) : y ∈ t.ids := by
  obtain ⟨op, ho⟩ := h.exists_op? (x := x) (by simpa using hx)
  obtain ⟨op', ho', -, -, hnext, hother⟩ := hcut x hx op ho
  obtain ⟨op₁, ho₁, leads⟩ := step
  obtain rfl : op' = op₁ := Option.some.inj (ho'.symm.trans ho₁)
  rw [hnext, hother] at leads
  -- the op is no exit, or the step is to its branch
  have before : (x ∉ t.exits ∧ op.next = some y) ∨ op.other = some y := by
    refine leads.imp_left fun hy => ?_
    split at hy
    · cases hy
    · exact ⟨‹_›, hy⟩
  rcases hend with hc | rfl
  · obtain ⟨branch, successor⟩ := hc.leaves h.linked.1 h.seated.1 hx ho
    rcases before with ⟨hout, hy⟩ | hy
    · exact (successor y hy).resolve_right hout
    · exact branch y hy
  · have leads : g.Leads x y := ⟨op, ho, before.imp_left And.right⟩
    exact (h.linked.1.leads h.seated.1 hx leads).resolve_right (by simp [entryOf])

/-- **From its start control stays in a tree that has been cut**, unless the tree ends with a list
of statements and has led on.

One direction is by induction along the way, the other by the way out that `Linked.leaks` gives. -/
theorem Standing.stays_iff (h : Standing g p cont [t])
    (hcut : ∀ x ∈ t.ids, CutAt g g' t.exits x) :
    (∀ x, Relation.ReflTransGen g'.Leads t.start x → x ∈ t.ids) ↔ t.Sealed ∨ cont = none := by
  constructor
  · intro stays
    by_contra hno
    obtain ⟨hc, hcont⟩ := not_or.mp hno
    obtain ⟨c, rfl⟩ := Option.ne_none_iff_exists'.mp hcont
    have nodup : t.ids.Nodup := by simpa using h.nodup
    refine (h.cont_outside c rfl).1 ?_
    simpa using stays c (h.linked.1.leaks t.exits nodup (fun _ _ => Iff.rfl) hcut hc)
  · intro hend x path
    induction path with
    | refl => exact start_mem_ids t
    | tail _ step hy => exact h.step_stays hcut hend hy step

end HostTree

/-! ### Terms with statements in them -/

open HostTree

/-- The ops for operators that evaluate all their operands. -/
inductive Operator.Eager : Operator → OpKind → Prop where
  | arithmetic {c : Operator} {a : Arithmetic} : c.arithmetic? = some a → Eager c (.arith a)
  | negate : Eager .negate .negate
  | assign : Eager .assign .assign

/-- The ops for operators that may skip their second operand. -/
inductive Operator.Lazy : Operator → OpKind → Prop where
  | and : Lazy .boolAnd .and
  | or : Lazy .boolOr .or

/-- The term was read from the op of that name. -/
def Attributes.ReadFrom (a : Attributes) (id : OpId) : Prop := a.origin.map Origin.root = some id

mutual

/-- **The term was read from the tree of ops.**  Unlike in `Mirrors`, lists of statements may stand
anywhere; of types, contexts and slots nothing is said. -/
inductive Depicts : Term → HostTree → Prop where
  | constant {a : Attributes} {id : OpId} {f : Face} (k : Constant) :
      a.ReadFrom id → f.kind = .const k.scalar → Depicts (.leaf a (.constant k)) (node id f [])
  | lexical {a : Attributes} {id : OpId} {f : Face} {s : Slot} (d : DeclId) :
      a.ReadFrom id → f.kind = .lexical s false → Depicts (.leaf a (.lexical d)) (node id f [])
  | declaration {a : Attributes} {id : OpId} {f : Face} {s : Slot} (d : DeclId) :
      a.ReadFrom id → f.kind = .lexical s true → Depicts (.leaf a (.declaration d)) (node id f [])
  | operator {a : Attributes} {id : OpId} {f : Face} {k : OpKind} {c : Operator} {b : Bool}
      {ts : List Term} {ks : List HostTree} :
      a.ReadFrom id → c.Eager k → f.kind = k → List.Forall₂ Depicts ts ks →
      Depicts (.op a c b ts) (node id f ks)
  | test {a : Attributes} {id : OpId} {f : Face} {k : OpKind} {c : Operator} {b : Bool} {l r : Term}
      {L R : HostTree} :
      a.ReadFrom id → c.Lazy k → f.kind = k → Depicts l L → Depicts r R →
      Depicts (.op a c b [l, r]) (node id f [L, R])
  | ternary {a : Attributes} {id : OpId} {f : Face} {b : Bool} {t y n : Term} {T Y N : HostTree} :
      a.ReadFrom id → f.kind = .cond → Depicts t T → Depicts y Y → Depicts n N →
      Depicts (.op a .ternary b [t, y, n]) (node id f [T, Y, N])
  | sequence {a : Attributes} {id : OpId} {f : Face} {ts : List Term} {ks : List HostTree} :
      a.ReadFrom id → f.kind = .statements → DepictsRow ts ks →
      Depicts (.sequence a ts) (node id f ks)

/-- The statements of a list, each with a marker before it; what is not a statement, such as another
list, has none. -/
inductive DepictsRow : List Term → List HostTree → Prop where
  | nil : DepictsRow [] []
  | statement {a : Attributes} {t : Term} {marker : OpId} {f : Face} {k : HostTree} {ts : List Term}
      {ks : List HostTree} :
      f.kind = .mark → Depicts t k → DepictsRow ts ks →
      DepictsRow (.statement a t :: ts) (node marker f [] :: k :: ks)
  | bare {t : Term} {k : HostTree} {ts : List Term} {ks : List HostTree} :
      Depicts t k → DepictsRow ts ks → DepictsRow (t :: ts) (k :: ks)

end

/-- The term ends with statements: control may leave it from one of them. -/
def Term.endsInStatements : Term → Bool
  | op _ .ternary _ [_, yes, no] => yes.endsInStatements || no.endsInStatements
  | op _ .boolAnd _ [_, r] => r.endsInStatements
  | op _ .boolOr _ [_, r] => r.endsInStatements
  | sequence _ ts => !ts.isEmpty
  | _ => false

namespace Depicts

variable {t : Term} {S : HostTree}

theorem hostRoot (h : Depicts t S) : t.hostRoot = .ok S.root := by
  have read : ∀ {t : Term} {id : OpId}, t.attrs.ReadFrom id → t.hostRoot = .ok id := by
    intro t id hid
    obtain ⟨o, ho, rfl⟩ := Option.map_eq_some_iff.mp hid
    unfold Term.hostRoot Term.origin
    rw [ho]
  cases h <;> exact read ‹_›

/-- **The exits of a term are those of its tree**, and they are all its exits if the term does not
end with statements. -/
theorem exits (h : Depicts t S) :
    t.exitOps = .ok S.exits ∧ (S.Sealed ↔ t.endsInStatements = false) := by
  induction t using Term.induction generalizing S with
  | step t ih =>
    have root := h.hostRoot
    have alone : S.shape = .plain → t.exitOps = (do return [← t.hostRoot]) →
        t.endsInStatements = false →
        t.exitOps = .ok S.exits ∧ (S.Sealed ↔ t.endsInStatements = false) := by
      intro hs hexits hends
      cases S with
      | node id f ks =>
        rw [shape_node] at hs
        refine ⟨?_, iff_of_true (sealed_single (.inl hs)) hends⟩
        rw [hexits, root, exits_single (by simp [hs]) (by simp [hs])]
        rfl
    cases h with
    | constant k _ hf => exact alone (by rw [shape_node, hf]; rfl) rfl rfl
    | lexical d _ hf => exact alone (by rw [shape_node, hf]; rfl) rfl rfl
    | declaration d _ hf => exact alone (by rw [shape_node, hf]; rfl) rfl rfl
    | @operator a id f k c b ts ks _ hc hf _ =>
      cases hc with
      | arithmetic ha =>
        exact alone (by rw [shape_node, hf]; rfl) (by cases c <;> first | rfl | cases ha)
          (by cases c <;> first | rfl | cases ha)
      | negate => exact alone (by rw [shape_node, hf]; rfl) rfl rfl
      | assign => exact alone (by rw [shape_node, hf]; rfl) rfl rfl
    | @test a id f k c b l r L R _ hc hf _ hr =>
      obtain ⟨hexits, hsealed⟩ := ih r (by simp [Term.kids]) hr
      have hs : f.kind.shape = .short := by rw [hf]; cases hc <;> rfl
      have exitOps : (Term.op a c b [l, r]).exitOps =
          (do let root ← (Term.op a c b [l, r]).hostRoot; return (← r.exitOps) ++ [root]) := by
        cases hc <;> rw [Term.exitOps]
      have ends : (Term.op a c b [l, r]).endsInStatements = r.endsInStatements := by
        cases hc <;> rw [Term.endsInStatements]
      refine ⟨?_, by rw [sealed_short hs, hsealed, ends]⟩
      rw [exitOps, root, hexits, exits_short hs]
      rfl
    | @ternary a id f b t y n T Y N _ hf _ hy hn =>
      obtain ⟨hexitsY, hsealedY⟩ := ih y (by simp [Term.kids]) hy
      obtain ⟨hexitsN, hsealedN⟩ := ih n (by simp [Term.kids]) hn
      have hs : f.kind.shape = .choice := by rw [hf]; rfl
      have ends : (Term.op a .ternary b [t, y, n]).endsInStatements =
          (y.endsInStatements || n.endsInStatements) := by
        rw [Term.endsInStatements]
      refine ⟨?_, by rw [sealed_choice hs, hsealedY, hsealedN, ends, Bool.or_eq_false_iff]⟩
      rw [Term.exitOps, root, hexitsY, hexitsN, exits_choice hs]
      rfl
    | @sequence a id f ts ks _ hf hrow =>
      have hs : f.kind.shape = .listed := by rw [hf]; rfl
      refine ⟨?_, (sealed_listed hs).trans ?_⟩
      · rw [exits_single (by simp [hs]) (by simp [hs]), Term.exitOps, root]
        · rfl
        all_goals simp
      · cases hrow <;> simp [Term.endsInStatements]

theorem detachment (h : Depicts t S) : t.detachment = .ok ⟨S.root, S.exits⟩ := by
  rw [Term.detachment, h.hostRoot, h.exits.1]
  rfl

end Depicts

/-- **Where a fragment ends that has been taken out.**  A term was read from a part of a linked
tree; its fragment can be taken out.  From the start of the fragment control then stays in it,
unless the term ends with statements and something followed the fragment.  In that case control goes
on to what followed.

The exits of the term are those of the tree that it was read from, and the tree is sealed by them
exactly if the term does not end with statements.  A sealed tree is left by its exits only, and
these have been cut; from one that is not sealed there is a way to its end that passes no exit. -/
theorem Term.detached_fragment {owner : OwnerId} {g₀ g : Graph} {ts : List HostTree} {T S : HostTree}
    {entry : OpId} {t : Term} (hg : Assembled owner g₀ ts) (hT : T ∈ ts)
    (hlink : Graph.link T.root g₀ = .ok entry g) (hS : S ∈ T.subtrees) (ht : Depicts t S)
    (keep : Bool) :
    ∃ d cont g', t.detachment = .ok d ∧ d.root = S.root ∧ Linked g S cont ∧
      (∀ c, cont = some c → c ∉ S.ids) ∧
      Graph.applyEdit ⟨owner, .detach d.root keep d.exits⟩ g = .ok none g' ∧
      ((∀ x, Relation.ReflTransGen g'.Leads (g'.startOf S.root) x → x ∈ S.ids) ↔
        t.endsInStatements = false ∨ cont = none) ∧
      (t.endsInStatements = true → ∀ c, cont = some c →
        Relation.ReflTransGen g'.Leads (g'.startOf S.root) c) := by
  obtain ⟨forest, rfl⟩ := hg.forest
  obtain ⟨loaded, howner⟩ := forest.loaded hT hlink
  obtain ⟨q, cont, standing⟩ := loaded.standing.subtree hS
  obtain ⟨pristine, -⟩ := hg.pristine.linked hlink
  obtain ⟨g', detached, hcut⟩ := standing.detach pristine keep
  obtain ⟨-, hsealed⟩ := ht.exits
  have linked : Linked g S cont := standing.linked.1
  have nodup : S.ids.Nodup := by simpa using standing.nodup
  have start : g'.startOf S.root = S.start := (linked.reads.cut hcut).startOf nodup
  refine ⟨⟨S.root, S.exits⟩, cont, g', ht.detachment, rfl, linked, fun c hc => ?_,
    Graph.applyEdit_detach howner detached, ?_, fun hends c hc => ?_⟩
  · simpa using (standing.cont_outside c hc).1
  · rw [start, ← hsealed]
    exact standing.stays_iff hcut
  · subst hc
    rw [start]
    refine linked.leaks S.exits nodup (fun _ _ => Iff.rfl) hcut fun hno => ?_
    rw [hsealed.mp hno] at hends
    cases hends

theorem guardTerm_depicts : Depicts guardTerm (node ⟨3⟩ ⟨.and, none, false⟩
    [node ⟨1⟩ ⟨.lexical ⟨1⟩ false, none, false⟩ [], node ⟨2⟩ ⟨.const (.int 1), none, false⟩ []]) :=
  .test rfl .and rfl (.lexical ⟨1⟩ rfl rfl) (.constant (.int 1) rfl rfl)

/-- The second operand of a sum, taken out, stops at its end. -/
theorem Term.detached_fragment_guard : ∃ g g', Graph.link ⟨4⟩ sumGraph = .ok ⟨0⟩ g ∧
    guardTerm.detachment = .ok ⟨⟨3⟩, [⟨2⟩, ⟨3⟩]⟩ ∧
    Graph.applyEdit ⟨⟨0⟩, .detach ⟨3⟩ true [⟨2⟩, ⟨3⟩]⟩ g = .ok none g' ∧
    ∀ x, Relation.ReflTransGen g'.Leads (g'.startOf ⟨3⟩) x →
      x = ⟨3⟩ ∨ x = ⟨1⟩ ∨ x = ⟨2⟩ := by
  obtain ⟨g, hlink⟩ : ∃ g, Graph.link ⟨4⟩ sumGraph = .ok ⟨0⟩ g := ⟨_, rfl⟩
  have part : node ⟨3⟩ ⟨.and, none, false⟩ [node ⟨1⟩ ⟨.lexical ⟨1⟩ false, none, false⟩ [],
      node ⟨2⟩ ⟨.const (.int 1), none, false⟩ []] ∈ sumTree.subtrees := by
    simp [sumTree, subtrees, subtreesAll]
  obtain ⟨d, cont, g', hd, -, -, -, edited, stays, -⟩ :=
    Term.detached_fragment sumGraph_assembled (T := sumTree) (by simp) hlink part guardTerm_depicts true
  cases hd
  refine ⟨g, g', hlink, rfl, edited, fun x hx => ?_⟩
  simpa [ids, subtrees, subtreesAll] using stays.mpr (.inl rfl) x hx

/-! ### A statement in a sum

The first operand of the sum is a list with one statement. -/

/-- The ops of the sum. -/
def listGraph : Graph where
  owner := ⟨0⟩
  ops := #[{ kind := .mark, parent := some ⟨4⟩ },
    { kind := .lexical ⟨0⟩ false, parent := some ⟨3⟩ },
    { kind := .const (.int 5), parent := some ⟨3⟩ },
    { kind := .arith .modulo, kids := [⟨1⟩, ⟨2⟩], targ := some ⟨1⟩, parent := some ⟨4⟩ },
    { kind := .statements, kids := [⟨0⟩, ⟨3⟩], parent := some ⟨6⟩ },
    { kind := .const (.int 1), parent := some ⟨6⟩ },
    { kind := .arith (.float .add), kids := [⟨4⟩, ⟨5⟩], targ := some ⟨2⟩ }]

def listTree : HostTree :=
  node ⟨4⟩ ⟨.statements, none, false⟩ [node ⟨0⟩ ⟨.mark, none, false⟩ [],
    node ⟨3⟩ ⟨.arith .modulo, some ⟨1⟩, false⟩ [node ⟨1⟩ ⟨.lexical ⟨0⟩ false, none, false⟩ [],
      node ⟨2⟩ ⟨.const (.int 5), none, false⟩ []]]

def listTerm : Term :=
  .sequence ⟨some ⟨⟨4⟩, ⟨0⟩, none⟩, .scalar, none⟩
    [.statement ⟨some ⟨⟨0⟩, ⟨0⟩, none⟩, .void, none⟩
      (.op ⟨some ⟨⟨3⟩, ⟨1⟩, some ⟨1⟩⟩, .scalar, none⟩ .modulo false
        [.leaf ⟨some ⟨⟨1⟩, ⟨1⟩, none⟩, .scalar, none⟩ (.lexical ⟨0⟩),
          .leaf ⟨some ⟨⟨2⟩, ⟨2⟩, none⟩, .scalar, none⟩ (.constant (.int 5))])]

theorem listTerm_depicts : Depicts listTerm listTree := by
  have x : Depicts (.leaf ⟨some ⟨⟨1⟩, ⟨1⟩, none⟩, .scalar, none⟩ (.lexical ⟨0⟩))
    (node ⟨1⟩ ⟨.lexical ⟨0⟩ false, none, false⟩ []) := .lexical ⟨0⟩ rfl rfl
  have five : Depicts (.leaf ⟨some ⟨⟨2⟩, ⟨2⟩, none⟩, .scalar, none⟩ (.constant (.int 5)))
    (node ⟨2⟩ ⟨.const (.int 5), none, false⟩ []) := .constant (.int 5) rfl rfl
  exact .sequence rfl rfl (.statement rfl
    (.operator rfl (.arithmetic rfl) rfl (.cons x (.cons five .nil))) .nil)

/-- **A list of statements, taken out, goes on after its end**: from its start control comes to the
second operand of the sum. -/
theorem Term.detached_statements_go_on : ∃ g g', Graph.link ⟨6⟩ listGraph = .ok ⟨0⟩ g ∧
    Depicts listTerm listTree ∧ Linked g listTree (some ⟨5⟩) ∧
    listTerm.detachment = .ok ⟨⟨4⟩, [⟨4⟩]⟩ ∧
    Graph.applyEdit ⟨⟨0⟩, .detach ⟨4⟩ true [⟨4⟩]⟩ g = .ok none g' ∧
    Relation.ReflTransGen g'.Leads (g'.startOf ⟨4⟩) ⟨5⟩ ∧ ⟨5⟩ ∉ listTree.ids := by
  refine ⟨_, _, rfl, listTerm_depicts, ?_, rfl, rfl, ?_, ?_⟩
  · exact ⟨_, rfl, rfl, rfl, rfl, ⟨_, rfl, rfl, rfl, rfl, trivial⟩,
      ⟨_, rfl, rfl, rfl, rfl, ⟨_, rfl, rfl, rfl, rfl, trivial⟩,
        ⟨_, rfl, rfl, rfl, rfl, trivial⟩, trivial⟩, trivial⟩
  · exact .head (b := ⟨1⟩) ⟨_, rfl, .inl rfl⟩ (.head (b := ⟨2⟩) ⟨_, rfl, .inl rfl⟩
      (.head (b := ⟨3⟩) ⟨_, rfl, .inl rfl⟩ (.single ⟨_, rfl, .inl rfl⟩)))
  · simp [listTree, ids, subtrees, subtreesAll]

end Graft
