import Graft.Proofs.StatementRows

/-! # Edited graphs

A program is compiled and the edits are applied.  The graph that comes out is well formed
(`Graph.WellFormed`): control stays among live ops, it cannot leave a fragment of a unit, and
every op below the root has one owner.

All of this is read off the tree that stands in the graph after the edits, and off what a `Regraft`
says about the ops that are out of use.  Control leaves a linked tree only to where the tree leads
(`HostTree.Linked.leads`); the tree of the program leads nowhere, and a fragment has its exits cut,
so from the entry one gets to ops of the tree, and from the start of a fragment to ops of the
fragment.  That an op has one owner holds in the tree because no op is in it twice; an op outside it
is out of use, and owns nothing that is in use.

There is no look at single edits here.  The theorem holds for whatever regraft the edits of a
program come to, and `MirrorsProgram.regraft` says that they come to one.
-/

namespace Graft

open HostTree

/-! ### Well-formed graphs -/

namespace Graph

/-- Control may go from `x` to `y`. -/
def Leads (g : Graph) (x y : OpId) : Prop :=
  ∃ op, g.op? x = some op ∧ (op.next = some y ∨ op.other = some y)

/-- `f` is the root of a fragment of a unit. -/
def Adopted (g : Graph) (f : OpId) : Prop :=
  ∃ x op, g.op? x = some op ∧ op.kind.isNative = true ∧ f ∈ op.kids

/-- From `x` control comes only to live ops. -/
def Lives (g : Graph) (x : OpId) : Prop :=
  ∀ y, Relation.ReflTransGen g.Leads x y → ∃ op, g.op? y = some op ∧ op.state ≠ .dead

/-- Among all lists of kids, `x` is once in that of `y`, and its parent is `y`. -/
structure Owned (g : Graph) (x y : OpId) : Prop where
  only : ∀ z, g.Kid z x ↔ z = y
  once : ∀ op, g.op? y = some op → op.kids.count x = 1
  parent : g.Up x y

/-- **A graph that can be run and edited.** -/
structure WellFormed (g : Graph) : Prop where
  /-- No dead op is reached from the entry, -/
  entry : ∃ entry, g.entry = some entry ∧ g.Lives entry
  /-- nor from where a fragment of a unit starts. -/
  fragments : ∀ f, g.Adopted f → g.Lives (g.startOf f)
  /-- A fragment ends inside itself. -/
  closed : ∀ f x, g.Adopted f → Relation.ReflTransGen g.Leads (g.startOf f) x →
    Relation.ReflTransGen g.Kid f x
  /-- Every op below the root has one owner, and the root has none. -/
  owned : ∃ root, g.root = some root ∧ (∀ y, ¬ g.Kid y root) ∧
    ∀ x, Relation.TransGen g.Kid root x → ∃ y, g.Owned x y

end Graph

/-! ### Trees that stand in a graph -/

namespace HostTree

variable {g : Graph} {p cont : Option OpId} {t : HostTree} {x y : OpId}

/-- In a row every tree leads to the next one, and the last one where the row leads. -/
theorem LinkedRow.mem {ts : List HostTree} (h : LinkedRow g ts cont) (ht : t ∈ ts) :
    ∃ c, Linked g t c ∧ (c = cont ∨ ∃ u ∈ ts, c = some u.start) := by
  obtain ⟨as, bs, rfl⟩ := List.append_of_mem ht
  obtain ⟨hl, -⟩ := (linkedRow_append.mp h).2
  refine ⟨_, hl, ?_⟩
  cases bs with
  | nil => exact .inl rfl
  | cons u bs => exact .inr ⟨u, by simp, rfl⟩

/-- A kid of an op leads to the op, to another kid or to where the op leads. -/
theorem Linked.kid {id : OpId} {f : Face} {ks : List HostTree} {k : HostTree}
    (h : Linked g (node id f ks) cont) (hk : k ∈ ks) :
    ∃ c, Linked g k c ∧ ∀ z, c = some z → z = id ∨ cont = some z ∨ ∃ v ∈ ks, z = v.start := by
  have row : ∀ {c}, LinkedRow g ks c → (∀ z, c = some z → z = id ∨ cont = some z) →
      ∃ c, Linked g k c ∧ ∀ z, c = some z → z = id ∨ cont = some z ∨ ∃ v ∈ ks, z = v.start := by
    intro c hr hc
    obtain ⟨c', hl, hc'⟩ := hr.mem hk
    refine ⟨c', hl, fun z hz => ?_⟩
    rcases hc' with rfl | ⟨v, hv, rfl⟩
    · exact (hc z hz).imp_right .inl
    · cases hz
      exact .inr (.inr ⟨v, hv, rfl⟩)
  cases hs : f.kind.shape with
  | plain =>
    obtain ⟨op, -, -, -, -, hr⟩ := (linked_plain hs).mp h
    exact row hr fun z hz => .inl (Option.some.inj hz).symm
  | listed =>
    obtain ⟨op, -, -, -, -, hr⟩ := (linked_listed hs).mp h
    exact row hr fun z hz => .inr hz
  | unit =>
    obtain ⟨op, -, -, -, -, hr⟩ := (linked_unit hs).mp h
    exact ⟨none, linkedEach_iff.mp hr k hk, fun z hz => by cases hz⟩
  | short =>
    obtain ⟨l, r, rfl, op, -, -, -, -, -, left, right⟩ := (linked_short hs).mp h
    rcases List.mem_pair.mp hk with rfl | rfl
    · exact ⟨_, left, fun z hz => .inl (Option.some.inj hz).symm⟩
    · exact ⟨_, right, fun z hz => .inr (.inl hz)⟩
  | choice =>
    obtain ⟨c, yes, no, rfl, op, -, -, -, -, -, cond, left, right⟩ := (linked_choice hs).mp h
    simp only [List.mem_cons, List.not_mem_nil, or_false] at hk
    rcases hk with rfl | rfl | rfl
    · exact ⟨_, cond, fun z hz => .inl (Option.some.inj hz).symm⟩
    · exact ⟨_, left, fun z hz => .inr (.inl hz)⟩
    · exact ⟨_, right, fun z hz => .inr (.inl hz)⟩

/-- An op leads to one of its kids or to where its tree leads. -/
theorem Linked.root_leads {id : OpId} {f : Face} {ks : List HostTree}
    (h : Linked g (node id f ks) cont) (hs : Seated g p (node id f ks)) (hy : g.Leads id y) :
    cont = some y ∨ ∃ v ∈ ks, y = v.start := by
  obtain ⟨op, ho, hy⟩ := hy
  have here := ((seated_node.mp hs).1 op ho).2.2
  have straight : ∀ {op'}, g.op? id = some op' → f.kind.shape ≠ .short → f.kind.shape ≠ .choice →
      op'.next = cont → cont = some y := by
    intro op' ho' h₁ h₂ hn
    obtain rfl : op = op' := Option.some.inj (ho.symm.trans ho')
    rw [here h₁ h₂] at hy
    exact hn.symm.trans (hy.resolve_right (by simp))
  cases hs : f.kind.shape with
  | plain =>
    obtain ⟨op', ho', -, -, hn, -⟩ := (linked_plain hs).mp h
    exact .inl (straight ho' (by simp [hs]) (by simp [hs]) hn)
  | listed =>
    obtain ⟨op', ho', -, -, hn, -⟩ := (linked_listed hs).mp h
    exact .inl (straight ho' (by simp [hs]) (by simp [hs]) hn)
  | unit =>
    obtain ⟨op', ho', -, -, hn, -⟩ := (linked_unit hs).mp h
    exact .inl (straight ho' (by simp [hs]) (by simp [hs]) hn)
  | short =>
    obtain ⟨l, r, rfl, op', ho', -, -, hn, hother, -⟩ := (linked_short hs).mp h
    obtain rfl : op = op' := Option.some.inj (ho.symm.trans ho')
    rw [hn, hother] at hy
    exact hy.imp_right fun hy => ⟨r, by simp, (Option.some.inj hy).symm⟩
  | choice =>
    obtain ⟨c, yes, no, rfl, op', ho', -, -, hn, hother, -⟩ := (linked_choice hs).mp h
    obtain rfl : op = op' := Option.some.inj (ho.symm.trans ho')
    rw [hn, hother] at hy
    rcases hy with hy | hy
    · exact .inr ⟨no, by simp, (Option.some.inj hy).symm⟩
    · exact .inr ⟨yes, by simp, (Option.some.inj hy).symm⟩

/-- **Control leaves a linked tree only to where the tree leads.** -/
theorem Linked.leads (hl : Linked g t cont) (hs : Seated g p t) (hx : x ∈ t.ids)
    (hxy : g.Leads x y) : y ∈ t.ids ∨ cont = some y := by
  induction t using induction generalizing cont p with
  | step id f ks ih =>
    obtain ⟨-, below⟩ := seated_node.mp hs
    have inKids : ∀ k ∈ ks, ∀ {y}, y ∈ k.ids → y ∈ (node id f ks).ids := fun k hk y hy => by
      rw [ids_node, List.mem_cons]
      exact .inr (mem_idsAll.mpr ⟨k, hk, hy⟩)
    rw [ids_node, List.mem_cons, mem_idsAll] at hx
    rcases hx with rfl | ⟨k, hk, hx⟩
    · rcases hl.root_leads hs hxy with hy | ⟨v, hv, rfl⟩
      · exact .inr hy
      · exact .inl (inKids v hv (start_mem_ids v))
    · obtain ⟨c, hlk, hc⟩ := hl.kid hk
      rcases ih k hk hlk (below k hk) hx with hy | hy
      · exact .inl (inKids k hk hy)
      · rcases hc y hy with rfl | hy | ⟨v, hv, rfl⟩
        · exact .inl (root_mem_ids _)
        · exact .inr hy
        · exact .inl (inKids v hv (start_mem_ids v))

/-- From inside a tree that leads nowhere control does not get out. -/
theorem Linked.stays (hl : Linked g t none) (hs : Seated g p t) (hx : x ∈ t.ids)
    (hxy : Relation.ReflTransGen g.Leads x y) : y ∈ t.ids := by
  induction hxy with
  | refl => exact hx
  | tail _ step ih => exact (hl.leads hs ih step).resolve_right (by simp)

/-- Kids of ops of a tree are in the tree. -/
theorem Reads.kid_mem (hr : Reads g t) (hx : x ∈ t.ids) (hk : g.Kid x y) : y ∈ t.ids := by
  obtain ⟨s, hs, rfl⟩ := mem_ids.mp hx
  obtain ⟨op, ho, -, hkids⟩ := hr s hs
  obtain ⟨op', ho', hmem⟩ := hk
  obtain rfl : op = op' := Option.some.inj (ho.symm.trans ho')
  rw [hkids] at hmem
  obtain ⟨k, hk, rfl⟩ := List.mem_map.mp hmem
  exact ids_subset hs (ids_subset (subtrees_of_kid hk) (root_mem_ids k))

end HostTree

/-! ### After the edits -/

section Edited

variable {g g' : Graph} {T T' : HostTree} {x y : OpId}

/-- What is in use is owned by what is in use. -/
theorem HostTree.Regraft.owner_mem (h : Regraft g g' none [T] [T']) (hl : Loaded g T)
    (hx : x ∈ T'.ids) (hk : g'.Kid y x) : y ∈ T'.ids := by
  by_contra hy
  obtain ⟨op', ho', hmem⟩ := hk
  by_cases hold : y ∈ T.ids
  · -- an op of the program that was replaced
    exact (h.shed y (by simpa using hold) (by simpa using hy) x ⟨op', ho', hmem⟩).2.1
      (by simpa using hx)
  · by_cases hnew : g.size ≤ y.index
    · have unit := h.added y op' hnew ho'
      exact hy (by simpa using h.units y op' (.inr hnew) ho' unit)
    · -- an op that was never part of the program
      obtain ⟨op, ho⟩ := Graph.exists_op? (Nat.not_le.mp hnew)
      obtain ⟨τ, hτ⟩ := h.moves
      have same := hτ.ops y op (by simpa using hold) (by simp) ho
      obtain rfl := Option.some.inj (ho'.symm.trans same)
      rw [Op.kids_turned] at hmem
      obtain ⟨hout, hlt⟩ := hl.apart y op ho hold x hmem
      rcases h.within x (by simpa using hx) with hin | hin
      · exact hout (by simpa using hin)
      · exact Nat.not_lt.mpr hin hlt

/-- Every unit is in use. -/
theorem HostTree.Regraft.native_mem (h : Regraft g g' none [T] [T']) (hl : Loaded g T) {op : Op}
    (ho : g'.op? x = some op) (hn : op.kind.isNative = true) : x ∈ T'.ids := by
  have shape := (OpKind.isNative_iff _).mp hn
  by_cases hnew : g.size ≤ x.index
  · simpa using h.units x op (.inr hnew) ho shape
  · -- there was no unit before
    obtain ⟨op₀, ho₀⟩ := Graph.exists_op? (Nat.not_le.mp hnew)
    obtain ⟨op', ho', hk⟩ := h.kinds x op₀ ho₀
    obtain rfl : op = op' := Option.some.inj (ho.symm.trans ho')
    rw [hk] at shape
    exact absurd shape (hl.plain x op₀ ho₀).2

/-- What stands in a graph stands with all that is below it. -/
theorem HostTree.Standing.subtree {cont p : Option OpId} {s : HostTree} (h : Standing g p cont [T])
    (hs : s ∈ T.subtrees) : ∃ q c, Standing g q c [s] := by
  induction T using induction generalizing p cont with
  | step id f ks ih =>
    rcases mem_subtrees_iff.mp hs with rfl | ⟨k, hk, hs⟩
    · exact ⟨p, cont, h⟩
    · obtain ⟨c, below⟩ := h.kid hk
      exact ih k hk below hs

/-- A fragment of a unit in use is a tree that leads nowhere. -/
theorem HostTree.Standing.fragment {cont p : Option OpId} {f : OpId} {op : Op}
    (h : Standing g p cont [T]) (hx : x ∈ T.ids) (ho : g.op? x = some op)
    (hn : op.kind.isNative = true) (hf : f ∈ op.kids) :
    ∃ F q, F.root = f ∧ Linked g F none ∧ Seated g q F ∧ F.ids.Nodup ∧ F.ids ⊆ T.ids := by
  obtain ⟨s, hs, rfl⟩ := mem_ids.mp hx
  obtain ⟨q, c, standing⟩ := h.subtree hs
  cases s with
  | node id f' ks =>
    obtain ⟨⟨op', ho', hface, hkids⟩, -⟩ := reads_node.mp standing.linked.1.reads
    obtain rfl : op = op' := Option.some.inj (ho.symm.trans ho')
    have shape : f'.kind.shape = .unit := by
      rw [← hface]
      exact (OpKind.isNative_iff _).mp hn
    rw [hkids] at hf
    obtain ⟨F, hF, rfl⟩ := List.mem_map.mp hf
    obtain ⟨_, -, -, -, -, each⟩ := (linked_unit shape).mp standing.linked.1
    have nodup : (node id f' ks).ids.Nodup := by simpa using standing.nodup
    refine ⟨F, some id, rfl, linkedEach_iff.mp each F hF, (seated_node.mp standing.seated.1).2 F hF,
      nodup_of_mem hF (nodup_kids nodup).2, ?_⟩
    exact ids_subset (subtrees_trans (subtrees_of_kid (t := node id f' ks) hF) hs)

/-- **A graph is well formed after its program was regrafted.** -/
theorem HostTree.Regraft.wellFormed (h : Regraft g g' none [T] [T']) (hl : Loaded g T) :
    g'.WellFormed := by
  have new := h.standing none hl.standing
  have linked := new.linked.1
  have seated := new.seated.1
  have nodup : T'.ids.Nodup := by simpa using new.nodup
  have reads := linked.reads
  have live : ∀ x ∈ T'.ids, ∃ op, g'.op? x = some op ∧ op.state ≠ .dead := fun x hx => by
    obtain ⟨op, ho⟩ := new.exists_op? (by simpa using hx)
    exact ⟨op, ho, seated.live hx ho⟩
  exact {
    entry := by
      obtain ⟨τ, hτ⟩ := h.moves
      have start : some (τ T.start) = some T'.start := hτ.start
      refine ⟨T'.start, ?_, fun y hy => live y (linked.stays seated (start_mem_ids T') hy)⟩
      rw [hτ.entry, hl.entry]
      exact start
    fragments := by
      rintro f ⟨x, op, ho, hn, hf⟩ y hy
      obtain ⟨F, q, rfl, hlF, hsF, hnF, hsub⟩ := new.fragment (h.native_mem hl ho hn) ho hn hf
      rw [hlF.reads.startOf hnF] at hy
      exact live y (hsub (hlF.stays hsF (start_mem_ids F) hy))
    closed := by
      rintro f y ⟨x, op, ho, hn, hf⟩ hy
      obtain ⟨F, q, rfl, hlF, hsF, hnF, hsub⟩ := new.fragment (h.native_mem hl ho hn) ho hn hf
      rw [hlF.reads.startOf hnF] at hy
      exact Graph.reaches_of_mem_ids hlF.reads (hlF.stays hsF (start_mem_ids F) hy)
    owned := by
      refine ⟨T'.root, h.root_outer rfl T T' rfl rfl hl.root, fun y hk => ?_, fun x hx => ?_⟩
      · have hy := h.owner_mem hl (root_mem_ids T') hk
        obtain ⟨op, ho, hup⟩ := new.up_of_kid (by simpa using hy) hk
        obtain ⟨hp, -⟩ := seated_root seated op ho
        rw [hp] at hup
        cases hup
      · have inside : ∀ z, Relation.ReflTransGen g'.Kid T'.root z → z ∈ T'.ids := fun z hz => by
          induction hz with
          | refl => exact root_mem_ids T'
          | tail _ step ih => exact reads.kid_mem ih step
        obtain ⟨y, path, hk⟩ := (Relation.TransGen.tail'_iff).mp hx
        have hy := inside y path
        have hx' := reads.kid_mem hy hk
        have up := new.up_of_kid (by simpa using hy) hk
        refine ⟨y, fun z => ⟨fun hz => ?_, fun hz => hz ▸ hk⟩, fun op ho => ?_, up⟩
        · obtain ⟨o, ho, hup⟩ := new.up_of_kid (by simpa using h.owner_mem hl hx' hz) hz
          obtain ⟨o', ho', hup'⟩ := up
          obtain rfl : o = o' := Option.some.inj (ho.symm.trans ho')
          exact Option.some.inj (hup.symm.trans hup')
        · obtain ⟨op', ho', hmem⟩ := hk
          obtain rfl : op = op' := Option.some.inj (ho.symm.trans ho')
          exact List.count_eq_one_of_mem (new.kids_nodup (by simpa using hy) ho) hmem }

/-- **The edits of a compiled program can be applied, and leave a well-formed graph**: the graph
was assembled op by op and linked, and the program was read from it.

The edited graph is known by its tree.  Batch after batch the tree is regrafted, and that the graph
is well formed is read off the tree that stands in it in the end, whatever tree it is. -/
theorem Compiler.applyEdits_wellFormed {c c' : Compiler} {scope : Scope} {owner : OwnerId}
    {g₀ g : Graph} {ts : List HostTree} {T : HostTree} {entry : OpId} {program : Term}
    {edits : List Edit} (hg : Assembled owner g₀ ts) (hT : T ∈ ts)
    (hp : MirrorsProgram scope program T) (hl : Graph.link T.root g₀ = .ok entry g)
    (hc : c.compile scope owner [program] = (.ok edits, c')) :
    ∃ units g', Graph.applyEdits edits g = .ok units g' ∧ g'.WellFormed := by
  obtain ⟨forest, rfl⟩ := hg.forest
  obtain ⟨loaded, howner⟩ := forest.loaded hT hl
  obtain ⟨n, hn⟩ := Compiler.compile_eq_ok hc
  obtain ⟨g', T', ⟨units, applies⟩, regraft, -⟩ := hp.regraft loaded howner hn
  exact ⟨units, g', applies, regraft.wellFormed loaded⟩

end Edited

/-! ### A sum

A sum with an operand that is handed over: its ops, the term, and its compilation. -/

/-- The ops of a sum whose second operand may be skipped. -/
def sumGraph : Graph where
  owner := ⟨0⟩
  ops := #[{ kind := .lexical ⟨0⟩ false, parent := some ⟨4⟩ },
    { kind := .lexical ⟨1⟩ false, parent := some ⟨3⟩ },
    { kind := .const (.int 1), parent := some ⟨3⟩ },
    { kind := .and, kids := [⟨1⟩, ⟨2⟩], parent := some ⟨4⟩ },
    { kind := .arith (.float .add), kids := [⟨0⟩, ⟨3⟩], targ := some ⟨2⟩ }]

def sumTree : HostTree :=
  node ⟨4⟩ ⟨.arith (.float .add), some ⟨2⟩, false⟩ [node ⟨0⟩ ⟨.lexical ⟨0⟩ false, none, false⟩ [],
    node ⟨3⟩ ⟨.and, none, false⟩ [node ⟨1⟩ ⟨.lexical ⟨1⟩ false, none, false⟩ [],
      node ⟨2⟩ ⟨.const (.int 1), none, false⟩ []]]

def sumScope : Scope := ⟨#[⟨"x", ⟨0⟩, .any⟩, ⟨"y", ⟨1⟩, .any⟩]⟩

def guardTerm : Term :=
  .op ⟨some ⟨⟨3⟩, ⟨1⟩, none⟩, .scalar, none⟩ .boolAnd false
    [.leaf ⟨some ⟨⟨1⟩, ⟨1⟩, none⟩, .scalar, none⟩ (.lexical ⟨1⟩),
      .leaf ⟨some ⟨⟨2⟩, ⟨2⟩, none⟩, .scalar, none⟩ (.constant (.int 1))]

def sumTerm : Term :=
  .op ⟨some ⟨⟨4⟩, ⟨0⟩, some ⟨2⟩⟩, .scalar, none⟩ .add false
    [.leaf ⟨some ⟨⟨0⟩, ⟨0⟩, none⟩, .scalar, none⟩ (.lexical ⟨0⟩), guardTerm]

theorem sumTerm_mirrors : Mirrors sumScope .scalar sumTerm sumTree := by
  have x : Mirrors sumScope .scalar (.leaf ⟨some ⟨⟨0⟩, ⟨0⟩, none⟩, .scalar, none⟩ (.lexical ⟨0⟩))
    (node ⟨0⟩ ⟨.lexical ⟨0⟩ false, none, false⟩ []) := .lexical (v := ⟨"x", ⟨0⟩, .any⟩) rfl
  have y : Mirrors sumScope .scalar (.leaf ⟨some ⟨⟨1⟩, ⟨1⟩, none⟩, .scalar, none⟩ (.lexical ⟨1⟩))
    (node ⟨1⟩ ⟨.lexical ⟨1⟩ false, none, false⟩ []) := .lexical (v := ⟨"y", ⟨1⟩, .any⟩) rfl
  have one : Mirrors sumScope .scalar
      (.leaf ⟨some ⟨⟨2⟩, ⟨2⟩, none⟩, .scalar, none⟩ (.constant (.int 1)))
      (node ⟨2⟩ ⟨.const (.int 1), none, false⟩ []) := .constant (.int 1)
  exact .binary (.plain ⟨2⟩ rfl) x (.binary .and y one)

theorem sumGraph_assembled : Assembled ⟨0⟩ sumGraph [sumTree] := by
  have leaf : ∀ {ts : List HostTree}, ts.Perm ([] ++ ts) := .refl _
  have pair : ∀ {t u : HostTree} {ts : List HostTree}, (t :: u :: ts).Perm ([u, t] ++ ts) :=
    .swap _ _ _
  have start : Assembled ⟨0⟩ _ _ := .empty
  have x := start.add ⟨.lexical ⟨0⟩ false, none, false⟩ leaf (by decide)
  have y := x.add ⟨.lexical ⟨1⟩ false, none, false⟩ leaf (by decide)
  have one := y.add ⟨.const (.int 1), none, false⟩ leaf (by decide)
  have guarded := one.add ⟨.and, none, false⟩ pair (by decide)
  exact guarded.add ⟨.arith (.float .add), some ⟨2⟩, false⟩ pair (by decide)

/-- The sum compiles in every scope in which only its second operand is handed over. -/
theorem sumTerm_compiles (c : Compiler) {scope : Scope} {code : List Instr}
    (hc : sumTerm.isCompilable scope = true)
    (hhand : Lowering.handoversOf scope [sumTerm] = [⟨guardTerm, .ok ⟨⟨3⟩, [⟨2⟩, ⟨3⟩]⟩⟩])
    (hcode : Lowering.codeOf scope [sumTerm] = .ok code) :
    ∃ edits c', c.compile scope ⟨0⟩ [sumTerm] = (.ok edits, c') := by
  have leaves : ∀ t ∈ guardTerm.kids, ∃ a l, t = .leaf a l := by
    simp [guardTerm, Term.kids]
  obtain ⟨c', h⟩ := c.compile_operator ⟨0⟩ hc rfl hhand leaves hcode
  exact ⟨_, c', h⟩

theorem applyEdits_wellFormed_sum : ∃ g edits c', Graph.link ⟨4⟩ sumGraph = .ok ⟨0⟩ g ∧
    Compiler.compile {} sumScope ⟨0⟩ [sumTerm] = (.ok edits, c') ∧
    ∃ units g', Graph.applyEdits edits g = .ok units g' ∧ g'.WellFormed := by
  obtain ⟨edits, c', hc⟩ := sumTerm_compiles {} (show sumTerm.isCompilable sumScope = true by decide)
    rfl rfl
  exact ⟨_, edits, c', rfl, hc, Compiler.applyEdits_wellFormed sumGraph_assembled (by simp)
    (.expression sumTerm_mirrors) rfl hc⟩

end Graft
