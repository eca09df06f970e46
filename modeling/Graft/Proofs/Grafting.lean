import Graft.Proofs.Batches
import Graft.Proofs.Lowered
import Graft.Proofs.Replacement
import Mathlib.Data.List.Forall2

/-! # Grafting

The edits of a compilation can be applied, and what they make of the tree of ops is known:
every run that was taken has become a unit over the fragments that it hands over, the fragments
have been treated in the same way, and the rest is where it was (`GraftsAll`).

One batch opens the trees of a run, takes the fragments out one by one and closes the gap
with the unit (`Site.close`).  A whole expression is treated from the root down
(`Mirrors.regrafts`), the operands of an op one after the other.

The statement that goes through the induction is about a place and not about the whole graph: the
edits of a term can be applied wherever its tree stands, and what they do is a regraft there
(`Regrafts`).  The induction is on the size of the terms, since what is below a term that is handed
over is compiled as a list of its own.  An operand is regrafted while those to the right of it are
still to come; `Regraft` says what they find then.

`U` is the property of the runs that have units.  It is carried along because a lenient job refuses
some runs, and what is said later about the code of a unit is said of the runs in the edits and of
no others.
-/

namespace Graft

open HostTree

/-- **What compiling terms has made of their trees of ops**, where the runs that have units are in
`U`. -/
inductive GraftsAll (scope : Scope) (U : List Term → Prop) :
    List Term → List HostTree → List HostTree → Prop where
  | nil : GraftsAll scope U [] [] []
  /-- Nothing was done. -/
  | same {t : Term} {T : HostTree} {us : List Term} {ts ts' : List HostTree} :
      GraftsAll scope U us ts ts' → GraftsAll scope U (t :: us) (T :: ts) (T :: ts')
  /-- The op was left to the interpreter. -/
  | kept {t : Term} {id : OpId} {f : Face} {us : List Term} {ks ks' ts ts' : List HostTree} :
      f.kind.shape ≠ .unit → f.kind.shape ≠ .listed → GraftsAll scope U t.kids ks ks' →
      GraftsAll scope U us ts ts' →
      GraftsAll scope U (t :: us) (node id f ks :: ts) (node id f ks' :: ts')
  /-- The op has become a unit. -/
  | unit {t : Term} {T : HostTree} {code : List Instr} {hs : List (Term × HostTree)} {v : Operand}
      {u : Usage} {name : String} {new : OpId} {us : List Term} {fs' ts ts' : List HostTree} :
      U [t] → t.isCompilable scope = true → T.kids ≠ [] → Lowers scope t T ⟨0, 0⟩ code hs v u →
      GraftsAll scope U (hs.map Prod.fst) (hs.map Prod.snd) fs' →
      fs'.map root = (hs.map Prod.snd).map root → GraftsAll scope U us ts ts' →
      GraftsAll scope U (t :: us) (T :: ts) (node new
        ⟨.native ⟨name, code ++ delivery T.face.targ v u, fs'.map root⟩, none, false⟩ fs' :: ts')

namespace GraftsAll

variable {scope : Scope} {U U' : List Term → Prop} {us : List Term} {ts ts' : List HostTree}

theorem cons {u : Term} {t t' : HostTree} (h : GraftsAll scope U [u] [t] [t'])
    (h' : GraftsAll scope U us ts ts') : GraftsAll scope U (u :: us) (t :: ts) (t' :: ts') := by
  cases h with
  | same => exact .same h'
  | kept hu hl hk => exact .kept hu hl hk h'
  | unit hu hc hk hlow hg hr => exact .unit hu hc hk hlow hg hr h'

theorem mono (hU : ∀ run, U run → U' run) (h : GraftsAll scope U us ts ts') :
    GraftsAll scope U' us ts ts' := by
  induction h with
  | nil => exact .nil
  | same _ ih => exact .same ih
  | kept hu hl _ _ ihk ih => exact .kept hu hl ihk ih
  | unit hu hc hk hlow _ hr _ ihg ih => exact .unit (hU _ hu) hc hk hlow ihg hr ih

/-- No lists of statements come about. -/
theorem listless (h : GraftsAll scope U us ts ts') (ht : ∀ t ∈ ts, Listless t) :
    ∀ t ∈ ts', Listless t := by
  induction h with
  | nil => exact ht
  | same _ ih =>
    rw [List.forall_mem_cons] at ht ⊢
    exact ⟨ht.1, ih ht.2⟩
  | kept hu hl hk hrest ihk ih =>
    rw [List.forall_mem_cons] at ht ⊢
    refine ⟨fun s hs => ?_, ih ht.2⟩
    rcases mem_subtrees_iff.mp hs with rfl | ⟨k, hk, hs⟩
    · exact hl
    · exact ihk (fun k hk => ht.1.kid hk) k hk s hs
  | unit hu hc hk hlow hg hr hrest ihg ih =>
    rw [List.forall_mem_cons] at ht ⊢
    refine ⟨fun s hs => ?_, ih ht.2⟩
    rcases mem_subtrees_iff.mp hs with rfl | ⟨k, hk, hs⟩
    · simp [HostTree.shape, OpKind.shape]
    · refine ihg (fun F hF => ?_) k hk s hs
      obtain ⟨p, hp, rfl⟩ := List.mem_map.mp hF
      exact (hlow.handed_mirrors p hp).1.listless

end GraftsAll

/-! ### Compiling at a place -/

/-- The row below `p` is part of the program, as it was read. -/
structure Site (owner : OwnerId) (g : Graph) (p cont : Option OpId) (ts : List HostTree) : Prop where
  standing : Standing g p cont ts
  placed : Placed g p ts
  /-- No op has been replaced. -/
  own : ∀ x ∈ idsAll ts, g.Stands x x
  ordered : g.Ordered
  owner : g.owner = owner

/-- **The edits of the term can be applied wherever its tree stands**, and the runs whose units they
put in have become units. -/
def Regrafts (job : Job) (t : Term) (T : HostTree) : Prop :=
  ∀ ⦃g : Graph⦄ ⦃p cont : Option OpId⦄ ⦃n n' : Nat⦄ ⦃edits : List Edit⦄,
    Site job.owner g p cont [T] → job.compileTerms [t] n = .ok edits n' →
    ∃ g' T', Graph.Applies edits g g' ∧ Regraft g g' p [T] [T'] ∧
      GraftsAll job.scope (job.Installs [t] edits) [t] [T] [T'] ∧
      (t.isCompilable job.scope = false → T'.root = T.root)

variable {job : Job} {g g' g₀ : Graph} {p cont : Option OpId} {n n' : Nat} {edits : List Edit}

section Kids

variable {id : OpId} {f : Face} {as ks : List HostTree} {k : HostTree}

/-- A kid is at a place of its own. -/
theorem kid_site (hs : Standing g p cont [node id f (as ++ k :: ks)])
    (hown : ∀ x ∈ idsAll (k :: ks), g.Stands x x) (ho : g.Ordered) (howner : g.owner = job.owner) :
    ∃ c, Site job.owner g (some id) c [k] := by
  obtain ⟨c, standing⟩ := hs.kid (k := k) (by simp)
  obtain ⟨⟨op, hop, -, hkids⟩, -⟩ := reads_node.mp hs.linked.1.reads
  have nodup := hs.kids_nodup (x := id) (by simp) hop
  exact ⟨c, standing, ⟨op, as.map root, ks.map root, hop, nodup, by simpa using hkids⟩,
    fun x hx => hown x (by simp at hx; simp [hx]), ho, howner⟩

/-- When a kid has been regrafted, the others are still as they were read. -/
theorem next_site {k' : HostTree} (hs : Standing g p cont [node id f (as ++ k :: ks)])
    (hown : ∀ x ∈ idsAll (k :: ks), g.Stands x x) (hr : Regraft g g' (some id) [k] [k'])
    (hu : f.kind.shape ≠ .unit) :
    Regraft g g' p [node id f (as ++ k :: ks)] [node id f (as ++ k' :: ks)] ∧
      Standing g' p cont [node id f (as ++ k' :: ks)] ∧ ∀ x ∈ idsAll ks, g'.Stands x x := by
  have hN : Standing g p cont [node id f (as ++ [k] ++ ks)] := by simpa using hs
  have whole := hr.below_kid hN hu
  simp only [List.append_assoc, List.singleton_append] at whole
  obtain ⟨-, -, inKs⟩ := hN.outside_segment
  exact ⟨whole, whole.standing cont hs,
    fun x hx => hr.stands x x (inKs x hx).1 (hown x (by simp [hx]))⟩

end Kids

/-- **The operands of an op are compiled one after the other.** -/
theorem regrafts_kids {id : OpId} {f : Face} {us : List Term} {as ks : List HostTree}
    (hu : f.kind.shape ≠ .unit) (hm : List.Forall₂ (Regrafts job) us ks)
    (hs : Standing g p cont [node id f (as ++ ks)])
    (hown : ∀ x ∈ idsAll ks, g.Stands x x) (ho : g.Ordered) (howner : g.owner = job.owner)
    (hc : job.compileTerms us n = .ok edits n') :
    ∃ g' ks', Graph.Applies edits g g' ∧
      Regraft g g' p [node id f (as ++ ks)] [node id f (as ++ ks')] ∧
      GraftsAll job.scope (job.Installs us edits) us ks ks' := by
  induction hm generalizing g as n edits with
  | nil =>
    rw [Job.compileTerms_nil] at hc
    cases hc
    exact ⟨g, [], .nil g, hs.regraft_refl, .nil⟩
  | @cons u k us ks hk _ ih =>
    rw [Job.compileTerms_cons] at hc
    obtain ⟨edits₁, n₁, hc₁, hc⟩ := Effect.bind_eq_ok.mp hc
    obtain ⟨edits₂, n₂, hc₂, hc⟩ := Effect.bind_eq_ok.mp hc
    cases hc
    obtain ⟨c, site⟩ := kid_site hs hown ho howner
    obtain ⟨g₁, k', applies₁, regraft₁, grafts₁, -⟩ := hk site hc₁
    obtain ⟨whole, standing, rest⟩ := next_site hs hown regraft₁ hu
    have moved : Standing g₁ p cont [node id f ((as ++ [k']) ++ ks)] := by simpa using standing
    obtain ⟨g₂, ks', applies₂, regraft₂, grafts₂⟩ :=
      ih moved rest (whole.ordered ho) (whole.owner.trans howner) hc₂
    have first : ∀ run, job.Installs [u] edits₁ run → job.Installs (u :: us) (edits₁ ++ edits₂) run :=
      fun run => .mono (fun run => .mono fun run mem => by simp_all [Region.ofTerms])
        (List.subset_append_left _ _)
    have others : ∀ run, job.Installs us edits₂ run → job.Installs (u :: us) (edits₁ ++ edits₂) run :=
      fun run => .mono (fun run => .mono fun run mem => by simp_all [Region.ofTerms])
        (List.subset_append_right _ _)
    refine ⟨g₂, k' :: ks', applies₁.append applies₂, ?_, (grafts₁.mono first).cons (grafts₂.mono others)⟩
    simp only [List.append_assoc, List.singleton_append] at regraft₂
    exact whole.trans regraft₂ rfl fun q hq => (hs.parent_outside q hq).1

/-! ### A batch -/

theorem Mirrors.isLeaf_or_op {scope : Scope} {c : Context} {t : Term} {T : HostTree}
    (h : Mirrors scope c t T) :
    (∃ a l, t = .leaf a l) ∨ ∃ a o b ts, t = .op a o b ts ∧ ts = t.kids ∧ T.kids ≠ [] := by
  cases h with
  | constant => exact .inl ⟨_, _, rfl⟩
  | lexical => exact .inl ⟨_, _, rfl⟩
  | declaration => exact .inl ⟨_, _, rfl⟩
  | negation => exact .inr ⟨_, _, _, _, rfl, rfl, by simp⟩
  | binary => exact .inr ⟨_, _, _, _, rfl, rfl, by simp⟩
  | ternary => exact .inr ⟨_, _, _, _, rfl, rfl, by simp⟩

section Batch

variable {ts fs pre done : List HostTree} {hs : List (Term × HostTree)}
  {parts : List (OpId × List Edit)}

/-- The edits of a term that is handed over take its fragment out. -/
theorem take_out {c : Context} {u : Term} {F : HostTree} {d : OpId} {part : OpId × List Edit}
    (hm : Mirrors job.scope c u F) (hu : u.isCompilable job.scope = false)
    (hr : Regrafts job u F) (hsite : Site job.owner g (some d) cont [F])
    (hp : job.handoverEdits ⟨u, u.detachment⟩ (job.compileTerms u.kids) n = .ok part n') :
    part.1 = F.root ∧ ∃ g' F', Graph.Applies part.2 g g' ∧ Taken g g' d F F' ∧
      GraftsAll job.scope (job.Installs u.kids part.2) [u] [F] [F'] := by
  obtain ⟨nested, dt, hnested, hdt, rfl⟩ := Job.handoverEdits_eq_ok hp
  obtain rfl : ⟨F.root, F.exits⟩ = dt := Except.ok.inj (hm.detachment.symm.trans hdt)
  have alone : job.compileTerms [u] = job.compileTerms u.kids := by
    cases u with
    | op => exact Job.compileTerms_op_interpreted job hu
    | _ => cases hm <;> simp [Term.isCompilable] at hu
  rw [← alone] at hnested
  obtain ⟨g₁, F', applies, regraft, grafts, keep⟩ := hr hsite hnested
  have root := keep hu
  have new := regraft.standing cont hsite.standing
  have up : g₁.Up F'.root d := by
    obtain ⟨op, ho⟩ := new.exists_op? (x := F'.root) (by simp [root_mem_ids])
    have seated := new.seated.1
    cases F' with
    | node id f ks => exact ⟨op, ho, ((seated_node.mp seated).1 op ho).1⟩
  have standsRoot := regraft.stands_root F F' rfl rfl F.root
    (hsite.own F.root (by simp [root_mem_ids]))
  have standsExits : List.Forall₂ g₁.Stands F.exits F'.exits := by
    have exits := regraft.stands_exits F F' rfl rfl
    have own : ∀ x ∈ F.exits, g.Stands x x := fun x hx =>
      hsite.own x (by simpa using exits_subset F hx)
    generalize F.exits = es, F'.exits = es' at exits own
    induction exits with
    | nil => exact .nil
    | cons h _ ih =>
      rw [List.forall_mem_cons] at own
      exact .cons (h _ own.1) (ih own.2)
  have notTop : g₁.root ≠ some F'.root := fun he => by
    have top := (new.root_outside _ he F' (by simp) (root_mem_ids F')).1
    cases top
  have hd : ∃ o, g₁.op? d = some o := Graph.exists_op? (new.parent_outside d rfl).2
  obtain ⟨g₂, detached, rewrites⟩ := Graph.detach_rewrites (regraft.ordered hsite.ordered)
    standsRoot up hd notTop standsExits
  have listless := grafts.listless (by simpa using hm.listless) F' (by simp)
  refine ⟨rfl, g₂, F', applies.append (.detach ?_ detached),
    regraft.take hsite.standing root listless rewrites, grafts.mono fun run => ?_⟩
  · exact regraft.owner.trans hsite.owner
  · refine .mono (fun run => .mono fun run mem => ?_) (List.subset_append_left _ _)
    rcases hm.isLeaf_or_op with ⟨a, l, rfl⟩ | ⟨a, o, b, ts, rfl, -, -⟩
    · simp [Region.ofTerms, Region.ofTerm] at mem
    · simpa [Region.ofTerms, Region.ofTerm, hu, Term.kids] using mem

/-- **The fragments of a run are taken out one after the other.** -/
theorem take_out_all (hst : Standing g₀ p cont ts) (hc : Carves ts fs)
    (hm : ∀ q ∈ hs, ∃ c, Mirrors job.scope c q.1 q.2 ∧ q.1.isCompilable job.scope = false ∧
      Regrafts job q.1 q.2)
    (ho : g₀.Ordered) (howner : g₀.owner = job.owner)
    (h : Opened g₀ g ts fs pre done (hs.map Prod.snd))
    (hown : ∀ x ∈ idsAll (hs.map Prod.snd), g.Stands x x)
    (hp : (hs.map fun q => (⟨q.1, q.1.detachment⟩ : Handover)).mapM
      (fun h => job.handoverEdits h (job.compileTerms h.term.kids)) n = .ok parts n') :
    ∃ g' done', Graph.Applies (parts.flatMap Prod.snd) g g' ∧
      Opened g₀ g' ts fs fs (done ++ done') [] ∧
      parts.map Prod.fst = (hs.map Prod.snd).map root ∧
      GraftsAll job.scope (fun run => ∃ q ∈ hs, job.Installs q.1.kids (parts.flatMap Prod.snd) run)
        (hs.map Prod.fst) (hs.map Prod.snd) done' := by
  induction hs generalizing g pre done parts n with
  | nil =>
    cases hp
    have split := h.split
    simp only [List.map_nil, List.append_nil] at split
    subst split
    exact ⟨g, [], .nil g, by simpa using h, rfl, .nil⟩
  | cons q hs ih =>
    obtain ⟨u, F⟩ := q
    rw [List.map_cons, List.mapM_cons] at hp
    obtain ⟨part, n₁, hpart, hp⟩ := Effect.bind_eq_ok.mp hp
    obtain ⟨rest, n₂, hrest, hp⟩ := Effect.bind_eq_ok.mp hp
    cases hp
    obtain ⟨_, hmu, hu, hru⟩ := hm (u, F) (by simp)
    obtain ⟨t, ht, hsub, d, c, hdt, hd, hkid, standing⟩ := h.attached F (by simp)
    obtain ⟨op, hop, nodup, hmem⟩ := h.listed hst hc hd hkid
    obtain ⟨as, bs, hkids⟩ := List.append_of_mem hmem
    have site : Site job.owner g (some d) c [F] := {
      standing := standing
      placed := ⟨op, as, bs, hop, nodup, by simpa using hkids⟩
      own := fun x hx => hown x (by simp at hx; simp [hx])
      ordered := h.ordered ho
      owner := h.owner.trans howner }
    obtain ⟨hfst, g₁, F', applies₁, taken, grafts₁⟩ := take_out hmu hu hru site hpart
    have opened := h.take hst hc taken hd hkid ⟨t, ht, hsub, hdt⟩
    have apart : ∀ x ∈ idsAll (hs.map Prod.snd), x ∉ F.ids := by
      have fsNodup := hst.nodup.sublist hc.sublist
      rw [h.split, idsAll_append, List.nodup_append] at fsNodup
      have todoNodup := fsNodup.2.1
      rw [List.map_cons, idsAll_cons, List.nodup_append] at todoNodup
      exact fun x hx hxF => todoNodup.2.2 x hxF x hx rfl
    obtain ⟨g₂, done', applies₂, final, hroots, grafts₂⟩ := ih
      (fun q hq => hm q (by simp [hq])) opened
      (fun x hx => taken.stands x x (apart x hx) (hown x (by simp [hx]))) hrest
    refine ⟨g₂, F' :: done', ?_, by simpa using final, ?_, .cons (grafts₁.mono ?_) (grafts₂.mono ?_)⟩
    · rw [List.flatMap_cons]
      exact applies₁.append applies₂
    · simp [hfst, hroots]
    · exact fun run installs =>
        ⟨(u, F), List.mem_cons_self, installs.mono (fun _ h => h) (List.subset_append_left _ _)⟩
    · rintro run ⟨q, hq, installs⟩
      exact ⟨q, List.mem_cons_of_mem _ hq,
        installs.mono (fun _ h => h) (List.subset_append_right _ _)⟩

/-- The units inside what a run hands over are among those of the program. -/
theorem Job.Installs.of_handed {roots run run' : List Term} {edits' : List Edit}
    (hrun : job.Attempts roots run)
    (hh : Lowering.handoversOf job.scope run = hs.map fun q => ⟨q.1, q.1.detachment⟩)
    (he : edits ⊆ edits') (h : ∃ q ∈ hs, job.Installs q.1.kids edits run') :
    job.Installs roots edits' run' := by
  obtain ⟨q, hq, installs⟩ := h
  have handed : ⟨q.1, q.1.detachment⟩ ∈ Lowering.handoversOf job.scope run := by
    rw [hh]
    exact List.mem_map_of_mem hq
  exact installs.mono (fun _ => hrun.inside handed) he

/-- **A batch puts a unit in the place of a row.**

When the fragments have been taken out, one after the other, the parts of the row that are left lead
from its first op to its last, and the range is found. -/
theorem Site.close {head last : HostTree} {name : String} {code : List Instr}
    (h : Site job.owner g p cont ts) (hc : Carves ts (hs.map Prod.snd))
    (htop : ∀ t ∈ ts, t.root ∉ idsAll (hs.map Prod.snd))
    (hunitless : ∀ s ∈ subtreesAll ts, s.shape ≠ .unit)
    (hfirst : ts.head? = some head) (hfinal : ts.getLast? = some last) (hplain : last.shape = .plain)
    (hm : ∀ q ∈ hs, Mirrors job.scope .scalar q.1 q.2 ∧ q.1.isCompilable job.scope = false ∧
      Regrafts job q.1 q.2)
    (hp : (hs.map fun q => (⟨q.1, q.1.detachment⟩ : Handover)).mapM
      (fun h => job.handoverEdits h (job.compileTerms h.term.kids)) n = .ok parts n') :
    ∃ g' new fs', Graph.Applies (parts.flatMap Prod.snd ++
        [job.replaceEdit head.start last.root ⟨name, code, parts.map Prod.fst⟩]) g g' ∧
      Regraft g g' p ts [node new ⟨.native ⟨name, code, fs'.map root⟩, none, false⟩ fs'] ∧
      GraftsAll job.scope (fun run => ∃ q ∈ hs, job.Installs q.1.kids (parts.flatMap Prod.snd) run)
        (hs.map Prod.fst) (hs.map Prod.snd) fs' ∧
      fs'.map root = (hs.map Prod.snd).map root := by
  have stem : ∀ x ∈ idsAll (hs.map Prod.snd), g.Stands x x := fun x hx =>
    h.own x (hc.sublist.subset hx)
  obtain ⟨g₁, fs', applies, opened, hroots, grafts⟩ := take_out_all h.standing hc
    (fun q hq => ⟨_, hm q hq⟩) h.ordered h.owner
    (h.standing.opened hc htop hunitless) stem hp
  rw [List.nil_append] at opened
  have headMem : head ∈ ts := List.mem_of_head? hfirst
  have lastMem : last ∈ ts := List.mem_of_getLast? hfinal
  have ready : Ready g g₁ p cont head last ts (hs.map Prod.snd) fs' := {
    standing := h.standing
    carves := hc
    opened := opened
    top := htop
    unitless := hunitless
    placed := h.placed
    first := hfirst
    final := hfinal
    plain := hplain
    ordered := h.ordered
    stands_start := h.own _ (mem_idsAll.mpr ⟨head, headMem, start_mem_ids head⟩)
    stands_last := h.own _ (mem_idsAll.mpr ⟨last, lastMem, root_mem_ids last⟩)
    stands_roots := fun F hF => stem _ (mem_idsAll.mpr ⟨F, hF, root_mem_ids F⟩) }
  have same : CompiledUnit.fragments ⟨name, code, fs'.map root⟩ = _ := opened.roots
  rw [hroots.trans same.symm]
  obtain ⟨g₂, replaced, regraft⟩ := ready.close same
  exact ⟨g₂, _, fs', applies.append (.replace (opened.owner.trans h.owner) replaced), regraft, grafts,
    same⟩

end Batch

/-! ### Expressions -/

namespace Mirrors

variable {c : Context} {t : Term} {T : HostTree}

/-- An operator that is taken has become a unit. -/
theorem regraft_unit (h : Mirrors job.scope .scalar t T) (hc : t.isCompilable job.scope = true)
    (hk : T.kids ≠ [])
    (ih : ∀ {u F}, Mirrors job.scope .scalar u F → F.ids.length < T.ids.length → Regrafts job u F)
    (hsite : Site job.owner g p cont [T]) (he : job.runEdits [t] n = .ok edits n') :
    ∃ g' T', Graph.Applies edits g g' ∧ Regraft g g' p [T] [T'] ∧
      GraftsAll job.scope (job.Installs [t] edits) [t] [T] [T'] := by
  obtain ⟨a, o, b, ts, rfl⟩ : ∃ a o b ts, t = .op a o b ts := by
    rcases h.isLeaf_or_op with ⟨a, l, rfl⟩ | ⟨a, o, b, ts, rfl, -, -⟩
    · cases h <;> exact absurd rfl hk
    · exact ⟨a, o, b, ts, rfl⟩
  have region : .compiled [.op a o b ts] ∈ Region.ofTerms job.scope [.op a o b ts] := by
    simp [Region.ofTerms, Region.ofTerm, hc]
  obtain ⟨first, last, parts, code, hspan, hparts, hcode, rfl⟩ := Job.runEdits_eq_ok.mp he
  simp only [Job.span, List.head?_cons, List.getLast?_singleton, h.spanFirst, h.spanLast] at hspan
  cases hspan
  obtain ⟨v, u, main, hs, lowers, rfl, hhand⟩ := Lowering.codeOf_single h hc hk hcode
  rw [hhand] at hparts
  have carves := lowers.carves.2 hc
  have top : T.root ∉ idsAll (hs.map Prod.snd) := fun hmem => by
    have nodup := hsite.standing.nodup
    have mem := carves.sublist.subset hmem
    cases T with
    | node id f ks =>
      simp only [idsAll_cons, idsAll_nil, List.append_nil, ids_node, List.nodup_cons] at nodup
      exact nodup.1 mem
  have handed : ∀ q ∈ hs, Mirrors job.scope .scalar q.1 q.2 ∧ q.1.isCompilable job.scope = false ∧
      Regrafts job q.1 q.2 := by
    intro q hq
    obtain ⟨mirrors, refused⟩ := lowers.handed_mirrors q hq
    exact ⟨mirrors, refused, ih mirrors (length_ids_lt (List.mem_map_of_mem hq) carves.sublist)⟩
  obtain ⟨g', new, fs', applies, regraft, grafts, hroots⟩ := hsite.close lowers.carves.1
    (by simpa using top) (fun s hs => (h.shape s (by simpa [subtreesAll] using hs)).1) rfl rfl
    (h.plain hc) handed hparts
  refine ⟨g', _, applies, regraft, .unit ?_ hc hk lowers (grafts.mono ?_) hroots .nil⟩
  · exact ⟨.region region, n, n', _, _, he, List.mem_append_right _ (List.mem_singleton_self _)⟩
  · exact fun run => .of_handed (.region region) hhand (List.subset_append_left _ _)

/-- **The edits of an expression can be applied**, whatever the ops around it.

An op that is not taken stays, and its operands are edited one after the other.  One that is taken
loses what its run hands over, each fragment after the edits below it have been applied, and then
the unit takes its place.  A run that was refused leaves no edits. -/
theorem regrafts (h : Mirrors job.scope c t T) (hc : c = .scalar ∨ t.isCompilable job.scope = false) :
    Regrafts job t T := by
  -- by induction on the number of ops: fragments and operands are smaller
  induction hN : T.ids.length using Nat.strongRecOn generalizing c t T with
  | _ N ih =>
    subst hN
    have smaller : ∀ {u F}, Mirrors job.scope .scalar u F → F.ids.length < T.ids.length →
        Regrafts job u F := fun hm hlt => ih _ hlt hm (.inl rfl) rfl
    intro g p cont n n' edits hsite he
    have refl : ∃ g' T', Graph.Applies [] g g' ∧ Regraft g g' p [T] [T'] ∧
        GraftsAll job.scope (job.Installs [t] []) [t] [T] [T'] ∧
        (t.isCompilable job.scope = false → T'.root = T.root) :=
      ⟨g, T, .nil g, hsite.standing.regraft_refl, .same .nil, fun _ => rfl⟩
    rcases h.isLeaf_or_op with ⟨a, l, rfl⟩ | ⟨a, o, b, ts, rfl, -, hk⟩
    · rw [Job.compileTerms_leaf] at he
      cases he
      exact refl
    · cases hcomp : (Term.op a o b ts).isCompilable job.scope with
      | true =>
        rw [Job.compileTerms_op_compiled job hcomp] at he
        obtain rfl := hc.resolve_right (by simp [hcomp])
        rcases Job.tolerate_eq_ok he with he | rfl
        · obtain ⟨g', T', applies, regraft, grafts⟩ := h.regraft_unit hcomp hk smaller hsite he
          exact ⟨g', T', applies, regraft, grafts, fun hn => by simp at hn⟩
        · simpa [hcomp] using refl
      | false =>
        rw [Job.compileTerms_op_interpreted job hcomp] at he
        have shape := h.shape T (mem_subtrees_self T)
        have kids : List.Forall₂ (Regrafts job) ts T.kids := by
          have small : ∀ k ∈ T.kids, k.ids.length < T.ids.length := fun k hk =>
            length_ids_lt hk (.refl _)
          have both := (List.forall₂_and_left _ _).mpr ⟨small, h.kids.flip⟩
          exact both.flip.imp fun u F hm => smaller hm.2 hm.1
        cases T with
        | node id f ks =>
          have standing : Standing g p cont [node id f ([] ++ ks)] := hsite.standing
          obtain ⟨g', ks', applies, regraft, grafts⟩ := regrafts_kids shape.1 kids standing
            (fun x hx => hsite.own x (by simp at hx; simp [hx])) hsite.ordered
            hsite.owner he
          have below : ∀ run, job.Installs ts edits run → job.Installs [.op a o b ts] edits run :=
            fun run => .mono (fun run => .mono fun run mem => by
              simpa [Region.ofTerms, Region.ofTerm, hcomp] using mem) (List.Subset.refl _)
          exact ⟨g', node id f ks', applies, regraft, .kept shape.1 shape.2 (grafts.mono below) .nil,
            fun _ => rfl⟩

end Mirrors

end Graft
