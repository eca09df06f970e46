import Graft.Proofs.BlockSplice

/-! # Programs of nested statements

The edits of a compiled program whose statements are nested can be applied if, and for a strict
compiler only if, every run is contiguous (`Compiler.applyEdits_nested`): of a run of several
statements the last one is no block, and of a block that is a run by itself the first and the
last statement are left where they were when the rest has been taken out.

The rows of a program are edited one after the other, those of blocks as part of the row that
they are in (`Verdict`).  A verdict is about both directions at once.  If all runs of a row are
contiguous its edits succeed and only the row is `Edited`, so the rest of the list is as the next
run expects it; if one is not, the batch in which its unit is put in fails, after batches that have
succeeded.  A compiler that is not strict skips a run that it cannot lower, and then nothing is said
of the runs that were skipped, which is why the second direction is for strict compilers.

The induction goes over the statements of a list.  A run has been begun or not, and the next
statement goes into it, ends it, or is a block with a row of its own; each of these is a lemma about
verdicts, and the verdict of the whole list is put together with `Verdict.append`.
-/

namespace Graft

open HostTree

namespace Graph.Applies

variable {g g' g'' : Graph} {edits edits' : List Edit}

/-- Edits are applied one after the other. -/
theorem of_append (h : Applies (edits ++ edits') g g') :
    ∃ g₁, Applies edits g g₁ ∧ Applies edits' g₁ g' := by
  obtain ⟨answers, hm⟩ := applies_iff.mp h
  rw [List.mapM_append] at hm
  obtain ⟨as, g₁, ha, hm⟩ := Effect.bind_eq_ok.mp hm
  obtain ⟨bs, g₂, hb, hm⟩ := Effect.bind_eq_ok.mp hm
  cases hm
  exact ⟨g₁, applies_iff.mpr ⟨as, ha⟩, applies_iff.mpr ⟨bs, hb⟩⟩

theorem unique (h : Applies edits g g') (h' : Applies edits g g'') : g' = g'' := by
  obtain ⟨as, ha⟩ := h
  obtain ⟨bs, hb⟩ := h'
  rw [ha] at hb
  cases hb
  rfl

theorem of_replace {owner : OwnerId} {first last : OpId} {unit : CompiledUnit} {keep : Bool}
    (h : Applies [⟨owner, .replace first last unit keep⟩] g g') :
    ∃ new, Graph.replace first last unit keep g = .ok new g' := by
  obtain ⟨answers, hm⟩ := applies_iff.mp h
  rw [List.mapM_cons] at hm
  obtain ⟨a, g₁, ha, hm⟩ := Effect.bind_eq_ok.mp hm
  cases hm
  unfold applyEdit at ha
  rw [Effect.get_bind] at ha
  split at ha
  · cases ha
  · obtain ⟨new, hr, -⟩ := Effect.map_eq_ok.mp ha
    exact ⟨new, hr⟩

end Graph.Applies

/-! ### Runs -/

namespace Item

variable {scope : Scope} {g g₀ g' : Graph} {L P first last r : OpId} {cont : Option OpId}
  {is : List Item} {hs : List (Term × HostTree)} {ts done : List HostTree} {unit : CompiledUnit}

theorem areContiguous_cons_cons {i j l : Item} (h : (j :: is).getLast? = some l) :
    Term.areContiguous scope (terms (i :: j :: is)) =
      (i.term.remains scope && l.term.ends scope) := by
  have last : (j.term :: terms is).getLast? = some l.term := by
    rw [← terms, getLast?_terms, h]
    rfl
  rw [terms, terms, Term.areContiguous, last]
  rfl

@[simp] theorem areContiguous_block (w : Option Attributes) (m : Option OpId) (a : Attributes)
    (id : OpId) (is : List Item) :
    Term.areContiguous scope [(block w m a id is).term] = Term.areContiguous scope (terms is) := by
  cases w <;> simp [term, Term.areContiguous, Term.isContiguous]

theorem areContiguous_expr {s : Statement} (h : Mirrors scope .void s.expr s.tree) :
    Term.areContiguous scope [(expr s).term] = s.expr.isCompilable scope := by
  rw [Term.areContiguous, term, Statement.term, Term.isContiguous]
  generalize s.expr = t, s.tree = T at h
  cases h <;> simp [Term.isContiguous]

/-- What ends a row is an expression that is left. -/
theorem exists_of_ends {i : Item} (h : i.term.ends scope = true) :
    ∃ s, i = expr s ∧ s.expr.isCompilable scope = true := by
  cases i with
  | expr s =>
    rw [Term.ends, Bool.and_eq_true, term, Statement.term, Term.isCompilable] at h
    exact ⟨s, rfl, h.2⟩
  | block w m a id is =>
    rw [Term.ends, isBlock_block] at h
    cases h

theorem remains_expr {s : Statement} (h : s.expr.isCompilable scope = true) :
    (expr s).term.remains scope = true := by
  rw [Term.remains, term, Statement.term, Term.isCompilable, h, Bool.or_true]

/-- What is not left is an expression that is handed over. -/
theorem exists_of_not_remains {i : Item} (h : i.term.remains scope = false) :
    ∃ s, i = expr s ∧ s.expr.isCompilable scope = false := by
  cases i with
  | expr s =>
    rw [Term.remains, Bool.or_eq_false_iff, term, Statement.term, Term.isCompilable] at h
    exact ⟨s, rfl, h.2⟩
  | block w m a id is =>
    rw [Term.remains, isBlock_block] at h
    cases h

/-- The row of the block that is all of a row. -/
theorem level_block {w : Option Attributes} {m : Option OpId} {a : Attributes} {id : OpId}
    {ks : List Item} (h : Level g₀ L ts (hs.map Prod.snd) P (rows [block w m a id ks]))
    (hands : Hands scope [block w m a id ks] hs) :
    Hands scope ks hs ∧ Level g₀ L ts (hs.map Prod.snd) id (rows ks) ∧
      id ∉ idsAll (hs.map Prod.snd) := by
  obtain ⟨c, standing⟩ := h.standing
  have out := hands.root_not_mem standing.nodup (i := block w m a id ks) (by simp)
    (by rw [Term.remains, isBlock_block]; rfl)
  cases hands with
  | @block _ _ _ _ _ _ hs₁ hs₂ hk hnil =>
    cases hnil
    rw [List.append_nil] at h out ⊢
    exact ⟨hk, h.block (f := ⟨.statements, none, false⟩) (by simp [rows, tree]) rfl hk.carves out, out⟩

section

variable (hcl : Cleared g₀ g L cont ts (hs.map Prod.snd) done)
include hcl

/-- A unit can be put in from an item that is left to an expression that is left. -/
theorem replace_between {i : Item} {s : Statement}
    (hlev : Level g₀ L ts (hs.map Prod.snd) P (rows (i :: is))) (hands : Hands scope (i :: is) hs)
    (hm : AllMirrored scope (i :: is)) (hlast : (i :: is).getLast? = some (expr s))
    (hi : i.term.remains scope = true) (hc : s.expr.isCompilable scope = true)
    (hf : i.term.spanFirst = some first) (hfr : unit.fragments = (hs.map Prod.snd).map root) :
    ∃ g', Graph.replace first s.tree.root unit false g = .ok ⟨g.size⟩ g' ∧ Edited g₀ g' L ts := by
  obtain ⟨c, standing⟩ := hlev.standing
  obtain ⟨inside, start⟩ := spanFirst_mem hands hm standing.nodup hf
  have rowsLast := getLast?_rows hlast
  have final : (i.tree :: rows is).getLast? = some s.tree := by
    rw [rows, List.getLast?_append_cons] at rowsLast
    exact rowsLast
  exact hlev.replace hcl rfl final (hands.root_not_mem standing.nodup (by simp) hi)
    (hands.root_not_mem standing.nodup (List.mem_of_getLast? hlast) (remains_expr hc)) inside start hfr

/-- The unit of several items can be put in. -/
theorem replace_several {i j : Item} (hlev : Level g₀ L ts (hs.map Prod.snd) P (rows (i :: j :: is)))
    (hands : Hands scope (i :: j :: is) hs) (hm : AllMirrored scope (i :: j :: is))
    (hf : i.term.spanFirst = some first) (hl : Term.spanLastOf (terms (i :: j :: is)) = some last)
    (hc : Term.areContiguous scope (terms (i :: j :: is)) = true)
    (hfr : unit.fragments = (hs.map Prod.snd).map root) :
    ∃ g', Graph.replace first last unit false g = .ok ⟨g.size⟩ g' ∧ Edited g₀ g' L ts := by
  obtain ⟨l, hlast⟩ : ∃ l, (j :: is).getLast? = some l :=
    ⟨_, List.getLast?_eq_some_getLast (List.cons_ne_nil j is)⟩
  rw [areContiguous_cons_cons hlast, Bool.and_eq_true] at hc
  obtain ⟨s, rfl, compilable⟩ := exists_of_ends hc.2
  have whole : (i :: j :: is).getLast? = some (expr s) := by rwa [List.getLast?_cons_cons]
  rw [spanLastOf_terms whole, spanLast_expr (hm.mem (List.mem_of_getLast? whole))] at hl
  cases hl
  exact replace_between hcl hlev hands hm whole hc.1 compilable hf hfr

/-- **The unit of a contiguous run can be put in.** -/
theorem replace (hlev : Level g₀ L ts (hs.map Prod.snd) P (rows is)) (hands : Hands scope is hs)
    (hm : AllMirrored scope is) (hf : Term.spanFirstOf (terms is) = some first)
    (hl : Term.spanLastOf (terms is) = some last) (hc : Term.areContiguous scope (terms is) = true)
    (hfr : unit.fragments = (hs.map Prod.snd).map root) :
    ∃ g', Graph.replace first last unit false g = .ok ⟨g.size⟩ g' ∧ Edited g₀ g' L ts := by
  induction is using Item.induction generalizing P with
  | nil => simp [terms, Term.areContiguous] at hc
  | expr s is _ =>
    cases is with
    | nil =>
      have mirrors := hm.1
      rw [terms, terms, areContiguous_expr mirrors] at hc
      rw [spanLastOf_terms (l := expr s) rfl, spanLast_expr mirrors] at hl
      cases hl
      exact replace_between hcl hlev hands hm rfl (remains_expr hc) hc hf hfr
    | cons j is => exact replace_several hcl hlev hands hm hf hl hc hfr
  | block w m a id ks is ihk _ =>
    cases is with
    | nil =>
      obtain ⟨hk, level, -⟩ := level_block hlev hands
      simp only [AllMirrored, Mirrored] at hm
      refine ihk level hk hm.1 ?_ ?_ (by simpa [terms] using hc)
      · cases w <;> simpa [terms, term, Term.spanFirstOf, Term.spanFirst] using hf
      · cases w <;> simpa [terms, term, Term.spanLastOf, Term.spanLast] using hl
    | cons j is => exact replace_several hcl hlev hands hm hf hl hc hfr

/-- A list op is in no fragment. -/
theorem not_mem_of_listed {K : OpId} {op : Op} (hh : ∀ q ∈ hs, Listless q.2)
    (ho : g₀.op? K = some op) (hk : op.kind.shape = .listed) : K ∉ idsAll (hs.map Prod.snd) := by
  intro hmem
  obtain ⟨F, hF, hKF⟩ := mem_idsAll.mp hmem
  have reads : Reads g₀ F := by
    rcases hcl.carves.standing hcl.standing.nodup (fun t ht => hcl.standing.single ht) F hF with
      hin | ⟨_, -, -, _, _, -, -, -, standing⟩
    · exact hcl.standing.reads hin
    · exact standing.reads (by simp)
  obtain ⟨t, ht, rfl⟩ := mem_ids.mp hKF
  obtain ⟨op', ho', hface, -⟩ := reads t ht
  obtain rfl : op = op' := Option.some.inj (ho.symm.trans ho')
  obtain ⟨q, hq, rfl⟩ := List.mem_map.mp hF
  refine hh q hq t ht ?_
  cases t with
  | node id f ks =>
    rw [show op.kind = op.face.kind from rfl, hface] at hk
    exact hk

/-- No unit is put in for several items that are not contiguous. -/
theorem not_replace_several {i j : Item} {op : Op} {new : OpId} {keep : Bool}
    (hlev : Level g₀ L ts (hs.map Prod.snd) P (rows (i :: j :: is)))
    (hands : Hands scope (i :: j :: is) hs) (hm : AllMirrored scope (i :: j :: is))
    (hf : i.term.spanFirst = some first) (hl : Term.spanLastOf (terms (i :: j :: is)) = some last)
    (hc : Term.areContiguous scope (terms (i :: j :: is)) = false)
    (hup : g.Rises (fun y => y ∉ idsAll (rows (i :: j :: is))) P r) (hr : g.op? r = some op)
    (hp : op.parent = none) : Graph.replace first last unit keep g ≠ .ok new g' := by
  obtain ⟨c, standing⟩ := hlev.standing
  obtain ⟨inside, -⟩ := spanFirst_mem hands hm standing.nodup hf
  obtain ⟨l, hlast⟩ : ∃ l, (j :: is).getLast? = some l :=
    ⟨_, List.getLast?_eq_some_getLast (List.cons_ne_nil j is)⟩
  have whole : (i :: j :: is).getLast? = some l := by rwa [List.getLast?_cons_cons]
  have lMem := List.mem_of_getLast? whole
  rw [spanLastOf_terms whole] at hl
  rw [areContiguous_cons_cons hlast, Bool.and_eq_false_iff] at hc
  have iTree : i.tree ∈ rows (i :: j :: is) := tree_mem_rows (by simp)
  cases l with
  | expr s =>
    have mirrors : Mirrors scope .void s.expr s.tree := hm.mem lMem
    rw [spanLast_expr mirrors] at hl
    cases hl
    cases compilable : s.expr.isCompilable scope with
    | false =>
      -- the last expression has been taken out
      exact hlev.not_replace_last hcl (hands.mem_of_refused lMem compilable) (tree_mem_rows lMem)
    | true =>
      -- so the first one has been
      have gone := hc.resolve_right (by
        rw [Term.ends, isBlock_expr mirrors, term, Statement.term, Term.isCompilable, compilable]
        simp)
      obtain ⟨s', rfl, refused⟩ := exists_of_not_remains gone
      exact hlev.not_replace_first hcl (hands.mem_of_refused (by simp) refused) iTree inside
        (tree_mem_rows lMem)
  | block w m a id ks =>
    -- the last op is in the block
    have lTree : (block w m a id ks).tree ∈ rows (i :: j :: is) := tree_mem_rows lMem
    have reads := standing.reads lTree
    have mirrored : AllMirrored scope [block w m a id ks] := ⟨hm.mem lMem, trivial⟩
    rw [tree] at reads lTree
    obtain ⟨⟨o, ho, hface, hkids⟩, below⟩ := reads_node.mp reads
    have listed : o.kind.shape = .listed := by
      rw [show o.kind = o.face.kind from rfl, hface]
      rfl
    have inner : Term.spanLastOf (terms ks) = some last := by
      cases w <;> simpa [term, Term.spanLast] using hl
    simp only [AllMirrored, Mirrored] at mirrored
    obtain ⟨K, op', hK, ho', hlisted, hkid⟩ : ∃ K op', K ∈ (node id ⟨.statements, none, false⟩ (rows ks)).ids ∧
        g₀.op? K = some op' ∧ op'.kind.shape = .listed ∧ last ∈ op'.kids := by
      rcases spanLastOf_kid mirrored.1 below inner with hmem | ⟨K, op', hK, h⟩
      · exact ⟨id, o, by simp, ho, listed, hkids ▸ hmem⟩
      · exact ⟨K, op', by simp [hK], h⟩
    have handed : ∀ q ∈ hs, Listless q.2 := fun q hq => by
      obtain ⟨_, mirrors, -⟩ := hands.handed_mirrors q hq
      exact mirrors.listless
    have apart : i.tree ≠ node id ⟨.statements, none, false⟩ (rows ks) := by
      intro he
      obtain ⟨-, -, apart, -⟩ := Hands.nodup_rows standing.nodup
      have later := tree_mem_rows (List.mem_of_getLast? hlast)
      rw [tree, ← he] at later
      exact apart i.tree.root (root_mem_ids _) (mem_idsAll.mpr ⟨i.tree, later, root_mem_ids _⟩)
    exact hlev.not_replace_deeper hcl iTree inside lTree apart hK
      (not_mem_of_listed hcl handed ho' hlisted) ⟨op', ho', hkid⟩ hup hr hp

/-- **No unit is put in for a run that is not contiguous.** -/
theorem not_replace {op : Op} {new : OpId} {keep : Bool}
    (hlev : Level g₀ L ts (hs.map Prod.snd) P (rows is)) (hands : Hands scope is hs)
    (hm : AllMirrored scope is) (hf : Term.spanFirstOf (terms is) = some first)
    (hl : Term.spanLastOf (terms is) = some last) (hc : Term.areContiguous scope (terms is) = false)
    (hup : g.Rises (fun y => y ∉ idsAll (rows is)) P r) (hr : g.op? r = some op)
    (hp : op.parent = none) : Graph.replace first last unit keep g ≠ .ok new g' := by
  induction is using Item.induction generalizing P with
  | nil => simp [terms, Term.spanFirstOf] at hf
  | expr s is _ =>
    cases is with
    | nil =>
      have mirrors := hm.1
      rw [terms, terms, areContiguous_expr mirrors] at hc
      rw [spanLastOf_terms (l := expr s) rfl, spanLast_expr mirrors] at hl
      cases hl
      exact hlev.not_replace_last hcl (hands.mem_of_refused (by simp) hc)
        (tree_mem_rows (i := expr s) (by simp))
    | cons j is => exact not_replace_several hcl hlev hands hm hf hl hc hup hr hp
  | block w m a id ks is ihk _ =>
    cases is with
    | nil =>
      obtain ⟨hk, level, hid⟩ := level_block hlev hands
      obtain ⟨o, ho, hparent⟩ := hlev.root_up hcl (tree_mem_rows (i := block w m a id ks) (by simp)) hid
      have below : ∀ x ∈ idsAll (rows ks), x ∈ idsAll (rows [block w m a id ks]) := fun x hx => by
        simp [rows, tree, hx]
      obtain ⟨c, standing⟩ := hlev.standing
      have above := (standing.parent_outside P rfl).1
      simp only [AllMirrored, Mirrored] at hm
      refine ihk level hk hm.1 ?_ ?_ (by simpa [terms] using hc)
        (.head ⟨⟨o, ho, hparent⟩, fun hx => above (below P hx)⟩ (hup.mono fun y hy hx => hy (below y hx)))
      · cases w <;> simpa [terms, term, Term.spanFirstOf, Term.spanFirst] using hf
      · cases w <;> simpa [terms, term, Term.spanLastOf, Term.spanLast] using hl
    | cons j is => exact not_replace_several hcl hlev hands hm hf hl hc hup hr hp

end

end Item

/-! ### Rows -/

namespace HostTree

variable {owner : OwnerId} {g g' : Graph} {p cont : Option OpId} {L : OpId} {ts us ks : List HostTree}

/-- Parents lead from `L` to the top of the graph, past the row. -/
def Crowned (g : Graph) (L : OpId) (ts : List HostTree) : Prop :=
  ∃ r op, g.Rises (fun x => x ∉ idsAll ts) L r ∧ g.op? r = some op ∧ op.parent = none

theorem Crowned.mono (h : Crowned g L us) (hs : ∀ x ∈ idsAll ts, x ∈ idsAll us) : Crowned g L ts := by
  obtain ⟨r, op, hrise, hr, hp⟩ := h
  exact ⟨r, op, hrise.mono fun x hx hmem => hx (hs x hmem), hr, hp⟩

/-- The way to the top is kept where parents are. -/
theorem Crowned.transport (h : Crowned g L ts) (hL : L ∉ idsAll ts)
    (hg : ∀ x op, x ∉ idsAll ts → g.op? x = some op →
      ∃ op', g'.op? x = some op' ∧ op'.parent = op.parent) : Crowned g' L ts := by
  obtain ⟨r, op, hrise, hr, hp⟩ := h
  have rises : g'.Rises (fun x => x ∉ idsAll ts) L r ∧ r ∉ idsAll ts := by
    clear hr
    induction hrise with
    | refl => exact ⟨.refl, hL⟩
    | tail _ step ih =>
      obtain ⟨⟨o, ho, hup⟩, hv⟩ := step
      obtain ⟨o', ho', hp'⟩ := hg _ o ih.2 ho
      exact ⟨.tail ih.1 ⟨⟨o', ho', hp'.trans hup⟩, hv⟩, hv⟩
  obtain ⟨op', hr', hp'⟩ := hg r op rises.2 hr
  exact ⟨r, op', rises.1, hr', hp'.trans hp⟩

theorem Edited.crowned (h : Edited g g' L ks) (hc : Crowned g L (ks ++ us))
    (hL : L ∉ idsAll (ks ++ us)) : Crowned g' L us := by
  obtain ⟨τ, -, ops⟩ := h.ops
  have kept : Crowned g' L (ks ++ us) := hc.transport hL fun x op hx ho => by
    rw [idsAll_append, List.mem_append, not_or] at hx
    obtain ⟨kids, ho', -⟩ := ops x op hx.1 ho
    exact ⟨_, ho', by simp⟩
  exact kept.mono fun x hx => by simp [hx]

/-- The front of a row is at a place of its own. -/
theorem front_site (h : Site owner g (some L) cont (ts ++ us)) (hl : Lists g L (ts ++ us)) :
    (∃ c, Site owner g (some L) c ts) ∧ Lists g L ts := by
  have nodup := h.standing.nodup
  rw [idsAll_append, List.nodup_append] at nodup
  have outside : ∀ {x}, Outside g (ts ++ us) x → Outside g ts x := fun hx =>
    ⟨fun hmem => hx.1 (by simp [hmem]), hx.2⟩
  obtain ⟨op, as, bs, ho, hn, hlt, hk⟩ := hl
  have lists : Lists g L ts := ⟨op, as, us.map root ++ bs, ho, hn, hlt, by simpa using hk⟩
  have after : ∀ x, entryOf us cont = some x → Outside g ts x := by
    intro x hx
    cases us with
    | nil => exact outside (h.standing.cont_outside x hx)
    | cons u us =>
      cases hx
      have mem : u.start ∈ idsAll (u :: us) := by simp [start_mem_ids]
      exact ⟨fun hmem => nodup.2.2 _ hmem _ mem rfl, h.standing.lt_size (by simp [start_mem_ids])⟩
  refine ⟨⟨_, ⟨(linkedRow_append.mp h.standing.linked).1, ?_, nodup.1, after,
    fun q hq => outside (h.standing.parent_outside q hq), h.standing.root_old,
    fun r hr t ht => h.standing.root_outside r hr t (by simp [ht])⟩, lists.placed,
    fun x hx => h.own x (by simp [hx]), h.ordered, h.owner⟩, lists⟩
  exact seatedAll_iff.mpr fun t ht => seatedAll_iff.mp h.standing.seated t (by simp [ht])

/-- The row of a block is at a place of its own. -/
theorem block_site {id : OpId} {f : Face} (h : Site owner g p cont ts) (hb : node id f ks ∈ ts)
    (hf : f.kind.shape = .listed) : (∃ c, Site owner g (some id) c ks) ∧ Lists g id ks := by
  obtain ⟨c, standing⟩ := h.standing.single hb
  have alone : Standing g p c [node id f ([] ++ ks ++ [])] := by simpa using standing
  have below : ∀ x ∈ (node id f ks).ids, x ∈ idsAll ts := fun x hx => mem_idsAll.mpr ⟨_, hb, hx⟩
  obtain ⟨⟨op, ho, -, hk⟩, -⟩ := reads_node.mp standing.linked.1.reads
  have row := (alone.row (.inr hf)).2.1
  have lists : Lists g id ks := by
    refine ⟨op, [], [], ho, standing.kids_nodup (by simp) ho, fun k hmem => ?_, by simpa using hk⟩
    rw [hk] at hmem
    obtain ⟨t, ht, rfl⟩ := List.mem_map.mp hmem
    exact row.lt_size (mem_idsAll.mpr ⟨t, ht, root_mem_ids t⟩)
  exact ⟨⟨_, row, lists.placed, fun x hx => h.own x (below x (by simp [hx])), h.ordered, h.owner⟩, lists⟩

end HostTree

/-- **Whether edits below `L` can be applied**: if all runs are contiguous they can, and the row is
all that they change; and for a strict job only then. -/
structure Verdict (job : Job) (g : Graph) (L : OpId) (ts : List HostTree) (runs : List Region)
    (edits : List Edit) : Prop where
  applies : (∀ run, .compiled run ∈ runs → Term.areContiguous job.scope run = true) →
    ∃ g', Graph.Applies edits g g' ∧ Edited g g' L ts
  only : job.strict = true → Crowned g L ts → ∀ g', Graph.Applies edits g g' →
    ∀ run, .compiled run ∈ runs → Term.areContiguous job.scope run = true

namespace Verdict

variable {job : Job} {g : Graph} {L : OpId} {ts us : List HostTree} {runs runs' : List Region}
  {edits edits' : List Edit}

theorem nil (job : Job) (g : Graph) (L : OpId) (ts : List HostTree) : Verdict job g L ts [] [] where
  applies _ := ⟨g, .nil g, .refl g L ts⟩
  only _ _ _ _ _ hrun := by cases hrun

/-- Regions without runs say nothing. -/
theorem interpreted {t : Term} (h : Verdict job g L ts runs edits) :
    Verdict job g L ts (.interpreted t :: runs) edits where
  applies hc := h.applies fun run hrun => hc run (by simp [hrun])
  only hs hr g' ha run hrun := h.only hs hr g' ha run (by simpa using hrun)

/-- **Rows are edited one after the other.**

Edits are deterministic.  If all of them can be applied, the graph between the two rows is the one
that the verdict on the first row speaks of. -/
theorem append (h : Verdict job g L ts runs edits) (hL : L ∉ idsAll (ts ++ us))
    (h' : ∀ g', Edited g g' L ts → Verdict job g' L us runs' edits') :
    Verdict job g L (ts ++ us) (runs ++ runs') (edits ++ edits') where
  applies hc := by
    obtain ⟨g₁, applies₁, edited₁⟩ := h.applies fun run hrun => hc run (by simp [hrun])
    obtain ⟨g₂, applies₂, edited₂⟩ := (h' g₁ edited₁).applies fun run hrun => hc run (by simp [hrun])
    exact ⟨g₂, applies₁.append applies₂, edited₁.trans edited₂⟩
  only hs hr g' ha := by
    obtain ⟨g₁, applies₁, applies₂⟩ := ha.of_append
    have first := h.only hs (hr.mono fun x hx => by simp [hx]) g₁ applies₁
    obtain ⟨g₁', applies₁', edited₁⟩ := h.applies first
    obtain rfl := applies₁.unique applies₁'
    have second := (h' g₁ edited₁).only hs (edited₁.crowned hr hL) g' applies₂
    intro run hrun
    rcases List.mem_append.mp hrun with hrun | hrun
    · exact first run hrun
    · exact second run hrun

/-- A block is edited in its row. -/
theorem block {id : OpId} {f : Face} (h : Verdict job g id ts runs edits)
    (hL : L ∉ idsAll [node id f ts]) (hup : g.Up id L) :
    Verdict job g L [node id f ts] runs edits where
  applies hc := by
    obtain ⟨g', applies, edited⟩ := h.applies hc
    exact ⟨g', applies, edited.block hL⟩
  only hs hr g' ha := by
    refine h.only hs ?_ g' ha
    have below : ∀ x ∈ idsAll ts, x ∈ idsAll [node id f ts] := fun x hx => by simp [hx]
    obtain ⟨r, op, hrise, hr, hp⟩ := hr
    exact ⟨r, op, .head ⟨hup, fun hx => hL (below L hx)⟩
      (hrise.mono fun x hx hmem => hx (below x hmem)), hr, hp⟩

end Verdict

section Rows

open Item

variable {job : Job} {g : Graph} {L : OpId} {cont : Option OpId} {run rest : List Item} {n n' : Nat}
  {edits : List Edit}

theorem span_terms {first last : OpId} (h : Job.span (terms run) = .ok (first, last)) :
    Term.spanFirstOf (terms run) = some first ∧ Term.spanLastOf (terms run) = some last := by
  cases run with
  | nil => cases h
  | cons i is =>
    obtain ⟨l, hl⟩ : ∃ l, (i :: is).getLast? = some l :=
      ⟨_, List.getLast?_eq_some_getLast (List.cons_ne_nil i is)⟩
    rw [spanLastOf_terms hl]
    have final : (terms (i :: is)).getLast? = some l.term := by rw [getLast?_terms, hl]; rfl
    rw [Job.span, final, terms, List.head?_cons] at h
    rw [terms, Term.spanFirstOf]
    dsimp only at h
    split at h
    · next hf hl =>
      cases h
      exact ⟨hf, hl⟩
    · cases h
    · cases h

/-- **The batch of a run clears its row, and then replaces it.**

What the run hands over is met going down from its list, and each tree can be edited where it is, so
the trees are taken out one after the other. -/
theorem clear_run (hs : Site job.owner g (some L) cont (rows run)) (hl : Lists g L (rows run))
    (hm : AllMirrored job.scope run) (hr : ∀ i ∈ run, i.term.isCompilable job.scope = true)
    (hc : job.runEdits (terms run) n = .ok edits n') :
    ∃ first last unit opening handed g₁ done, edits = opening ++ [job.replaceEdit first last unit] ∧
      Term.spanFirstOf (terms run) = some first ∧ Term.spanLastOf (terms run) = some last ∧
      Hands job.scope run handed ∧ unit.fragments = (handed.map Prod.snd).map root ∧
      Graph.Applies opening g g₁ ∧ g₁.owner = job.owner ∧
      Cleared g g₁ L cont (rows run) (handed.map Prod.snd) done := by
  obtain ⟨first, last, parts, code, hspan, hparts, hcode, rfl⟩ := Job.runEdits_eq_ok.mp hc
  obtain ⟨hfirst, hlast⟩ := span_terms hspan
  obtain ⟨handed, hands, hhand⟩ := Lowering.codeOf_handed hm hcode
  rw [hhand] at hparts
  have remain : ∀ i ∈ run, i.term.remains job.scope = true := fun i hi => by
    rw [Term.remains, hr i hi, Bool.or_true]
  have top := hands.top hm hs.standing.nodup remain
  have mirrors : ∀ q ∈ handed, ∃ c, Mirrors job.scope c q.1 q.2 ∧
      q.1.isCompilable job.scope = false ∧ Regrafts job q.1 q.2 := fun q hq => by
    obtain ⟨c, hmq, refused⟩ := hands.handed_mirrors q hq
    exact ⟨c, hmq, refused, hmq.regrafts (.inr refused)⟩
  obtain ⟨g₁, done, applies, opened, hroots, -⟩ := take_out_all hs.standing hands.carves mirrors
    hs.ordered hs.owner (hs.standing.opened hands.carves top hm.unitless)
    (fun x hx => hs.own x (hands.carves.sublist.subset hx)) hparts
  exact ⟨first, last, _, _, handed, g₁, _, rfl, hfirst, hlast, hands, hroots, applies,
    opened.owner.trans hs.owner, hs.standing, hl, hs.own, hs.ordered, hands.carves, top, opened⟩

/-- **The edits of a run**, if it has come to its end. -/
theorem verdict_run (hs : Site job.owner g (some L) cont (rows run)) (hl : Lists g L (rows run))
    (hm : AllMirrored job.scope run) (hr : ∀ i ∈ run, i.term.isCompilable job.scope = true)
    (hc : job.closingEdits (terms run) n = .ok edits n') :
    Verdict job g L (rows run) (Region.close (terms run)) edits := by
  cases run with
  | nil =>
    rw [terms, Job.closingEdits_nil] at hc
    cases hc
    exact .nil job g L _
  | cons i is =>
    rw [terms, Job.closingEdits_cons, ← terms] at hc
    have single : ∀ ts, .compiled ts ∈ Region.close (terms (i :: is)) → ts = terms (i :: is) := by
      intro ts hts
      simpa [terms, Region.close] using hts
    have listed : Region.compiled (terms (i :: is)) ∈ Region.close (terms (i :: is)) := by
      simp [terms, Region.close]
    constructor
    · intro hall
      rcases Job.tolerate_eq_ok hc with hc | rfl
      · obtain ⟨first, last, unit, opening, handed, g₁, done, rfl, hfirst, hlast, hands, hfr, applies,
          owner, cleared⟩ := clear_run hs hl hm hr hc
        obtain ⟨g₂, replaced, edited⟩ := Item.replace cleared cleared.level hands hm hfirst hlast
          (hall _ listed) hfr
        exact ⟨g₂, applies.append (.replace owner replaced), edited⟩
      · exact ⟨g, .nil g, .refl g L _⟩
    · intro strict crowned g' ha ts hts
      obtain rfl := single ts hts
      obtain ⟨first, last, unit, opening, handed, g₁, done, rfl, hfirst, hlast, hands, -, applies, -,
        cleared⟩ := clear_run hs hl hm hr (Job.tolerate_strict strict hc)
      obtain ⟨g₁', applies₁, replaces⟩ := ha.of_append
      obtain rfl := applies.unique applies₁
      obtain ⟨new, replaced⟩ := Graph.Applies.of_replace replaces
      -- taking out fragments has left the way to the top
      obtain ⟨τ, hτ, -⟩ := cleared.opened.shifts
      obtain ⟨r, op, hrise, hop, hp⟩ := crowned.transport (hs.standing.parent_outside L rfl).1
        fun x op hx ho => ⟨_, hτ.outer x op hx ho, by simp⟩
      by_contra hno
      exact not_replace cleared cleared.level hands hm hfirst hlast (Bool.not_eq_true _ ▸ hno) hrise
        hop hp replaced

/-- The runs in an expression are single operators. -/
theorem Mirrors.areContiguous {scope : Scope} {c : Context} {t : Term} {T : HostTree}
    (h : Mirrors scope c t T) {ts : List Term} (hts : .compiled ts ∈ Region.ofTerm scope t) :
    Term.areContiguous scope ts = true := by
  -- an operator that is taken is the run, and the runs of another one are in its operands
  have taken : ∀ {a : Attributes} {o : Operator} {b : Bool} {us : List Term},
      .compiled ts ∈ Region.ofTerm scope (.op a o b us) →
      Term.areContiguous scope ts = true ∨ .compiled ts ∈ Region.ofTerms scope us := by
    intro a o b us hts
    rw [Region.ofTerm] at hts
    split at hts
    · next hc =>
      obtain rfl : ts = [.op a o b us] := by simpa using hts
      exact .inl (by simpa [Term.areContiguous, Term.isContiguous] using hc)
    · exact .inr (by simpa using hts)
  induction h with
  | constant => simp [Region.ofTerm] at hts
  | lexical => simp [Region.ofTerm] at hts
  | declaration => simp [Region.ofTerm] at hts
  | negation s _ ih =>
    rcases taken hts with h | h
    · exact h
    · exact ih (by simpa [Region.ofTerms] using h)
  | binary _ _ _ ihl ihr =>
    rcases taken hts with h | h
    · exact h
    · simp only [Region.ofTerms, List.append_nil, List.mem_append] at h
      exact h.elim ihl ihr
  | ternary _ _ _ iht ihy ihn =>
    rcases taken hts with h | h
    · exact h
    · simp only [Region.ofTerms, List.append_nil, List.mem_append] at h
      exact h.elim iht fun h => h.elim ihy ihn

/-- Of a statement that is left to the interpreter the edits can be judged, wherever it stands. -/
def TreeVerdict (job : Job) (i : Item) : Prop :=
  ∀ ⦃g : Graph⦄ ⦃L : OpId⦄ ⦃cont : Option OpId⦄ ⦃n n' : Nat⦄ ⦃edits : List Edit⦄,
    i.Mirrored job.scope → i.term.isCompilable job.scope = false →
    Site job.owner g (some L) cont [i.tree] → job.compileTerms [i.term] n = .ok edits n' →
    Verdict job g L [i.tree] (Region.ofTerm job.scope i.term) edits

/-- Of the statements of a list the edits can be judged, after a run that they may prolong. -/
def RowVerdict (job : Job) (rest : List Item) : Prop :=
  ∀ (run : List Item) ⦃g : Graph⦄ ⦃L : OpId⦄ ⦃cont : Option OpId⦄ ⦃n n' : Nat⦄ ⦃edits : List Edit⦄,
    AllMirrored job.scope (run ++ rest) → (∀ i ∈ run, i.term.isCompilable job.scope = true) →
    Site job.owner g (some L) cont (rows (run ++ rest)) → Lists g L (rows (run ++ rest)) →
    job.statementEdits (terms run) (terms rest) n = .ok edits n' →
    Verdict job g L (rows (run ++ rest))
      (Region.ofStatements job.scope (terms run) (terms rest)) edits

theorem treeVerdict_expr (job : Job) (s : Statement) : TreeVerdict job (expr s) := by
  intro g L cont n n' edits hm hr hs hc
  rw [term, Statement.term] at hr hc ⊢
  have refused : s.expr.isCompilable job.scope = false := by simpa [Term.isCompilable] using hr
  rw [Job.compileTerms_statement job refused] at hc
  rw [Region.ofTerm, if_neg (by simp [hr])]
  refine Verdict.interpreted ⟨fun _ => ?_, fun _ _ _ _ ts hts => hm.areContiguous hts⟩
  obtain ⟨g', T', applies, regraft, -, keep⟩ := Mirrors.regrafts hm (.inr refused) hs hc
  exact ⟨g', applies, .of_regraft regraft (keep refused)⟩

/-- A block that is left to the interpreter has the edits of its statements. -/
theorem treeVerdict_block {ks : List Item} (h : RowVerdict job ks) (w : Option Attributes)
    (m : Option OpId) (a : Attributes) (id : OpId) : TreeVerdict job (block w m a id ks) := by
  intro g L cont n n' edits hm hr hs hc
  have same : job.compileTerms [(block w m a id ks).term] = job.statementEdits [] (terms ks) := by
    cases w with
    | none => exact Job.compileTerms_sequence job a _
    | some b =>
      rw [term, Job.compileTerms_statement job (by simpa [term, Term.isCompilable] using hr)]
      exact Job.compileTerms_sequence job a _
  rw [same] at hc
  have mem : node id ⟨.statements, none, false⟩ (rows ks) ∈ [(block w m a id ks).tree] := by simp [tree]
  obtain ⟨⟨c, site⟩, lists⟩ := block_site hs mem rfl
  have inner := h [] hm (by simp) site lists hc
  have parent := (hs.standing.parent_outside L rfl).1
  obtain ⟨op, ho⟩ := hs.standing.exists_op? (x := id) (by simp [tree])
  have up : g.Up id L := ⟨op, ho, (seated_root hs.standing.seated.1 op (by simpa [tree] using ho)).1⟩
  rw [tree] at parent ⊢
  have verdict := inner.block parent up
  cases w with
  | none =>
    rw [term, Region.ofTerm]
    exact verdict.interpreted
  | some b =>
    rw [term, Region.ofTerm, if_neg (by simpa [term] using hr), Region.ofTerm]
    exact verdict.interpreted.interpreted

/-- A statement joins the run before it, or ends it. -/
theorem rowVerdict_cons {i : Item} (hi : TreeVerdict job i) (h : RowVerdict job rest) :
    RowVerdict job (i :: rest) := by
  intro run g L cont n n' edits hm hr hs hl hc
  cases hcomp : i.term.isCompilable job.scope with
  | true =>
    rw [terms, Job.statementEdits_compiled job hcomp] at hc
    rw [terms, Region.ofStatements, if_pos hcomp]
    have grown : ∀ j ∈ run ++ [i], j.term.isCompilable job.scope = true := fun j hj => by
      rcases List.mem_append.mp hj with hj | hj
      · exact hr j hj
      · rwa [List.mem_singleton.mp hj]
    have split : run ++ i :: rest = (run ++ [i]) ++ rest := by simp
    rw [split] at hm hs hl ⊢
    have key := h _ hm grown hs hl (by simpa [terms] using hc)
    simpa [terms] using key
  | false =>
    rw [terms, Job.statementEdits_interpreted job hcomp] at hc
    obtain ⟨edits₁, n₁, hc₁, hc⟩ := Effect.bind_eq_ok.mp hc
    obtain ⟨edits₂, n₂, hc₂, hc⟩ := Effect.bind_eq_ok.mp hc
    obtain ⟨edits₃, n₃, hc₃, hc⟩ := Effect.bind_eq_ok.mp hc
    cases hc
    obtain ⟨hmrun, hmi, hmrest⟩ := allMirrored_append.mp hm
    have outside := (hs.standing.parent_outside L rfl).1
    have split : rows (run ++ i :: rest) = rows run ++ (i.lead ++ ([i.tree] ++ rows rest)) := by
      simp [rows]
    have regions : Region.ofStatements job.scope (terms run) (terms (i :: rest)) =
        Region.close (terms run) ++ ([] ++ (Region.ofTerm job.scope i.term ++
          Region.ofStatements job.scope [] (terms rest))) := by
      rw [terms, Region.ofStatements, if_neg (by simp [hcomp])]
      simp
    rw [split] at hs hl outside ⊢
    rw [regions]
    -- the run before the statement is closed, and its marker is left alone
    obtain ⟨⟨_, front⟩, lists⟩ := front_site hs hl
    refine (verdict_run front lists hmrun hr hc₁).append outside fun g₁ edited₁ => ?_
    obtain ⟨site₁, lists₁⟩ := edited₁.site hs hl
    have outside₁ := (site₁.standing.parent_outside L rfl).1
    refine (Verdict.nil job g₁ L i.lead).append outside₁ fun g₂ edited₂ => ?_
    obtain ⟨site₂, lists₂⟩ := edited₂.site site₁ lists₁
    have outside₂ := (site₂.standing.parent_outside L rfl).1
    obtain ⟨⟨_, single⟩, -⟩ := front_site site₂ lists₂
    refine (hi hmi hcomp single hc₂).append outside₂ fun g₃ edited₃ => ?_
    obtain ⟨site₃, lists₃⟩ := edited₃.site site₂ lists₂
    exact h [] hmrest (by simp) site₃ lists₃ hc₃

/-- **The statements of a list are edited one after the other.** -/
theorem rowVerdict (job : Job) (rest : List Item) : RowVerdict job rest := by
  induction rest using Item.induction with
  | nil =>
    intro run g L cont n n' edits hm hr hs hl hc
    rw [terms, Job.statementEdits_nil] at hc
    rw [List.append_nil] at hm hs hl ⊢
    rw [terms, Region.ofStatements]
    exact verdict_run hs hl hm hr hc
  | expr s rest ih => exact rowVerdict_cons (treeVerdict_expr job s) ih
  | block w m a id ks rest ihk ih => exact rowVerdict_cons (treeVerdict_block ihk w m a id) ih

end Rows

/-- **The edits of a program of nested statements can be applied if, and only if, its runs are
contiguous**: the graph was assembled op by op and linked, the program was read from it, and
the compiler is strict.

The statements of the program are one row, and the verdict of a row is put together from those of
its runs.  If a run is not contiguous, its batch clears the row as it should, and then the range
that its unit is to replace is not found. -/
theorem Compiler.applyEdits_nested {c c' : Compiler} {scope : Scope} {owner : OwnerId}
    {g₀ g : Graph} {ts : List HostTree} {id entry : OpId} {a : Attributes} {items : List Item}
    {edits : List Edit} (hg : Assembled owner g₀ ts)
    (hT : node id ⟨.statements, none, false⟩ (Item.rows items) ∈ ts)
    (hm : Item.AllMirrored scope items) (hl : Graph.link id g₀ = .ok entry g)
    (hs : c.options.strict = true)
    (hc : c.compile scope owner [.sequence a (Item.terms items)] = (.ok edits, c')) :
    (∃ units g', Graph.applyEdits edits g = .ok units g') ↔
      ∀ run, .compiled run ∈ Region.ofTerms scope [.sequence a (Item.terms items)] →
        Term.areContiguous scope run = true := by
  obtain ⟨forest, rfl⟩ := hg.forest
  obtain ⟨loaded, howner⟩ := forest.loaded hT hl
  obtain ⟨n, hn⟩ := Compiler.compile_eq_ok hc
  rw [Job.compileTerms_sequence] at hn
  have site := loaded.site
  rw [howner] at site
  obtain ⟨⟨_, row⟩, lists⟩ := block_site site (List.mem_singleton_self _) rfl
  have verdict := rowVerdict ⟨scope, g₀.owner, c.options.strict⟩ items [] hm (by simp) row
    lists hn
  have runs : ∀ run, .compiled run ∈ Region.ofTerms scope [.sequence a (Item.terms items)] ↔
      .compiled run ∈ Region.ofStatements scope [] (Item.terms items) := fun run => by
    simp [Region.ofTerms, Region.ofTerm]
  -- the list of the program is at the top
  have crowned : Crowned g id (Item.rows items) := by
    obtain ⟨op, ho⟩ := site.standing.exists_op? (x := id) (by simp)
    exact ⟨id, op, .refl, ho, (seated_root site.standing.seated.1 op ho).1⟩
  constructor
  · rintro ⟨units, g', applied⟩ run hrun
    exact verdict.only hs crowned g' ⟨units, applied⟩ run ((runs run).mp hrun)
  · intro hall
    obtain ⟨g', ⟨units, applied⟩, -⟩ := verdict.applies fun run hrun => hall run ((runs run).mpr hrun)
    exact ⟨units, g', applied⟩

/-! ### Two statements, one of them in a block -/

/-- The ops of `x += k`: three, the first of them at `i`. -/
def bumpTree (i : Nat) (k : Int64) : HostTree :=
  node ⟨i + 2⟩ ⟨.arith (.float .add), none, true⟩ [node ⟨i⟩ ⟨.lexical ⟨0⟩ false, none, false⟩ [],
    node ⟨i + 1⟩ ⟨.const (.int k), none, false⟩ []]

/-- The statement `x += k` behind the marker `m`. -/
def bump (m i : Nat) (k : Int64) : Item :=
  .expr {
    attrs := ⟨none, .void, none⟩
    marker := ⟨m⟩
    expr := .op ⟨some ⟨⟨i + 2⟩, ⟨i⟩, none⟩, .void, none⟩ .add true
      [.leaf ⟨some ⟨⟨i⟩, ⟨i⟩, none⟩, .scalar, none⟩ (.lexical ⟨0⟩),
        .leaf ⟨some ⟨⟨i + 1⟩, ⟨i + 1⟩, none⟩, .scalar, none⟩ (.constant (.int k))]
    tree := bumpTree i k }

def bumpScope : Scope := ⟨#[⟨"x", ⟨0⟩, .any⟩]⟩

/-- The ops of a list with two statements, the first of them in a block. -/
def blockFirst : Graph where
  owner := ⟨1⟩
  ops := #[{ kind := .mark, parent := some ⟨4⟩ }, { kind := .lexical ⟨0⟩ false, parent := some ⟨3⟩ },
    { kind := .const (.int 1), parent := some ⟨3⟩ },
    { kind := .arith (.float .add), kids := [⟨1⟩, ⟨2⟩], parent := some ⟨4⟩, stacked := true },
    { kind := .statements, kids := [⟨0⟩, ⟨3⟩], parent := some ⟨9⟩ }, { kind := .mark, parent := some ⟨9⟩ },
    { kind := .lexical ⟨0⟩ false, parent := some ⟨8⟩ }, { kind := .const (.int 2), parent := some ⟨8⟩ },
    { kind := .arith (.float .add), kids := [⟨6⟩, ⟨7⟩], parent := some ⟨9⟩, stacked := true },
    { kind := .statements, kids := [⟨4⟩, ⟨5⟩, ⟨8⟩] }]

def blockFirstItems : List Item :=
  [.block none none ⟨none, .void, none⟩ ⟨4⟩ [bump 0 1 1], bump 5 6 2]

theorem blockFirst_assembled : Assembled ⟨1⟩ blockFirst
    [node ⟨9⟩ ⟨.statements, none, false⟩ (Item.rows blockFirstItems)] := by
  have leaf : ∀ {ts : List HostTree}, ts.Perm ([] ++ ts) := .refl _
  have pair : ∀ {t u : HostTree} {ts : List HostTree}, (t :: u :: ts).Perm ([u, t] ++ ts) :=
    .swap _ _ _
  have three : ∀ {t u v : HostTree}, [t, u, v].Perm ([v, u, t] ++ []) :=
    fun {t u v} => List.reverse_perm [v, u, t]
  have start : Assembled ⟨1⟩ _ _ := .empty
  have m := start.add ⟨.mark, none, false⟩ leaf (by decide)
  have x := m.add ⟨.lexical ⟨0⟩ false, none, false⟩ leaf (by decide)
  have one := x.add ⟨.const (.int 1), none, false⟩ leaf (by decide)
  have first := one.add ⟨.arith (.float .add), none, true⟩ pair (by decide)
  have block := first.add ⟨.statements, none, false⟩ pair (by decide)
  have m' := block.add ⟨.mark, none, false⟩ leaf (by decide)
  have x' := m'.add ⟨.lexical ⟨0⟩ false, none, false⟩ leaf (by decide)
  have two := x'.add ⟨.const (.int 2), none, false⟩ leaf (by decide)
  have second := two.add ⟨.arith (.float .add), none, true⟩ pair (by decide)
  exact second.add ⟨.statements, none, false⟩ three (by decide)

theorem bump_mirrored (m i : Nat) (k : Int64) : (bump m i k).Mirrored bumpScope := by
  have x : Mirrors bumpScope .scalar
      (.leaf ⟨some ⟨⟨i⟩, ⟨i⟩, none⟩, .scalar, none⟩ (.lexical ⟨0⟩))
      (node ⟨i⟩ ⟨.lexical ⟨0⟩ false, none, false⟩ []) := .lexical (v := ⟨"x", ⟨0⟩, .any⟩) rfl
  have n : Mirrors bumpScope .scalar
      (.leaf ⟨some ⟨⟨i + 1⟩, ⟨i + 1⟩, none⟩, .scalar, none⟩ (.constant (.int k)))
      (node ⟨i + 1⟩ ⟨.const (.int k), none, false⟩ []) := .constant (.int k)
  exact Mirrors.binary (.assigning rfl) x n

/-- One unit takes both statements, the block among them, and the graph takes its edit. -/
theorem Compiler.applyEdits_blockFirst : ∃ entry g edits c',
    Graph.link ⟨9⟩ blockFirst = .ok entry g ∧
    ({} : Compiler).compile bumpScope ⟨1⟩ [.sequence ⟨none, .void, none⟩ (Item.terms blockFirstItems)] =
      (.ok edits, c') ∧ edits ≠ [] ∧ ∃ units g', Graph.applyEdits edits g = .ok units g' := by
  obtain ⟨entry, g, hl⟩ : ∃ entry g, Graph.link ⟨9⟩ blockFirst = .ok entry g := ⟨_, _, rfl⟩
  have compilable : ∀ t ∈ Item.terms blockFirstItems, t.isCompilable bumpScope = true := by decide
  obtain ⟨c', hc⟩ := Compiler.compile_statements {} ⟨1⟩ ⟨none, .void, none⟩ compilable rfl rfl rfl
  refine ⟨entry, g, _, c', hl, hc, List.cons_ne_nil _ _, ?_⟩
  have hm : Item.AllMirrored bumpScope blockFirstItems :=
    ⟨⟨bump_mirrored 0 1 1, trivial⟩, bump_mirrored 5 6 2, trivial⟩
  refine (applyEdits_nested blockFirst_assembled (List.mem_singleton_self _) hm hl rfl hc).mpr ?_
  intro run hrun
  have h : Region.ofTerms bumpScope [.sequence ⟨none, .void, none⟩ (Item.terms blockFirstItems)] =
    [.interpreted (.sequence ⟨none, .void, none⟩ (Item.terms blockFirstItems)),
      .compiled (Item.terms blockFirstItems)] := rfl
  obtain rfl : run = Item.terms blockFirstItems := by simpa [h] using hrun
  rfl

/-- The ops of a list with two statements, the second of them in a block. -/
def blockLast : Graph where
  owner := ⟨1⟩
  ops := #[{ kind := .mark, parent := some ⟨9⟩ }, { kind := .lexical ⟨0⟩ false, parent := some ⟨3⟩ },
    { kind := .const (.int 1), parent := some ⟨3⟩ },
    { kind := .arith (.float .add), kids := [⟨1⟩, ⟨2⟩], parent := some ⟨9⟩, stacked := true },
    { kind := .mark, parent := some ⟨8⟩ }, { kind := .lexical ⟨0⟩ false, parent := some ⟨7⟩ },
    { kind := .const (.int 2), parent := some ⟨7⟩ },
    { kind := .arith (.float .add), kids := [⟨5⟩, ⟨6⟩], parent := some ⟨8⟩, stacked := true },
    { kind := .statements, kids := [⟨4⟩, ⟨7⟩], parent := some ⟨9⟩ },
    { kind := .statements, kids := [⟨0⟩, ⟨3⟩, ⟨8⟩] }]

/-- With the block last the unit's range ends on the last op inside it, and the graph takes that
for no range of siblings. -/
theorem Compiler.applyEdits_blockLast : ∃ entry g edits c' g',
    Graph.link ⟨9⟩ blockLast = .ok entry g ∧
    ({} : Compiler).compile bumpScope ⟨1⟩ [.sequence ⟨none, .void, none⟩ (Item.terms
      [bump 0 1 1, .block none none ⟨none, .void, none⟩ ⟨8⟩ [bump 4 5 2]])] = (.ok edits, c') ∧
    Graph.applyEdits edits g = .error (.notContiguous ⟨1⟩ ⟨7⟩) g' := by
  have compilable : ∀ t ∈ Item.terms [bump 0 1 1, .block none none ⟨none, .void, none⟩ ⟨8⟩
      [bump 4 5 2]], t.isCompilable bumpScope = true := by decide
  obtain ⟨c', hc⟩ := Compiler.compile_statements {} ⟨1⟩ ⟨none, .void, none⟩ compilable rfl rfl rfl
  exact ⟨_, _, _, c', _, rfl, hc, rfl⟩

end Graft
