import Graft.Proofs.Assembly
import Graft.Proofs.Grafting

/-! # Rows of statements

The statements of a program are compiled in runs.  A run takes the ops from the first of its
first expression to the last of its last, with the markers between; the marker before the run
stays, and behind it there is one unit (`GraftsRow`).  Statements that the compiler leaves alone
are treated as expressions of their own.

The compiler collects a run statement by statement and closes it at the first one that it does not
take.  The induction follows that: the list has kids that are finished, and after them the run that
is open and the rest, as they were read (`Pending`).  What edits make of some statements leaves the
list pending for those after them (`Pending.next`), and so statements are edited one after the other
(`RowEdited.append`).  Closing a run is the work of `Site.close`, with a row of expressions and
markers for its trees; the first op of the run is then that of its first expression, and the marker
before it is outside.

Only a list of statements at the top of a program is compiled in this way.  With the expressions of
`Grafting` that makes up all programs that are read from ops (`MirrorsProgram.regraft`).
-/

namespace Graft

open HostTree

namespace LowersAll

variable {scope : Scope} {ss : List Statement} {u u' : Usage} {code : List Instr}
  {hs : List (Term × HostTree)}

/-- What is handed over was read from ops, and there is no code for it. -/
theorem handed_mirrors (h : LowersAll scope ss u code hs u') :
    ∀ p ∈ hs, Mirrors scope .scalar p.1 p.2 ∧ p.1.isCompilable scope = false := by
  induction h with
  | nil => simp
  | cons hl _ ih => exact fun p hp => (List.mem_append.mp hp).elim (hl.handed_mirrors p) (ih p)

/-- **What is handed over are the trees met going down from the roots of the expressions.** -/
theorem carves (h : LowersAll scope ss u code hs u') :
    Carves (ss.flatMap Statement.row) (hs.map Prod.snd) := by
  induction h with
  | nil => exact .nil
  | @cons s _ _ _ _ _ _ _ _ _ hl _ ih =>
    rw [List.flatMap_cons, List.map_append]
    have marker : Carves [s.mark] ([] ++ []) := .stem .nil .nil
    exact marker.append (hl.carves.1.append ih)

/-- No marker and no root of an expression is handed over. -/
theorem top (h : LowersAll scope ss u code hs u')
    (hc : ∀ s ∈ ss, s.expr.isCompilable scope = true)
    (hn : (idsAll (ss.flatMap Statement.row)).Nodup) :
    ∀ t ∈ ss.flatMap Statement.row, t.root ∉ idsAll (hs.map Prod.snd) := by
  induction h with
  | nil => simp
  | @cons s ss _ _ _ _ _ hs hs' _ hl hrest ih =>
    have mine := (hl.carves.2 (hc s (by simp))).sublist
    have others := hrest.carves.sublist
    have kids : idsAll s.tree.kids ⊆ s.tree.ids := fun x hx => by
      cases htree : s.tree with
      | node id f ks =>
        rw [htree] at hx
        simpa using .inr hx
    simp only [List.flatMap_cons, Statement.row, List.cons_append, List.nil_append, idsAll_cons,
      Statement.mark, ids_node, idsAll_nil, List.nodup_cons, List.nodup_append, List.mem_append,
      not_or] at hn
    obtain ⟨⟨markTree, markRest⟩, treeNodup, restNodup, apart⟩ := hn
    intro t ht
    rw [List.map_append, idsAll_append, List.mem_append, not_or]
    simp only [List.flatMap_cons, Statement.row, List.cons_append, List.nil_append,
      List.mem_cons] at ht
    rcases ht with rfl | rfl | ht
    · exact ⟨fun hx => markTree (kids (mine.subset hx)), fun hx => markRest (others.subset hx)⟩
    · refine ⟨fun hx => ?_, fun hx => apart _ (root_mem_ids _) _ (others.subset hx) rfl⟩
      have below := mine.subset hx
      cases htree : s.tree with
      | node id f ks =>
        rw [htree] at below treeNodup
        exact (nodup_kids treeNodup).1 below
    · refine ⟨fun hx => ?_, ih (fun s hs => hc s (by simp [hs])) restNodup t ht⟩
      exact apart _ (kids (mine.subset hx)) _ (mem_idsAll.mpr ⟨t, ht, root_mem_ids t⟩) rfl

end LowersAll

/-- **What compiling has made of a row of statements**, where the runs that have units are in `U`. -/
inductive GraftsRow (scope : Scope) (U : List Term → Prop) :
    List Statement → List HostTree → Prop where
  | nil : GraftsRow scope U [] []
  /-- The statement was left to the interpreter, or its run was refused. -/
  | kept {s : Statement} {ss : List Statement} {T' : HostTree} {row : List HostTree} :
      GraftsAll scope U [s.expr] [s.tree] [T'] → GraftsRow scope U ss row →
      GraftsRow scope U (s :: ss) (s.mark :: T' :: row)
  /-- A run has become a unit. -/
  | run {s : Statement} {run ss : List Statement} {code : List Instr} {hs : List (Term × HostTree)}
      {u : Usage} {name : String} {new : OpId} {fs' row : List HostTree} :
      U ((s :: run).map Statement.term) → (∀ x ∈ s :: run, x.expr.isCompilable scope = true) →
      LowersAll scope (s :: run) ⟨0, 0⟩ code hs u →
      GraftsAll scope U (hs.map Prod.fst) (hs.map Prod.snd) fs' →
      fs'.map root = (hs.map Prod.snd).map root → GraftsRow scope U ss row →
      GraftsRow scope U (s :: run ++ ss)
        (s.mark :: node new ⟨.native ⟨name, code, fs'.map root⟩, none, false⟩ fs' :: row)

namespace GraftsRow

variable {scope : Scope} {U U' : List Term → Prop}

theorem refl (scope : Scope) (U : List Term → Prop) (ss : List Statement) :
    GraftsRow scope U ss (ss.flatMap Statement.row) := by
  induction ss with
  | nil => exact .nil
  | cons s ss ih => exact .kept (.same .nil) ih

theorem append {ss ss' : List Statement} {row row' : List HostTree} (h : GraftsRow scope U ss row)
    (h' : GraftsRow scope U ss' row') : GraftsRow scope U (ss ++ ss') (row ++ row') := by
  induction h with
  | nil => exact h'
  | kept hg _ ih => exact .kept hg ih
  | run hu hc hl hg hr _ ih =>
    rw [List.append_assoc]
    exact .run hu hc hl hg hr ih

theorem mono (hU : ∀ run, U run → U' run) {ss : List Statement} {row : List HostTree}
    (h : GraftsRow scope U ss row) : GraftsRow scope U' ss row := by
  induction h with
  | nil => exact .nil
  | kept hg _ ih => exact .kept (hg.mono hU) ih
  | run hu hc hl hg hr _ ih => exact .run (hU _ hu) hc hl (hg.mono hU) hr ih

end GraftsRow

section Rows

variable {job : Job} {roots : List Term} {g g' : Graph} {p cont : Option OpId} {n n' : Nat}
  {edits : List Edit} {id : OpId} {f : Face} {as ks bs : List HostTree}

/-- **A list of which the kids `as` are finished**, and those after them are as they were read. -/
structure Pending (owner : OwnerId) (g : Graph) (p cont : Option OpId) (id : OpId) (f : Face)
    (as ks : List HostTree) : Prop where
  listed : f.kind.shape = .listed
  standing : Standing g p cont [node id f (as ++ ks)]
  own : ∀ x ∈ idsAll ks, g.Stands x x
  ordered : g.Ordered
  owner : g.owner = owner

/-- **The edits have made `row` of the statements `ss`** of the list, which come after `as` and
before `bs`. -/
structure RowEdited (job : Job) (roots : List Term) (edits : List Edit) (g g' : Graph)
    (p : Option OpId) (id : OpId) (f : Face) (as : List HostTree) (ss : List Statement)
    (row bs : List HostTree) : Prop where
  applies : Graph.Applies edits g g'
  regraft : Regraft g g' p [node id f (as ++ (ss.flatMap Statement.row ++ bs))]
    [node id f (as ++ (row ++ bs))]
  grafts : GraftsRow job.scope (job.Installs roots edits) ss row
  after : ∀ x ∈ idsAll bs, g'.Stands x x

namespace Pending

/-- A part of a row is at a place of its own. -/
theorem site (h : Pending job.owner g p cont id f as (ks ++ bs)) :
    ∃ c, Site job.owner g (some id) c ks := by
  have hs : Standing g p cont [node id f (as ++ ks ++ bs)] := by simpa using h.standing
  obtain ⟨⟨op, hop, -, hkids⟩, -⟩ := reads_node.mp hs.linked.1.reads
  have nodup := hs.kids_nodup (x := id) (by simp) hop
  refine ⟨_, (hs.row (.inr h.listed)).2.1, ⟨op, as.map root, bs.map root, hop, nodup, ?_⟩,
    fun x hx => h.own x (by simp [hx]), h.ordered, h.owner⟩
  simpa using hkids

/-- The first of the trees that are left may be finished as it is. -/
theorem skip {k : HostTree} (h : Pending job.owner g p cont id f as (k :: ks)) :
    Pending job.owner g p cont id f (as ++ [k]) ks where
  listed := h.listed
  standing := by simpa using h.standing
  own x hx := h.own x (by simp [hx])
  ordered := h.ordered
  owner := h.owner

/-- Nothing is made of statements without edits. -/
theorem same {ss : List Statement}
    (h : Pending job.owner g p cont id f as (ss.flatMap Statement.row ++ bs)) :
    RowEdited job roots [] g g p id f as ss (ss.flatMap Statement.row) bs where
  applies := .nil g
  regraft := h.standing.regraft_refl
  grafts := .refl _ _ _
  after x hx := h.own x (by simp [hx])

/-- What comes after statements that have been edited is still as it was read. -/
theorem next {ss : List Statement} {row : List HostTree}
    (h : Pending job.owner g p cont id f as (ss.flatMap Statement.row ++ bs))
    (e : RowEdited job roots edits g g' p id f as ss row bs) :
    Pending job.owner g' p cont id f (as ++ row) bs where
  listed := h.listed
  standing := by simpa using e.regraft.standing cont h.standing
  own := e.after
  ordered := e.regraft.ordered h.ordered
  owner := e.regraft.owner.trans h.owner

end Pending

/-- **Statements are edited one after the other.** -/
theorem RowEdited.append {edits' : List Edit} {g₁ g₂ : Graph} {ss ss' : List Statement}
    {row row' : List HostTree}
    (h : Pending job.owner g p cont id f as (ss.flatMap Statement.row ++
      (ss'.flatMap Statement.row ++ bs)))
    (e : RowEdited job roots edits g g₁ p id f as ss row (ss'.flatMap Statement.row ++ bs))
    (e' : RowEdited job roots edits' g₁ g₂ p id f (as ++ row) ss' row' bs) :
    RowEdited job roots (edits ++ edits') g g₂ p id f as (ss ++ ss') (row ++ row') bs where
  applies := e.applies.append e'.applies
  regraft := by
    have later : Regraft g₁ g₂ p [node id f (as ++ (row ++ (ss'.flatMap Statement.row ++ bs)))]
        [node id f (as ++ (row ++ (row' ++ bs)))] := by simpa using e'.regraft
    simpa using e.regraft.trans later rfl fun q hq => (h.standing.parent_outside q hq).1
  grafts := by
    have attempts : ∀ r, job.Attempts roots r → job.Attempts roots r := fun _ h => h
    exact (e.grafts.mono fun r => .mono attempts (List.subset_append_left _ _)).append
      (e'.grafts.mono fun r => .mono attempts (List.subset_append_right _ _))
  after := e'.after

/-- The first and the last op of a run. -/
theorem span_statements {s l : Statement} {run : List Statement}
    (hm : ∀ s' ∈ s :: run, Mirrors job.scope .void s'.expr s'.tree)
    (hl : (s :: run).getLast? = some l) :
    Job.span ((s :: run).map Statement.term) = .ok (s.tree.start, l.tree.root) ∧
      (s.tree :: run.flatMap Statement.row).getLast? = some l.tree := by
  have first : s.term.spanFirst = some s.tree.start := by
    rw [Statement.term, Term.spanFirst]
    exact (hm s (by simp)).spanFirst
  have last : l.term.spanLast = some l.tree.root := by
    rw [Statement.term, Term.spanLast]
    exact (hm l (List.mem_of_getLast? hl)).spanLast
  constructor
  · have final : ((s :: run).map Statement.term).getLast? = some l.term := by
      rw [List.getLast?_map, hl]
      rfl
    rw [Job.span, final, List.map_cons, List.head?_cons]
    simp only [first, last]
  · obtain ⟨init, hinit⟩ := List.getLast?_eq_some_iff.mp hl
    cases init with
    | nil =>
      obtain ⟨rfl, rfl⟩ := List.cons.inj hinit
      rfl
    | cons s' init =>
      obtain ⟨rfl, hrun⟩ := List.cons.inj hinit
      obtain rfl : run = init ++ [l] := hrun
      rw [List.flatMap_append]
      exact List.getLast?_eq_some_iff.mpr
        ⟨s.tree :: (init.flatMap Statement.row ++ [l.mark]), by simp [Statement.row]⟩

/-- No unit is among the ops of statements as they were read. -/
theorem statements_unitless {ss : List Statement} {t : HostTree}
    (hm : ∀ s ∈ ss, Mirrors job.scope .void s.expr s.tree) (ht : t ∈ ss.flatMap Statement.row) :
    ∀ x ∈ t.subtrees, x.shape ≠ .unit := by
  obtain ⟨s, hs, ht⟩ := List.mem_flatMap.mp ht
  simp only [Statement.row, List.mem_cons, List.not_mem_nil, or_false] at ht
  rcases ht with rfl | rfl
  · simp [Statement.mark, subtrees, subtreesAll, HostTree.shape, OpKind.shape]
  · exact fun x hx => ((hm s hs).shape x hx).1

/-- **The batch of a run of statements puts a unit behind the marker of the run.** -/
theorem edited_batch {s : Statement} {run : List Statement}
    (hm : ∀ s' ∈ s :: run,
      Mirrors job.scope .void s'.expr s'.tree ∧ s'.expr.isCompilable job.scope = true)
    (h : Pending job.owner g p cont id f as ((s :: run).flatMap Statement.row ++ bs))
    (hroots : .compiled ((s :: run).map Statement.term) ∈ Region.ofTerms job.scope roots)
    (hc : job.runEdits ((s :: run).map Statement.term) n = .ok edits n') :
    ∃ g' row, RowEdited job roots edits g g' p id f as (s :: run) row bs := by
  obtain ⟨first, last, parts, code, hspan, hparts, hcode, hedits⟩ := Job.runEdits_eq_ok.mp hc
  obtain ⟨l, hl⟩ : ∃ l, (s :: run).getLast? = some l :=
    ⟨_, List.getLast?_eq_some_getLast (List.cons_ne_nil s run)⟩
  obtain ⟨span, final⟩ := span_statements (fun s' hs' => (hm s' hs').1) hl
  obtain ⟨rfl, rfl⟩ := Prod.mk.inj (Except.ok.inj (hspan.symm.trans span))
  obtain ⟨hs', u, lowers, hhand⟩ := Lowering.codeOf_statements hm hcode
  rw [hhand] at hparts
  -- the marker before the run stays, the rest of its row is replaced
  have marked : Pending job.owner g p cont id f (as ++ [s.mark])
      ((s.tree :: run.flatMap Statement.row) ++ bs) := h.skip
  obtain ⟨c, site⟩ := marked.site
  obtain ⟨mirrors, compilable⟩ := hm l (List.mem_of_getLast? hl)
  have carves : Carves (s.tree :: run.flatMap Statement.row) (hs'.map Prod.snd) := by
    cases lowers with
    | cons hl hrest =>
      rw [List.map_append]
      exact hl.carves.1.append hrest.carves
  have sub : ∀ t ∈ s.tree :: run.flatMap Statement.row, t ∈ (s :: run).flatMap Statement.row :=
    fun t ht => List.mem_cons_of_mem s.mark ht
  obtain ⟨_, whole⟩ := h.site
  have top : ∀ t ∈ s.tree :: run.flatMap Statement.row, t.root ∉ idsAll (hs'.map Prod.snd) :=
    fun t ht => lowers.top (fun s' hs' => (hm s' hs').2) whole.standing.nodup t (sub t ht)
  have unitless : ∀ x ∈ subtreesAll (s.tree :: run.flatMap Statement.row), x.shape ≠ .unit := by
    intro x hx
    obtain ⟨t, ht, hx⟩ := mem_subtreesAll.mp hx
    exact statements_unitless (fun s' hs' => (hm s' hs').1) (sub t ht) x hx
  have handed : ∀ q ∈ hs', Mirrors job.scope .scalar q.1 q.2 ∧
      q.1.isCompilable job.scope = false ∧ Regrafts job q.1 q.2 := fun q hq =>
    have := lowers.handed_mirrors q hq
    ⟨this.1, this.2, this.1.regrafts (.inl rfl)⟩
  obtain ⟨g', new, fs', applies, regraft, grafts, hfragments⟩ := site.close carves top unitless rfl
    final (mirrors.plain compilable) handed hparts
  have standing : Standing g p cont [node id f ((as ++ [s.mark]) ++
      (s.tree :: run.flatMap Statement.row) ++ bs)] := by simpa using marked.standing
  have installs : job.Installs roots edits ((s :: run).map Statement.term) :=
    ⟨.region hroots, n, n', _, _, hedits ▸ hc, by simp [hedits]⟩
  have below : ∀ r, (∃ q ∈ hs', job.Installs q.1.kids (parts.flatMap Prod.snd) r) →
      job.Installs roots edits r := fun r =>
    .of_handed (.region hroots) hhand (hedits ▸ List.subset_append_left _ _)
  have row : GraftsRow job.scope (job.Installs roots edits) (s :: run ++ []) [s.mark,
      node new ⟨.native ⟨Job.unitName n, code, fs'.map root⟩, none, false⟩ fs'] :=
    .run installs (fun x hx => (hm x hx).2) lowers (grafts.mono below) hfragments .nil
  rw [List.append_nil] at row
  refine ⟨g', _, hedits ▸ applies, ?_, row, fun x hx => ?_⟩
  · simpa [Statement.row] using regraft.below_row standing (.inr h.listed)
  · exact regraft.stands x x (standing.outside_segment.2.2 x hx).1 (h.own x (by simp [hx]))

/-- **A run of statements becomes a unit behind its marker**, or stays as it was. -/
theorem edited_run {run : List Statement}
    (hm : ∀ s ∈ run, Mirrors job.scope .void s.expr s.tree ∧ s.expr.isCompilable job.scope = true)
    (h : Pending job.owner g p cont id f as (run.flatMap Statement.row ++ bs))
    (hroots : ∀ r, .compiled r ∈ Region.close (run.map Statement.term) →
      .compiled r ∈ Region.ofTerms job.scope roots)
    (hc : job.closingEdits (run.map Statement.term) n = .ok edits n') :
    ∃ g' row, RowEdited job roots edits g g' p id f as run row bs := by
  cases run with
  | nil =>
    rw [List.map_nil, Job.closingEdits_nil] at hc
    cases hc
    exact ⟨g, _, h.same⟩
  | cons s run =>
    rw [List.map_cons, Job.closingEdits_cons] at hc
    rcases Job.tolerate_eq_ok hc with hc | rfl
    · exact edited_batch hm h (hroots _ (by simp [Region.close])) hc
    · exact ⟨g, _, h.same⟩

/-- **A statement that is not taken** is an expression of its own, behind its marker. -/
theorem edited_statement {s : Statement} (hm : Mirrors job.scope .void s.expr s.tree)
    (hcomp : s.expr.isCompilable job.scope = false)
    (h : Pending job.owner g p cont id f as ([s].flatMap Statement.row ++ bs))
    (hroots : ∀ r, .compiled r ∈ Region.ofTerm job.scope s.term →
      .compiled r ∈ Region.ofTerms job.scope roots)
    (hc : job.compileTerms [s.term] n = .ok edits n') :
    ∃ g' row, RowEdited job roots edits g g' p id f as [s] row bs := by
  have marked : Pending job.owner g p cont id f (as ++ [s.mark]) (s.tree :: bs) := h.skip
  obtain ⟨c, site⟩ := kid_site marked.standing marked.own marked.ordered marked.owner
  rw [Statement.term, Job.compileTerms_statement job hcomp] at hc
  obtain ⟨g', T', applies, regraft, grafts, -⟩ := hm.regrafts (.inr hcomp) site hc
  obtain ⟨whole, -, after⟩ := next_site marked.standing marked.own regraft (by simp [h.listed])
  have attempts : ∀ r, job.Attempts [s.expr] r → job.Attempts roots r := fun r =>
    .mono fun r mem => hroots r (by
      rw [Region.ofTerms, Region.ofTerms, List.append_nil] at mem
      rw [Statement.term, Region.ofTerm, if_neg (by simpa [Term.isCompilable] using hcomp)]
      exact List.mem_cons_of_mem _ mem)
  refine ⟨g', [s.mark, T'], applies, by simpa [Statement.row] using whole, ?_, after⟩
  exact .kept (grafts.mono fun r => .mono attempts (List.Subset.refl _)) .nil

/-- **The statements of a row are compiled one after the other**, those of `run` and `rest`
after `as`. -/
theorem edited_row {run rest : List Statement}
    (hm : ∀ s ∈ run ++ rest, Mirrors job.scope .void s.expr s.tree)
    (hr : ∀ s ∈ run, s.expr.isCompilable job.scope = true)
    (h : Pending job.owner g p cont id f as (run.flatMap Statement.row ++
      (rest.flatMap Statement.row ++ [])))
    (hroots : ∀ r, .compiled r ∈ Region.ofStatements job.scope (run.map Statement.term)
      (rest.map Statement.term) → .compiled r ∈ Region.ofTerms job.scope roots)
    (hc : job.statementEdits (run.map Statement.term) (rest.map Statement.term) n = .ok edits n') :
    ∃ g' row, RowEdited job roots edits g g' p id f as (run ++ rest) row [] := by
  induction rest generalizing run g as n edits with
  | nil =>
    rw [List.map_nil, Job.statementEdits_nil] at hc
    rw [List.append_nil] at hm ⊢
    exact edited_run (fun s hs => ⟨hm s hs, hr s hs⟩) h (by simpa [Region.ofStatements] using hroots) hc
  | cons s rest ih =>
    cases hcomp : s.expr.isCompilable job.scope with
    | true =>
      -- the statement goes into the run
      have compilable : s.term.isCompilable job.scope = true := by
        rw [Statement.term, Term.isCompilable, hcomp]
      rw [List.map_cons, Job.statementEdits_compiled job compilable] at hc
      have grown : ∀ s' ∈ run ++ [s], s'.expr.isCompilable job.scope = true := fun s' hs' =>
        (List.mem_append.mp hs').elim (hr s') fun he => by
          obtain rfl := List.mem_singleton.mp he
          exact hcomp
      have key := ih (by simpa using hm) grown (by simpa using h)
        (by simpa [Region.ofStatements, compilable] using hroots) (by simpa using hc)
      simpa using key
    | false =>
      have refused : s.term.isCompilable job.scope = false := by
        rw [Statement.term, Term.isCompilable, hcomp]
      rw [List.map_cons, Job.statementEdits_interpreted job refused] at hc
      rw [List.map_cons, Region.ofStatements, if_neg (by simp [refused])] at hroots
      simp only [List.mem_append] at hroots
      obtain ⟨edits₁, n₁, hc₁, hc⟩ := Effect.bind_eq_ok.mp hc
      obtain ⟨edits₂, n₂, hc₂, hc⟩ := Effect.bind_eq_ok.mp hc
      obtain ⟨edits₃, n₃, hc₃, hc⟩ := Effect.bind_eq_ok.mp hc
      cases hc
      -- the run is closed, then comes the statement, and then what is after it
      obtain ⟨g₁, row₁, closed⟩ := edited_run (fun s' hs' => ⟨hm s' (by simp [hs']), hr s' hs'⟩) h
        (fun r mem => hroots r (.inl (.inl mem))) hc₁
      have pending₁ : Pending job.owner g₁ p cont id f (as ++ row₁) ([s].flatMap Statement.row ++
          (rest.flatMap Statement.row ++ [])) := h.next closed
      obtain ⟨g₂, row₂, kept⟩ := edited_statement (hm s (by simp)) hcomp pending₁
        (fun r mem => hroots r (.inl (.inr mem))) hc₂
      have pending₂ : Pending job.owner g₂ p cont id f (as ++ row₁ ++ row₂)
          (([] : List Statement).flatMap Statement.row ++ (rest.flatMap Statement.row ++ [])) :=
        pending₁.next kept
      obtain ⟨g₃, row₃, later⟩ := ih (fun s' hs' => hm s' (by simp at hs'; simp [hs'])) (by simp)
        pending₂ (fun r mem => hroots r (.inr mem)) hc₃
      exact ⟨g₃, _, closed.append h (kept.append pending₁ later)⟩

end Rows

/-! ### Programs -/

/-- **What compiling has made of a program**, where the runs that have units are in `U`. -/
inductive GraftsProgram (scope : Scope) (U : List Term → Prop) : Term → HostTree → HostTree → Prop where
  | expression {t : Term} {T T' : HostTree} : Mirrors scope .scalar t T →
      GraftsAll scope U [t] [T] [T'] → GraftsProgram scope U t T T'
  | statements {a : Attributes} {id : OpId} {ss : List Statement} {row : List HostTree} : ss ≠ [] →
      (∀ s ∈ ss, Mirrors scope .void s.expr s.tree) → GraftsRow scope U ss row →
      GraftsProgram scope U (statementTerm a id ss) (statementTree id ss)
        (node id ⟨.statements, none, false⟩ row)

/-- A program that has been loaded is as it was read. -/
theorem Loaded.site {g : Graph} {T : HostTree} (h : Loaded g T) :
    Site g.owner g none none [T] where
  standing := h.standing
  placed := ⟨T, rfl⟩
  own x hx := by
    obtain ⟨op, ho⟩ := h.standing.exists_op? hx
    exact .refl ho (h.plain x op ho).1
  ordered x y hxy := by
    obtain ⟨op, ho, hheir⟩ := hxy
    rw [(h.plain x op ho).1] at hheir
    cases hheir
  owner := rfl

/-- **The edits of a program can be applied to the graph that it was read from.** -/
theorem MirrorsProgram.regraft {job : Job} {program : Term} {T : HostTree} {g : Graph}
    {n n' : Nat} {edits : List Edit} (hp : MirrorsProgram job.scope program T) (h : Loaded g T)
    (howner : g.owner = job.owner) (hc : job.compileTerms [program] n = .ok edits n') :
    ∃ g' T', Graph.Applies edits g g' ∧ Regraft g g' none [T] [T'] ∧
      GraftsProgram job.scope (job.Installs [program] edits) program T T' := by
  have site := h.site
  rw [howner] at site
  cases hp with
  | expression hm =>
    obtain ⟨g', T', applies, regraft, grafts, -⟩ := hm.regrafts (.inl rfl) site hc
    exact ⟨g', T', applies, regraft, .expression hm grafts⟩
  | @statements a id ss hne hm =>
    rw [statementTerm, Job.compileTerms_sequence] at hc
    have pending : Pending job.owner g none none id ⟨.statements, none, false⟩ []
        (([] : List Statement).flatMap Statement.row ++ (ss.flatMap Statement.row ++ [])) := {
      listed := rfl
      standing := by simpa [statementTree] using site.standing
      own := fun x hx => site.own x (by simpa [statementTree] using .inr (by simpa using hx))
      ordered := site.ordered
      owner := site.owner }
    have region : ∀ r, .compiled r ∈ Region.ofStatements job.scope [] (ss.map Statement.term) →
        .compiled r ∈ Region.ofTerms job.scope [statementTerm a id ss] := by
      intro r mem
      simpa [statementTerm, Region.ofTerms, Region.ofTerm] using mem
    obtain ⟨g', row, edited⟩ := edited_row hm (by simp) pending region hc
    exact ⟨g', _, edited.applies, by simpa [statementTree] using edited.regraft,
      .statements hne hm edited.grafts⟩

end Graft
