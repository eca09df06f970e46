import Graft.Proofs.Mirror

/-! # Compiling, taken apart

What the edits of a compilation are made of.  Terms are compiled one after the other
(`Job.compileTerms_cons`); a leaf has no edits, an op that is left to the interpreter has those
of its operands, and an op that is taken has the batch of its run or, if the run was refused and
the job is lenient, none (`Job.tolerate_eq_ok`).

These are equations between computations, and so they hold with the numbers of units that are used
up on the way and also where a compilation fails.  The compiler itself recurs from a run to what is
below the terms that it hands over, and the equations hide that recursion from all that follows:
`Job.runEdits_eq` is the batch of a run in the order in which it is made, and `Job.below_handover`
is what an induction on the size of the terms needs.

A compilation attempts the runs of its regions, and for every term that such a run hands over it
attempts those below the term (`Job.Attempts`).  In a lenient job some of them are refused; the
others have a unit among the edits (`Job.Installs`), and there is no unit among the edits but theirs
(`Job.attempt_of_unit`).

Edits are applied one after the other too (`Graph.Applies.append`).
-/

namespace Graft

theorem mapM_attach {m : Type → Type} [Monad m] [LawfulMonad m] {α β : Type} (l : List α)
    (f : α → m β) : l.attach.mapM (fun a => f a.1) = l.mapM f := by
  rw [List.mapM_subtype (g := f) (by simp), List.unattach_attach]

theorem mapM_congr {m : Type → Type} [Monad m] [LawfulMonad m] {α β : Type} {l : List α}
    {f f' : α → m β} (h : ∀ a ∈ l, f' a = f a) : l.mapM f' = l.mapM f := by
  induction l with
  | nil => rfl
  | cons a l ih =>
    obtain ⟨ha, hl⟩ := List.forall_mem_cons.mp h
    rw [List.mapM_cons, List.mapM_cons, ha, ih hl]

/-- What comes of a list of steps comes of one of them. -/
theorem exists_of_mapM_eq_ok {σ ε α β : Type} {l : List α} {f : α → EStateM ε σ β} {s s' : σ}
    {bs : List β} (h : l.mapM f s = .ok bs s') {b : β} (hb : b ∈ bs) :
    ∃ a ∈ l, ∃ s₁ s₂, f a s₁ = .ok b s₂ := by
  induction l generalizing s bs with
  | nil =>
    cases h
    cases hb
  | cons a l ih =>
    rw [List.mapM_cons] at h
    obtain ⟨b', s₁, ha, h⟩ := Effect.bind_eq_ok.mp h
    obtain ⟨bs', s₂, hl, h⟩ := Effect.bind_eq_ok.mp h
    cases h
    rcases List.mem_cons.mp hb with rfl | hb
    · exact ⟨a, by simp, _, _, ha⟩
    · obtain ⟨a', ha', rest⟩ := ih hl hb
      exact ⟨a', by simp [ha'], rest⟩

namespace Job

variable (job : Job)

/-- The edits of a run, with those of what is below the terms that it hands over. -/
def runEdits (run : List Term) : CompileM (List Edit) :=
  job.compileRun run fun h _ => job.compileTerms h.term.kids

/-- The edits of a region. -/
def regionEdits : Region → CompileM (List Edit)
  | .interpreted _ => return []
  | .compiled run => job.tolerate (job.runEdits run)

/-- **The batch of a run**: its number, the edits of what it hands over, its code. -/
theorem runEdits_eq (run : List Term) : job.runEdits run = (do
    let (first, last) ← ofExcept (span run)
    let n ← newUnit
    let parts ← (Lowering.handoversOf job.scope run).mapM fun h =>
      job.handoverEdits h (job.compileTerms h.term.kids)
    let code ← ofExcept (Lowering.codeOf job.scope run)
    return (parts.flatMap Prod.snd) ++
      [job.replaceEdit first last ⟨unitName n, code, parts.map Prod.fst⟩]) := by
  unfold runEdits compileRun
  rw [mapM_attach (Lowering.handoversOf job.scope run)
    (fun h => job.handoverEdits h (job.compileTerms h.term.kids))]

theorem compileTerms_eq (roots : List Term) : job.compileTerms roots =
    List.flatten <$> (Region.ofTerms job.scope roots).mapM job.regionEdits := by
  rw [compileTerms, ← Region.partition_eq_ofTerms, ← mapM_attach _ job.regionEdits,
    map_eq_pure_bind]
  congr 2
  funext ⟨r, hr⟩
  cases r <;> rfl

theorem compileTerms_nil : job.compileTerms [] = return [] := by
  rw [compileTerms_eq]
  simp [Region.ofTerms]

/-- **Terms are compiled one after the other.** -/
theorem compileTerms_cons (t : Term) (ts : List Term) : job.compileTerms (t :: ts) = (do
    let edits ← job.compileTerms [t]
    let rest ← job.compileTerms ts
    return edits ++ rest) := by
  simp only [compileTerms_eq, Region.ofTerms, List.append_nil, List.mapM_append, map_eq_pure_bind,
    bind_assoc, pure_bind, List.flatten_append]

theorem compileTerms_leaf (a : Attributes) (l : Leaf) :
    job.compileTerms [.leaf a l] = return [] := by
  simp [compileTerms_eq, Region.ofTerms, Region.ofTerm, regionEdits]

/-- An operator that is left to the interpreter has the edits of its operands. -/
theorem compileTerms_op_interpreted {a : Attributes} {c : Operator} {b : Bool} {ts : List Term}
    (h : (Term.op a c b ts).isCompilable job.scope = false) :
    job.compileTerms [.op a c b ts] = job.compileTerms ts := by
  simp [compileTerms_eq, Region.ofTerms, Region.ofTerm, regionEdits, h]

/-- An operator that is taken has the edits of a run. -/
theorem compileTerms_op_compiled {a : Attributes} {c : Operator} {b : Bool} {ts : List Term}
    (h : (Term.op a c b ts).isCompilable job.scope = true) :
    job.compileTerms [.op a c b ts] = job.tolerate (job.runEdits [.op a c b ts]) := by
  simp [compileTerms_eq, Region.ofTerms, Region.ofTerm, regionEdits, h]

/-- A statement that is left to the interpreter has the edits of its expression. -/
theorem compileTerms_statement {a : Attributes} {t : Term} (h : t.isCompilable job.scope = false) :
    job.compileTerms [.statement a t] = job.compileTerms [t] := by
  simp [compileTerms_eq, Region.ofTerms, Region.ofTerm, regionEdits, Term.isCompilable, h]

/-! ### Statements -/

/-- The edits of a run of statements that has come to its end. -/
def closingEdits (run : List Term) : CompileM (List Edit) :=
  List.flatten <$> (Region.close run).mapM job.regionEdits

/-- The edits of statements, after those in `run`. -/
def statementEdits (run ts : List Term) : CompileM (List Edit) :=
  List.flatten <$> (Region.ofStatements job.scope run ts).mapM job.regionEdits

theorem closingEdits_nil : job.closingEdits [] = return [] := by
  simp [closingEdits, Region.close]

theorem closingEdits_cons (t : Term) (run : List Term) :
    job.closingEdits (t :: run) = job.tolerate (job.runEdits (t :: run)) := by
  simp [closingEdits, Region.close, regionEdits]

theorem compileTerms_sequence (a : Attributes) (ts : List Term) :
    job.compileTerms [.sequence a ts] = job.statementEdits [] ts := by
  simp [compileTerms_eq, Region.ofTerms, Region.ofTerm, statementEdits, regionEdits]

theorem statementEdits_nil (run : List Term) :
    job.statementEdits run [] = job.closingEdits run := by
  rw [statementEdits, Region.ofStatements, closingEdits]

/-- A statement that is taken joins the run. -/
theorem statementEdits_compiled {t : Term} (h : t.isCompilable job.scope = true)
    (run ts : List Term) :
    job.statementEdits run (t :: ts) = job.statementEdits (run ++ [t]) ts := by
  rw [statementEdits, Region.ofStatements, if_pos h, statementEdits]

/-- A statement that is left to the interpreter ends the run. -/
theorem statementEdits_interpreted {t : Term} (h : t.isCompilable job.scope = false)
    (run ts : List Term) : job.statementEdits run (t :: ts) = (do
      let closing ← job.closingEdits run
      let edits ← job.compileTerms [t]
      let rest ← job.statementEdits [] ts
      return closing ++ (edits ++ rest)) := by
  simp only [statementEdits, Region.ofStatements, h, closingEdits, compileTerms_eq, Region.ofTerms,
    List.append_nil, List.mapM_append, map_eq_pure_bind, bind_assoc, pure_bind, List.flatten_append,
    Bool.false_eq_true, if_false, List.append_assoc]

variable {job}

theorem tolerate_adapt {ε ε' : Type} (rename : ε → ε') (x : EStateM ε Nat (List Edit)) :
    job.tolerate (x.adaptExcept rename) = (job.tolerate x).adaptExcept rename := by
  funext n
  simp only [tolerate, EStateM.adaptExcept]
  cases x n with
  | ok edits n => rfl
  | error e n => cases job.strict <;> rfl

/-- A refused run leaves no edits. -/
theorem tolerate_eq_ok {x : CompileM (List Edit)} {n n' : Nat} {edits : List Edit}
    (h : job.tolerate x n = .ok edits n') : x n = .ok edits n' ∨ edits = [] := by
  unfold tolerate at h
  split at h
  · next hx => exact .inl (hx.trans h)
  · split at h
    · cases h
    · cases h
      exact .inr rfl

/-- A strict job refuses no run. -/
theorem tolerate_strict {x : CompileM (List Edit)} {n n' : Nat} {edits : List Edit}
    (hs : job.strict = true) (h : job.tolerate x n = .ok edits n') : x n = .ok edits n' := by
  unfold tolerate at h
  split at h
  · next hx => exact hx.trans h
  · rw [if_pos hs] at h
    cases h

theorem ofExcept_eq_ok {α : Type} {x : Except Diagnosis α} {a : α} {n n' : Nat}
    (h : ofExcept x n = .ok a n') : x = .ok a ∧ n = n' := by
  cases x with
  | ok a => cases h; exact ⟨rfl, rfl⟩
  | error e => cases h

/-- What is below a term that is handed over is below the terms, and less. -/
theorem below_handover {scope : Scope} {roots run : List Term} {h : Handover}
    (hrun : Region.compiled run ∈ Region.ofTerms scope roots)
    (hh : h ∈ Lowering.handoversOf scope run) :
    (∀ u ∈ Term.preorders h.term.kids, u ∈ Term.preorders roots) ∧
      Term.weight h.term.kids < Term.weight roots := by
  have inRoots := Region.mem_preorders_of_mem_run _ hrun
    (Lowering.term_mem_preorders_of_mem_handoversOf hh)
  exact ⟨fun u hu => Term.mem_preorders_below inRoots hu,
    Nat.lt_of_lt_of_le (Term.weight_kids_lt _) (Term.length_preorder_le_of_mem inRoots)⟩

/-- A batch is the edits of what its run hands over, and then its replacement. -/
theorem runEdits_eq_ok {run : List Term} {n n' : Nat} {edits : List Edit} :
    job.runEdits run n = .ok edits n' ↔
    ∃ first last parts code, span run = .ok (first, last) ∧
      (Lowering.handoversOf job.scope run).mapM
        (fun h => job.handoverEdits h (job.compileTerms h.term.kids)) (n + 1) = .ok parts n' ∧
      Lowering.codeOf job.scope run = .ok code ∧
      edits = parts.flatMap Prod.snd ++
        [job.replaceEdit first last ⟨unitName n, code, parts.map Prod.fst⟩] := by
  rw [runEdits_eq]
  constructor
  · intro h
    obtain ⟨⟨first, last⟩, n₁, hspan, h⟩ := Effect.bind_eq_ok.mp h
    obtain ⟨hspanned, rfl⟩ := ofExcept_eq_ok hspan
    obtain ⟨_, n₂, hnew, h⟩ := Effect.bind_eq_ok.mp h
    cases hnew
    obtain ⟨parts, n₃, hparts, h⟩ := Effect.bind_eq_ok.mp h
    obtain ⟨code, n₄, hcode, h⟩ := Effect.bind_eq_ok.mp h
    obtain ⟨hcoded, rfl⟩ := ofExcept_eq_ok hcode
    cases h
    exact ⟨first, last, parts, code, hspanned, hparts, hcoded, rfl⟩
  · rintro ⟨first, last, parts, code, hspan, hparts, hcode, rfl⟩
    refine Effect.bind_eq_ok.mpr ⟨(first, last), n, by rw [hspan]; rfl, ?_⟩
    refine Effect.bind_eq_ok.mpr ⟨n, n + 1, rfl, ?_⟩
    refine Effect.bind_eq_ok.mpr ⟨parts, n', hparts, ?_⟩
    exact Effect.bind_eq_ok.mpr ⟨code, n', by rw [hcode]; rfl, rfl⟩

theorem handoverEdits_eq_ok {h : Handover} {below : CompileM (List Edit)} {n n' : Nat}
    {part : OpId × List Edit} (hp : job.handoverEdits h below n = .ok part n') :
    ∃ nested d, below n = .ok nested n' ∧ h.detachment = .ok d ∧
      part = (d.root, nested ++ [job.detachEdit d]) := by
  obtain ⟨nested, n₁, hbelow, hp⟩ := Effect.bind_eq_ok.mp hp
  obtain ⟨d, n₂, hd, hp⟩ := Effect.bind_eq_ok.mp hp
  obtain ⟨hdet, rfl⟩ := ofExcept_eq_ok hd
  cases hp
  exact ⟨nested, d, hbelow, hdet, rfl⟩

/-! ### Runs that are attempted, and runs that have units -/

/-- **A run that a compilation of `roots` attempts**: it is a region, or a region below a term that
an attempted run hands over. -/
inductive Attempts (job : Job) (roots : List Term) : List Term → Prop where
  | region {run : List Term} : .compiled run ∈ Region.ofTerms job.scope roots →
      Attempts job roots run
  | nested {run run' : List Term} {h : Handover} : Attempts job roots run →
      h ∈ Lowering.handoversOf job.scope run →
      .compiled run' ∈ Region.ofTerms job.scope h.term.kids → Attempts job roots run'

/-- **A run whose unit the edits put in**: a compilation of `roots` attempts it, and its batch ends
in one of the edits. -/
def Installs (job : Job) (roots : List Term) (edits : List Edit) (run : List Term) : Prop :=
  job.Attempts roots run ∧
    ∃ n n' nested edit, job.runEdits run n = .ok (nested ++ [edit]) n' ∧ edit ∈ edits

section Attempts

variable {roots roots' run run' : List Term} {edits edits' : List Edit}

/-- What is attempted below a handed-over term is attempted. -/
theorem Attempts.inside {h : Handover} (hrun : job.Attempts roots run)
    (hh : h ∈ Lowering.handoversOf job.scope run) (hrun' : job.Attempts h.term.kids run') :
    job.Attempts roots run' := by
  induction hrun' with
  | region mem => exact .nested hrun hh mem
  | nested _ hh mem ih => exact .nested ih hh mem

theorem Attempts.mono
    (hr : ∀ run, .compiled run ∈ Region.ofTerms job.scope roots →
      .compiled run ∈ Region.ofTerms job.scope roots') (h : job.Attempts roots run) :
    job.Attempts roots' run := by
  induction h with
  | region mem => exact .region (hr _ mem)
  | nested _ hh mem ih => exact .nested ih hh mem

theorem Installs.mono
    (hr : ∀ run, job.Attempts roots run → job.Attempts roots' run) (he : edits ⊆ edits')
    (h : job.Installs roots edits run) : job.Installs roots' edits' run := by
  obtain ⟨attempts, n, n', nested, edit, batch, mem⟩ := h
  exact ⟨hr run attempts, n, n', nested, edit, batch, he mem⟩

/-- The terms of a run that is attempted are terms of the program. -/
theorem Attempts.mem_preorders (h : job.Attempts roots run) :
    ∀ u ∈ Term.preorders run, u ∈ Term.preorders roots := by
  induction h with
  | region mem => exact fun u hu => Region.mem_preorders_of_mem_run _ mem hu
  | nested _ hh mem ih =>
    intro u hu
    have inside := Region.mem_preorders_of_mem_run _ mem hu
    have handed := Lowering.term_mem_preorders_of_mem_handoversOf hh
    exact ih u (Term.mem_preorders_below handed inside)

/-- **An edit that puts in a unit ends the batch of a run that was attempted**; the unit has the
code of the run, and is named by the number that the run was begun with. -/
theorem attempt_of_unit {n n' : Nat} (h : job.compileTerms roots n = .ok edits n') :
    ∀ e ∈ edits, ∀ unit ∈ e.unit?, ∃ run m m' nested, job.Attempts roots run ∧
      job.runEdits run m = .ok (nested ++ [e]) m' ∧ unit.name = unitName m ∧
      Lowering.codeOf job.scope run = .ok unit.code := by
  induction hw : Term.weight roots using Nat.strongRecOn generalizing roots edits n n' with
  | _ w ih =>
    subst hw
    rw [compileTerms_eq] at h
    obtain ⟨batches, hbatches, rfl⟩ := Effect.map_eq_ok.mp h
    intro e he unit hunit
    obtain ⟨batch, hbatch, he⟩ := List.mem_flatten.mp he
    obtain ⟨r, hr, n₁, n₂, hedits⟩ := exists_of_mapM_eq_ok hbatches hbatch
    cases r with
    | interpreted t =>
      cases hedits
      cases he
    | compiled run =>
      rcases tolerate_eq_ok hedits with hedits | rfl
      · obtain ⟨first, last, parts, code, -, hparts, hcode, rfl⟩ := runEdits_eq_ok.mp hedits
        rcases List.mem_append.mp he with he | he
        · -- an edit for something that is handed over
          obtain ⟨part, hpart, he⟩ := List.mem_flatMap.mp he
          obtain ⟨ho, hho, n₃, n₄, hpart⟩ := exists_of_mapM_eq_ok hparts hpart
          obtain ⟨nested, d, hnested, -, rfl⟩ := handoverEdits_eq_ok hpart
          rcases List.mem_append.mp he with he | he
          · obtain ⟨run', m, m', front, hrun', made⟩ :=
              ih _ (below_handover hr hho).2 hnested rfl e he unit hunit
            exact ⟨run', m, m', front, Attempts.inside (.region hr) hho hrun', made⟩
          · obtain rfl := List.mem_singleton.mp he
            cases hunit
        · -- the unit of the run itself
          obtain rfl := List.mem_singleton.mp he
          cases hunit
          exact ⟨run, n₁, n₂, _, .region hr, hedits, rfl, hcode⟩
      · cases he

end Attempts

end Job

theorem Compiler.compile_eq_ok {c c' : Compiler} {scope : Scope} {owner : OwnerId}
    {roots : List Term} {edits : List Edit} (h : c.compile scope owner roots = (.ok edits, c')) :
    ∃ n, Job.compileTerms ⟨scope, owner, c.options.strict⟩ roots c.nextUnit = .ok edits n := by
  unfold compile at h
  split at h
  · next n hn =>
    cases h
    exact ⟨n, hn⟩
  · cases h

namespace Job

variable {job : Job}

/-- Statements that are all taken are one run. -/
theorem statementEdits_run {ts : List Term} (h : ∀ t ∈ ts, t.isCompilable job.scope = true)
    (run : List Term) : job.statementEdits run ts = job.closingEdits (run ++ ts) := by
  induction ts generalizing run with
  | nil => rw [statementEdits_nil, List.append_nil]
  | cons t ts ih =>
    obtain ⟨ht, hts⟩ := List.forall_mem_cons.mp h
    rw [statementEdits_compiled job ht, ih hts, List.append_assoc]
    rfl

end Job

/-- **Statements that are all taken, and hand nothing over, become one unit.** -/
theorem Compiler.compile_statements (c : Compiler) {scope : Scope} (owner : OwnerId)
    (a : Attributes) {ts : List Term} {first last : OpId} {code : List Instr}
    (hts : ∀ t ∈ ts, t.isCompilable scope = true) (hspan : Job.span ts = .ok (first, last))
    (hhand : Lowering.handoversOf scope ts = []) (hcode : Lowering.codeOf scope ts = .ok code) :
    ∃ c', c.compile scope owner [.sequence a ts] =
      (.ok [⟨owner, .replace first last ⟨Job.unitName c.nextUnit, code, []⟩ false⟩], c') := by
  have batch : Job.runEdits ⟨scope, owner, c.options.strict⟩ ts c.nextUnit = .ok _ _ :=
    Job.runEdits_eq_ok.mpr ⟨first, last, [], code, hspan, by rw [hhand]; rfl, hcode, rfl⟩
  have closing : Job.closingEdits ⟨scope, owner, c.options.strict⟩ ts =
      Job.tolerate ⟨scope, owner, c.options.strict⟩
        (Job.runEdits ⟨scope, owner, c.options.strict⟩ ts) := by
    cases ts with
    | nil => cases hspan
    | cons t ts => exact Job.closingEdits_cons _ t ts
  refine ⟨{ c with nextUnit := c.nextUnit + 1 }, ?_⟩
  rw [compile, Job.compileTerms_sequence, Job.statementEdits_run hts, List.nil_append, closing,
    Job.tolerate, batch]
  rfl

/-- There is nothing to compile in leaves. -/
theorem Job.compileTerms_leaves (job : Job) {ts : List Term} (h : ∀ t ∈ ts, ∃ a l, t = .leaf a l)
    (n : Nat) : job.compileTerms ts n = .ok [] n := by
  induction ts generalizing n with
  | nil =>
    rw [compileTerms_nil]
    rfl
  | cons t ts ih =>
    obtain ⟨⟨a, l, rfl⟩, rest⟩ := List.forall_mem_cons.mp h
    rw [compileTerms_cons, compileTerms_leaf, pure_bind, Effect.bind_ok (ih rest n)]
    rfl

/-- **An operator that hands over one operand** with nothing to compile below it becomes one unit
with one fragment. -/
theorem Job.compileTerms_operator (job : Job) {a : Attributes} {o : Operator} {b : Bool}
    {ts : List Term} {u : Term} {d : Detachment} {first last : OpId} {code : List Instr}
    (hc : (Term.op a o b ts).isCompilable job.scope = true)
    (hspan : span [.op a o b ts] = .ok (first, last))
    (hhand : Lowering.handoversOf job.scope [.op a o b ts] = [⟨u, .ok d⟩])
    (hu : ∀ n, job.compileTerms u.kids n = .ok [] n)
    (hcode : Lowering.codeOf job.scope [.op a o b ts] = .ok code) (n : Nat) :
    job.compileTerms [.op a o b ts] n = .ok
      [job.detachEdit d, job.replaceEdit first last ⟨unitName n, code, [d.root]⟩] (n + 1) := by
  have part : ∀ n, job.handoverEdits ⟨u, .ok d⟩ (job.compileTerms u.kids) n =
      .ok (d.root, [job.detachEdit d]) n := fun n => by
    rw [handoverEdits, Effect.bind_ok (hu n)]
    rfl
  have parts : ∀ n, [⟨u, .ok d⟩].mapM
      (fun h : Handover => job.handoverEdits h (job.compileTerms h.term.kids)) n =
      .ok [(d.root, [job.detachEdit d])] n := fun n => by
    rw [List.mapM_cons, Effect.bind_ok (part n)]
    rfl
  have batch : job.runEdits [.op a o b ts] n = .ok _ _ := runEdits_eq_ok.mpr
    ⟨first, last, _, code, hspan, by rw [hhand]; exact parts _, hcode, rfl⟩
  rw [compileTerms_op_compiled job hc, tolerate, batch]
  rfl

theorem Compiler.compile_operator (c : Compiler) {scope : Scope} (owner : OwnerId) {a : Attributes}
    {o : Operator} {b : Bool} {ts : List Term} {u : Term} {d : Detachment} {first last : OpId}
    {code : List Instr} (hc : (Term.op a o b ts).isCompilable scope = true)
    (hspan : Job.span [.op a o b ts] = .ok (first, last))
    (hhand : Lowering.handoversOf scope [.op a o b ts] = [⟨u, .ok d⟩])
    (hu : ∀ t ∈ u.kids, ∃ a l, t = .leaf a l)
    (hcode : Lowering.codeOf scope [.op a o b ts] = .ok code) :
    ∃ c', c.compile scope owner [.op a o b ts] =
      (.ok [⟨owner, .detach d.root true d.exits⟩,
        ⟨owner, .replace first last ⟨Job.unitName c.nextUnit, code, [d.root]⟩ false⟩], c') := by
  have compiled := Job.compileTerms_operator ⟨scope, owner, c.options.strict⟩ hc hspan hhand
    (Job.compileTerms_leaves _ hu) hcode c.nextUnit
  refine ⟨{ c with nextUnit := c.nextUnit + 1 }, ?_⟩
  rw [compile, compiled]
  rfl

/-! ### Applying edits -/

namespace Graph

/-- The edits can be applied to `g`, which then is `g'`. -/
def Applies (edits : List Edit) (g g' : Graph) : Prop := ∃ units, applyEdits edits g = .ok units g'

variable {g g' : Graph} {edits edits' : List Edit}

theorem applies_iff : Applies edits g g' ↔ ∃ answers, edits.mapM applyEdit g = .ok answers g' := by
  constructor
  · rintro ⟨units, h⟩
    obtain ⟨answers, g₁, hm, h⟩ := Effect.bind_eq_ok.mp h
    cases h
    exact ⟨answers, hm⟩
  · rintro ⟨answers, h⟩
    exact ⟨answers.filterMap id, by unfold applyEdits; rw [Effect.bind_ok h]; rfl⟩

theorem Applies.nil (g : Graph) : Applies [] g g := ⟨[], rfl⟩

/-- **Edits are applied one after the other.** -/
theorem Applies.append {g₁ : Graph} (h : Applies edits g g₁) (h' : Applies edits' g₁ g') :
    Applies (edits ++ edits') g g' := by
  obtain ⟨as, ha⟩ := applies_iff.mp h
  obtain ⟨bs, hb⟩ := applies_iff.mp h'
  refine applies_iff.mpr ⟨as ++ bs, ?_⟩
  rw [List.mapM_append, Effect.bind_ok ha, Effect.bind_ok hb]
  rfl

theorem applyEdit_detach {owner : OwnerId} {root : OpId} {keep : Bool} {exits : List OpId}
    (ho : g.owner = owner) (h : Graph.detach root keep exits g = .ok ⟨⟩ g') :
    applyEdit ⟨owner, .detach root keep exits⟩ g = .ok none g' := by
  unfold applyEdit
  rw [Effect.get_bind, if_neg (by simp [ho])]
  dsimp only
  rw [Effect.bind_ok h]
  rfl

theorem Applies.detach {owner : OwnerId} {root : OpId} {exits : List OpId} (ho : g.owner = owner)
    (h : Graph.detach root true exits g = .ok ⟨⟩ g') :
    Applies [⟨owner, .detach root true exits⟩] g g' := by
  refine applies_iff.mpr ⟨[none], ?_⟩
  rw [List.mapM_cons, Effect.bind_ok (applyEdit_detach ho h)]
  rfl

theorem applyEdit_replace {owner : OwnerId} {first last : OpId} {unit : CompiledUnit} {keep : Bool}
    (ho : g.owner = owner) : applyEdit ⟨owner, .replace first last unit keep⟩ g =
      (some <$> replace first last unit keep) g := by
  unfold applyEdit
  rw [Effect.get_bind, if_neg (by simp [ho])]

theorem Applies.replace {owner : OwnerId} {first last new : OpId} {unit : CompiledUnit}
    (ho : g.owner = owner) (h : Graph.replace first last unit false g = .ok new g') :
    Applies [⟨owner, .replace first last unit false⟩] g g' := by
  refine applies_iff.mpr ⟨[some new], ?_⟩
  have step : applyEdit ⟨owner, .replace first last unit false⟩ g = .ok (some new) g' :=
    (applyEdit_replace ho).trans (Effect.map_ok h)
  rw [List.mapM_cons, Effect.bind_ok step]
  rfl

end Graph

end Graft
