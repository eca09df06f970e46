import Graft.Proofs.EmittedCode
import Graft.Proofs.HiddenVariables

/-! # The batches in a compilation's answer

A batch is what one unit needs: for every fragment that it calls, the batches of the units that
are compiled inside the fragment and then the edit that detaches it, and last the edit that puts
the unit in its place (`IsBatch`).  What a compilation answers with is a list of whole batches.

Which ones is settled by the terms alone.  A run has its batch, with all that is nested in it, or
it is refused, and then there is nothing of it: not the fragments that were to be detached before
the lowering came to the node that it cannot do, and not the units inside them (`Job.Outcome`).

`IsBatch` is a grammar, and says nothing of how edits come about; `Job.Outcome` follows the regions.
That the answer is both is shown by induction on the size of the terms, with the batch of a run
taken apart by `Job.runEdits_eq_ok`.  The fragments in a batch are matched with the calls in the
code of its unit by an invariant of the lowering (`Lowering.calls_of_codeOf`), so the unit owns what
the batch has detached, in the order in which it calls it.
-/

namespace Graft

/-- The edits for one fragment of a unit: the batches inside it, and what is detached. -/
structure Part where
  nested : List (List Edit)
  fragment : Detachment

def Part.edits (owner : OwnerId) (p : Part) : List Edit :=
  p.nested.flatten ++ [⟨owner, .detach p.fragment.root true p.fragment.exits⟩]

/-- **A batch**: `(batch* detach)* replace`.  The unit calls, and owns, the fragments that the batch
itself detaches, in order. -/
inductive IsBatch (owner : OwnerId) : List Edit → Prop where
  | mk {first last : OpId} {unit : CompiledUnit} {parts : List Part}
      (nested : ∀ p ∈ parts, ∀ b ∈ p.nested, IsBatch owner b)
      (fragments : unit.fragments = parts.map fun p => p.fragment.root)
      (calls : callsOf unit.code = unit.fragments) :
      IsBatch owner (parts.flatMap (Part.edits owner) ++ [⟨owner, .replace first last unit false⟩])

namespace Job

/-- A run that has no batch: one of its ends has no host instruction, or there is a node in it that
the lowering cannot do. -/
def Refuses (job : Job) (run : List Term) : Prop :=
  (∃ e, span run = .error e) ∨ ∃ e, Lowering.codeOf job.scope run = .error e

mutual

/-- **What a compilation makes of regions**: nothing of what is left to the interpreter, and nothing
of a run that is refused, if the job is not strict; of every other run its batch. -/
inductive Outcome (job : Job) : List Region → List Edit → Prop where
  | nil : Outcome job [] []
  | interpreted {t : Term} {rs : List Region} {edits : List Edit} :
      Outcome job rs edits → Outcome job (.interpreted t :: rs) edits
  | refused {run : List Term} {rs : List Region} {edits : List Edit} :
      job.strict = false → job.Refuses run → Outcome job rs edits →
      Outcome job (.compiled run :: rs) edits
  | compiled {run : List Term} {rs : List Region} {batch edits : List Edit} :
      BatchOf job run batch → Outcome job rs edits →
      Outcome job (.compiled run :: rs) (batch ++ edits)

/-- The batch of a run: the edits of all that it hands over, and its replacement. -/
inductive BatchOf (job : Job) : List Term → List Edit → Prop where
  | mk {run : List Term} {first last : OpId} {name : String} {code : List Instr} {roots : List OpId}
      {edits : List Edit} :
      span run = .ok (first, last) → Lowering.codeOf job.scope run = .ok code →
      PartsOf job (Lowering.handoversOf job.scope run) roots edits →
      BatchOf job run (edits ++ [job.replaceEdit first last ⟨name, code, roots⟩])

/-- The edits of terms that are handed over: of each, what becomes of the terms below it, and then
its fragment is detached. -/
inductive PartsOf (job : Job) : List Handover → List OpId → List Edit → Prop where
  | nil : PartsOf job [] [] []
  | cons {h : Handover} {hs : List Handover} {d : Detachment} {roots : List OpId}
      {nested edits : List Edit} :
      Outcome job (Region.ofTerms job.scope h.term.kids) nested → h.detachment = .ok d →
      PartsOf job hs roots edits →
      PartsOf job (h :: hs) (d.root :: roots) (nested ++ [job.detachEdit d] ++ edits)

end

variable {job : Job} {run : List Term} {rs : List Region} {hs : List Handover} {roots : List OpId}
  {edits : List Edit} {n n' : Nat}

/-! ### What a compilation makes of regions -/

/-- A step of a lenient job gives way to no edits where its run is refused. -/
theorem tolerate_cases {x : CompileM (List Edit)} (h : job.tolerate x n = .ok edits n') :
    x n = .ok edits n' ∨ edits = [] ∧ job.strict = false ∧ ∃ e, x n = .error e n' := by
  unfold tolerate at h
  cases hx : x n with
  | ok edits₁ n₁ =>
    rw [hx] at h
    exact .inl h
  | error e n₁ =>
    rw [hx] at h
    dsimp only at h
    cases hs : job.strict with
    | true =>
      rw [hs, if_pos rfl] at h
      cases h
    | false =>
      rw [hs, if_neg (by simp)] at h
      cases h
      exact .inr ⟨rfl, rfl, e, rfl⟩

theorem exists_mapM {σ ε α β : Type} {l : List α} {f : α → EStateM ε σ β}
    (h : ∀ a ∈ l, ∀ s, ∃ b s', f a s = .ok b s') (s : σ) : ∃ bs s', l.mapM f s = .ok bs s' := by
  induction l generalizing s with
  | nil => exact ⟨[], s, rfl⟩
  | cons a l ih =>
    obtain ⟨ha, hl⟩ := List.forall_mem_cons.mp h
    obtain ⟨b, s₁, hb⟩ := ha s
    obtain ⟨bs, s₂, hbs⟩ := ih hl s₁
    refine ⟨b :: bs, s₂, ?_⟩
    rw [List.mapM_cons, Effect.bind_ok hb, Effect.bind_ok hbs]
    rfl

/-- A lenient job always has an answer. -/
theorem exists_compileTerms (hs : job.strict = false) (ts : List Term) (n : Nat) :
    ∃ edits n', job.compileTerms ts n = .ok edits n' := by
  have regions : ∀ r ∈ Region.ofTerms job.scope ts, ∀ n, ∃ edits n', job.regionEdits r n = .ok edits n' := by
    intro r _ n
    cases r with
    | interpreted t => exact ⟨[], n, rfl⟩
    | compiled run =>
      rw [regionEdits, tolerate]
      cases job.runEdits run n with
      | ok edits n' => exact ⟨edits, n', rfl⟩
      | error e n' => exact ⟨[], n', by rw [hs]; rfl⟩
  obtain ⟨batches, n', h⟩ := exists_mapM regions n
  exact ⟨batches.flatten, n', by rw [compileTerms_eq]; exact Effect.map_ok h⟩

/-- A lenient job refuses a run only for its ends, or for a node in it. -/
theorem refuses_of_error {e : Diagnosis} (hs : job.strict = false)
    (h : job.runEdits run n = .error e n') : job.Refuses run := by
  cases hspan : span run with
  | error e => exact .inl ⟨e, hspan⟩
  | ok ends =>
    cases hcode : Lowering.codeOf job.scope run with
    | error e => exact .inr ⟨e, hcode⟩
    | ok code =>
      -- with code for the run, what it hands over has fragments, and the batch can be made
      have parts : ∀ h ∈ Lowering.handoversOf job.scope run, ∀ n, ∃ part n',
          job.handoverEdits h (job.compileTerms h.term.kids) n = .ok part n' := by
        intro h hh n
        have rooted : h.root? ∈ (callsOf code).map some :=
          Lowering.calls_of_codeOf hcode ▸ List.mem_map_of_mem hh
        obtain ⟨nested, n₁, hnested⟩ := exists_compileTerms hs h.term.kids n
        cases hd : h.detachment with
        | error e => simp [Handover.root?, hd] at rooted
        | ok d =>
          refine ⟨(d.root, nested ++ [job.detachEdit d]), n₁, ?_⟩
          rw [handoverEdits, Effect.bind_ok hnested, hd]
          rfl
      obtain ⟨ps, n₂, hps⟩ := exists_mapM parts (n + 1)
      have batch := runEdits_eq_ok.mpr ⟨ends.1, ends.2, ps, code, hspan, hps, hcode, rfl⟩
      rw [h] at batch
      cases batch

/-- The edits of what a run hands over, if those of what is below are known. -/
theorem partsOf_mapM {parts : List (OpId × List Edit)}
    (below : ∀ h ∈ hs, ∀ n edits n', job.compileTerms h.term.kids n = .ok edits n' →
      Outcome job (Region.ofTerms job.scope h.term.kids) edits)
    (h : hs.mapM (fun h => job.handoverEdits h (job.compileTerms h.term.kids)) n = .ok parts n') :
    PartsOf job hs (parts.map Prod.fst) (parts.flatMap Prod.snd) := by
  induction hs generalizing n parts with
  | nil =>
    cases h
    exact .nil
  | cons ho hs ih =>
    obtain ⟨first, rest⟩ := List.forall_mem_cons.mp below
    rw [List.mapM_cons] at h
    obtain ⟨part, n₁, hpart, h⟩ := Effect.bind_eq_ok.mp h
    obtain ⟨parts', n₂, hparts, h⟩ := Effect.bind_eq_ok.mp h
    cases h
    obtain ⟨nested, d, hnested, hd, rfl⟩ := handoverEdits_eq_ok hpart
    exact .cons (first _ _ _ hnested) hd (ih rest hparts)

/-- The edits of regions, if those of their runs are known. -/
theorem outcome_mapM {batches : List (List Edit)}
    (runs : ∀ run, .compiled run ∈ rs → ∀ n batch n', job.runEdits run n = .ok batch n' →
      BatchOf job run batch)
    (h : rs.mapM job.regionEdits n = .ok batches n') : Outcome job rs batches.flatten := by
  induction rs generalizing n batches with
  | nil =>
    cases h
    exact .nil
  | cons r rs ih =>
    rw [List.mapM_cons] at h
    obtain ⟨batch, n₁, hbatch, h⟩ := Effect.bind_eq_ok.mp h
    obtain ⟨batches', n₂, hrest, h⟩ := Effect.bind_eq_ok.mp h
    cases h
    have rest := ih (fun run hrun => runs run (List.mem_cons_of_mem r hrun)) hrest
    cases r with
    | interpreted t =>
      cases hbatch
      exact .interpreted rest
    | compiled run =>
      obtain hbatch | ⟨rfl, hstrict, e, hrefused⟩ := tolerate_cases hbatch
      · exact .compiled (runs run List.mem_cons_self _ _ _ hbatch) rest
      · exact .refused hstrict (refuses_of_error hstrict hrefused) rest

/-- **What a compilation answers with is settled by the terms.** -/
theorem outcome_compileTerms {ts : List Term} (h : job.compileTerms ts n = .ok edits n') :
    Outcome job (Region.ofTerms job.scope ts) edits := by
  -- by induction on the size: what is below a handed-over term is smaller
  induction hw : Term.weight ts using Nat.strongRecOn generalizing ts edits n n' with
  | _ w ih =>
    subst hw
    rw [compileTerms_eq] at h
    obtain ⟨batches, hbatches, rfl⟩ := Effect.map_eq_ok.mp h
    refine outcome_mapM (fun run hrun n batch n' hbatch => ?_) hbatches
    obtain ⟨first, last, parts, code, hspan, hparts, hcode, rfl⟩ := runEdits_eq_ok.mp hbatch
    refine .mk hspan hcode (partsOf_mapM (fun h hh n edits n' hedits => ?_) hparts)
    exact ih _ (below_handover hrun hh).2 hedits rfl

/-! ### Batches -/

mutual

/-- What is made of regions is a list of whole batches. -/
theorem Outcome.batches : ∀ {rs : List Region} {edits : List Edit}, Outcome job rs edits →
    ∃ batches : List (List Edit), edits = batches.flatten ∧ ∀ b ∈ batches, IsBatch job.owner b
  | _, _, .nil => ⟨[], rfl, by simp⟩
  | _, _, .interpreted rest => rest.batches
  | _, _, .refused _ _ rest => rest.batches
  | _, _, .compiled batch rest => by
    obtain ⟨batches, rfl, whole⟩ := rest.batches
    exact ⟨_ :: batches, rfl, List.forall_mem_cons.mpr ⟨batch.isBatch, whole⟩⟩

theorem BatchOf.isBatch : ∀ {run : List Term} {edits : List Edit}, BatchOf job run edits →
    IsBatch job.owner edits
  | _, _, .mk _ hcode parts => by
    obtain ⟨ps, rfl, hroots, nested, roots_eq⟩ := parts.parts
    have calls := (Lowering.calls_of_codeOf hcode).symm.trans roots_eq
    exact .mk nested hroots ((List.map_inj_right fun _ _ => Option.some.inj).mp calls)

theorem PartsOf.parts : ∀ {hs : List Handover} {roots : List OpId} {edits : List Edit},
    PartsOf job hs roots edits → ∃ ps : List Part, edits = ps.flatMap (Part.edits job.owner) ∧
      (roots = ps.map fun p => p.fragment.root) ∧ (∀ p ∈ ps, ∀ b ∈ p.nested, IsBatch job.owner b) ∧
      hs.map Handover.root? = roots.map some
  | _, _, _, .nil => ⟨[], rfl, rfl, by simp, rfl⟩
  | _, _, _, .cons below hd rest => by
    obtain ⟨batches, rfl, whole⟩ := below.batches
    obtain ⟨ps, rfl, rfl, nested, roots_eq⟩ := rest.parts
    refine ⟨⟨batches, _⟩ :: ps, rfl, rfl, List.forall_mem_cons.mpr ⟨whole, nested⟩, ?_⟩
    rw [List.map_cons, List.map_cons, roots_eq, Handover.root?, hd]

end

mutual

/-- The units in the edits are the code of runs. -/
theorem Outcome.codeOf_unit : ∀ {rs : List Region} {edits : List Edit}, Outcome job rs edits →
    ∀ e ∈ edits, ∀ unit ∈ e.unit?, ∃ run, Lowering.codeOf job.scope run = .ok unit.code
  | _, _, .nil => by simp
  | _, _, .interpreted rest => rest.codeOf_unit
  | _, _, .refused _ _ rest => rest.codeOf_unit
  | _, _, .compiled batch rest => fun e he =>
    (List.mem_append.mp he).elim (batch.codeOf_unit e) (rest.codeOf_unit e)

theorem BatchOf.codeOf_unit : ∀ {run : List Term} {edits : List Edit}, BatchOf job run edits →
    ∀ e ∈ edits, ∀ unit ∈ e.unit?, ∃ run, Lowering.codeOf job.scope run = .ok unit.code
  | run, _, .mk _ hcode parts => fun e he => by
    rcases List.mem_append.mp he with he | he
    · exact parts.codeOf_unit e he
    · obtain rfl := List.mem_singleton.mp he
      rintro unit ⟨⟩
      exact ⟨run, hcode⟩

theorem PartsOf.codeOf_unit : ∀ {hs : List Handover} {roots : List OpId} {edits : List Edit},
    PartsOf job hs roots edits →
    ∀ e ∈ edits, ∀ unit ∈ e.unit?, ∃ run, Lowering.codeOf job.scope run = .ok unit.code
  | _, _, _, .nil => by simp
  | _, _, _, .cons below _ rest => fun e he => by
    rcases List.mem_append.mp he with he | he
    · rcases List.mem_append.mp he with he | he
      · exact below.codeOf_unit e he
      · obtain rfl := List.mem_singleton.mp he
        rintro unit ⟨⟩
    · exact rest.codeOf_unit e he

end

end Job

/-- **The answer of a compilation is a list of whole batches**, those of the runs that are not
refused.

By induction on the size of its terms a compilation comes to what `Job.Outcome` describes, region by
region: nothing of a run that is refused, and of any other the edits of all that it hands over and
its replacement.  So batches are whole.  That a unit calls the fragments of its own batch, in order,
is an invariant of the code as it is emitted. -/
theorem Compiler.compile_batches {c c' : Compiler} {scope : Scope} {owner : OwnerId}
    {roots : List Term} {edits : List Edit} (h : c.compile scope owner roots = (.ok edits, c')) :
    (∃ batches : List (List Edit), edits = batches.flatten ∧ ∀ b ∈ batches, IsBatch owner b) ∧
      Job.Outcome ⟨scope, owner, c.options.strict⟩ (Region.ofTerms scope roots) edits := by
  obtain ⟨n, hn⟩ := compile_eq_ok h
  have outcome := Job.outcome_compileTerms hn
  exact ⟨outcome.batches, outcome⟩

/-! ### A run that is refused

Its first operand is handed over, with a sum inside it; there is no code for its second. -/

def refusedTerm : Term :=
  .op ⟨some ⟨⟨11⟩, ⟨5⟩, some ⟨3⟩⟩, .scalar, none⟩ .add false
    [.op ⟨some ⟨⟨9⟩, ⟨5⟩, none⟩, .scalar, none⟩ .boolAnd false
      [.leaf ⟨some ⟨⟨5⟩, ⟨5⟩, none⟩, .scalar, none⟩ (.lexical ⟨0⟩),
        .op ⟨some ⟨⟨8⟩, ⟨6⟩, some ⟨4⟩⟩, .scalar, none⟩ .add false
          [.leaf ⟨some ⟨⟨6⟩, ⟨6⟩, none⟩, .scalar, none⟩ (.lexical ⟨1⟩),
            .leaf ⟨some ⟨⟨7⟩, ⟨7⟩, none⟩, .scalar, none⟩ (.constant (.int 1))]],
      .leaf ⟨some ⟨⟨10⟩, ⟨10⟩, none⟩, .scalar, none⟩ (.constant (.str "s"))]

theorem Job.compileTerms_refusedTerm (n : Nat) : ∃ n',
    Job.compileTerms ⟨sumScope, ⟨0⟩, false⟩ [refusedTerm] n = .ok [] n' := by
  have compilable : refusedTerm.isCompilable sumScope = true := by decide
  rw [refusedTerm, compileTerms_op_compiled _ compilable, tolerate]
  cases h : Job.runEdits ⟨sumScope, ⟨0⟩, false⟩ [refusedTerm] n with
  | error e n' =>
    rw [refusedTerm] at h
    rw [h]
    exact ⟨n', rfl⟩
  | ok edits n' =>
    obtain ⟨-, -, -, code, -, -, hcode, -⟩ := runEdits_eq_ok.mp h
    cases hcode

theorem Compiler.compile_of_compileTerms {c : Compiler} {scope : Scope} {owner : OwnerId}
    {roots : List Term} {edits : List Edit} {n : Nat}
    (h : Job.compileTerms ⟨scope, owner, c.options.strict⟩ roots c.nextUnit = .ok edits n) :
    c.compile scope owner roots = (.ok edits, { c with nextUnit := n }) := by
  rw [compile, h]

/-- After a sum that is compiled, a run is refused: the answer is the batch of the sum. -/
theorem Compiler.compile_batches_refused : ∃ edits c',
    Compiler.compile ⟨Options.release.lenient, 0⟩ sumScope ⟨0⟩ [sumTerm, refusedTerm] = (.ok edits, c') ∧
    (∃ batches : List (List Edit), edits = batches.flatten ∧ ∀ b ∈ batches, IsBatch ⟨0⟩ b) ∧
    Job.Outcome ⟨sumScope, ⟨0⟩, false⟩ (Region.ofTerms sumScope [sumTerm, refusedTerm]) edits := by
  obtain ⟨edits, c₁, hsum⟩ := sumTerm_compiles ⟨Options.release.lenient, 0⟩
    (show sumTerm.isCompilable sumScope = true by decide) rfl rfl
  obtain ⟨n₁, hsum⟩ := compile_eq_ok hsum
  have hsum : Job.compileTerms ⟨sumScope, ⟨0⟩, false⟩ [sumTerm] 0 = .ok edits n₁ := hsum
  obtain ⟨n₂, hrefused⟩ := Job.compileTerms_refusedTerm n₁
  have both : Job.compileTerms ⟨sumScope, ⟨0⟩, false⟩ [sumTerm, refusedTerm] 0 = .ok (edits ++ []) n₂ := by
    rw [Job.compileTerms_cons, Effect.bind_ok hsum, Effect.bind_ok hrefused]
    rfl
  have compiled := compile_of_compileTerms (c := ⟨Options.release.lenient, 0⟩) both
  exact ⟨_, _, compiled, compile_batches compiled⟩

end Graft
