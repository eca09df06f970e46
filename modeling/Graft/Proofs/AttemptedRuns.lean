import Graft.Proofs.Compilations
import Graft.Proofs.MaximalRuns

/-! # The runs that a compilation attempts

Everything that a compilation answers with comes from the runs that it attempts (`Job.Attempts`).
An edit that puts in a unit ends the batch of one of them (`Job.attempt_of_unit`); and a diagnosis
is that of one of them (`Job.attempt_of_error`), so a compilation succeeds if none of them is
refused.

Both are shown by induction on the size of the terms, as the compilation itself descends: the runs
of a region first, then those below each term that a run hands over.  What is shown of runs alone,
one at a time, is by these lemmas shown of compilations.
-/

namespace Graft

namespace Effect

variable {ε σ α β : Type} {x : EStateM ε σ α} {f : α → EStateM ε σ β} {s t : σ} {e : ε}

/-- A sequence of two steps fails if one of them does. -/
theorem bind_eq_error : (x >>= f) s = .error e t ↔
    x s = .error e t ∨ ∃ a s', x s = .ok a s' ∧ f a s' = .error e t := by
  cases h : x s with
  | ok a s' =>
    rw [bind_ok h]
    constructor
    · exact fun hf => .inr ⟨a, s', rfl, hf⟩
    · rintro (hx | ⟨_, _, ⟨⟩, hf⟩)
      · cases hx
      · exact hf
  | error e' s' =>
    rw [bind_error h]
    constructor
    · rintro ⟨⟩
      exact .inl rfl
    · rintro (⟨⟨⟩⟩ | ⟨_, _, hx, -⟩)
      · rfl
      · cases hx

theorem map_eq_error {g : α → β} : (g <$> x) s = .error e t ↔ x s = .error e t := by
  cases h : x s with
  | ok a s' => simp [map_ok h]
  | error e' s' => simp [map_error h]

/-- What fails in a list of steps fails in one of them. -/
theorem exists_of_mapM_eq_error {l : List α} (h : l.mapM f s = .error e t) :
    ∃ a ∈ l, ∃ s₁ s₂, f a s₁ = .error e s₂ := by
  induction l generalizing s with
  | nil => cases h
  | cons a l ih =>
    rw [List.mapM_cons] at h
    rcases bind_eq_error.mp h with ha | ⟨b, s₁, -, h⟩
    · exact ⟨a, by simp, s, t, ha⟩
    · rcases bind_eq_error.mp h with hl | ⟨bs, s₂, -, h⟩
      · obtain ⟨a', ha', rest⟩ := ih hl
        exact ⟨a', by simp [ha'], rest⟩
      · cases h

end Effect

namespace Job

/-- The run itself is refused with the diagnosis: for one of its ends, for a fragment that is not
in the graph, or for a node that there is no code for. -/
inductive Diagnoses (job : Job) (run : List Term) (e : Diagnosis) : Prop where
  | ends : span run = .error e → Diagnoses job run e
  | fragment {h : Handover} : h ∈ Lowering.handoversOf job.scope run → h.detachment = .error e →
      Diagnoses job run e
  | node : Lowering.codeOf job.scope run = .error e → Diagnoses job run e

variable {job : Job} {roots run : List Term} {e : Diagnosis} {n n' : Nat}

/-- A run has members, and the compiler takes them. -/
theorem Attempts.taken (h : job.Attempts roots run) :
    run ≠ [] ∧ ∀ t ∈ run, t.isCompilable job.scope = true := by
  have ofRegion : ∀ {roots run : List Term}, .compiled run ∈ Region.ofTerms job.scope roots →
      run ≠ [] ∧ ∀ t ∈ run, t.isCompilable job.scope = true := by
    intro roots run mem
    obtain ⟨ne, compilable, -⟩ := Region.fits_ofTerms job.scope roots _ mem
    exact ⟨ne, compilable⟩
  cases h with
  | region mem => exact ofRegion mem
  | nested _ _ mem => exact ofRegion mem

/-! ### Where a diagnosis comes from -/

theorem ofExcept_eq_error {α : Type} {x : Except Diagnosis α} (h : ofExcept x n = .error e n') :
    x = .error e := by
  cases x with
  | ok a => cases h
  | error e' => cases h; rfl

theorem tolerate_eq_error {x : CompileM (List Edit)} (h : job.tolerate x n = .error e n') :
    x n = .error e n' := by
  unfold tolerate at h
  split at h
  · cases h
  · next hx =>
    split at h
    · exact hx.trans h
    · cases h

/-- A run fails with a diagnosis of its own, or with one from below a term that it hands over. -/
theorem runEdits_eq_error (h : job.runEdits run n = .error e n') : job.Diagnoses run e ∨
    ∃ ho ∈ Lowering.handoversOf job.scope run, ∃ n₁ n₂,
      job.compileTerms ho.term.kids n₁ = .error e n₂ := by
  rw [runEdits_eq] at h
  rcases Effect.bind_eq_error.mp h with hspan | ⟨ends, n₁, -, h⟩
  · exact .inl (.ends (ofExcept_eq_error hspan))
  rcases Effect.bind_eq_error.mp h with hnew | ⟨number, n₂, -, h⟩
  · cases hnew
  rcases Effect.bind_eq_error.mp h with hparts | ⟨parts, n₃, -, h⟩
  · obtain ⟨ho, hho, m, m', hpart⟩ := Effect.exists_of_mapM_eq_error hparts
    rcases Effect.bind_eq_error.mp hpart with hbelow | ⟨nested, m₁, -, hpart⟩
    · exact .inr ⟨ho, hho, m, m', hbelow⟩
    rcases Effect.bind_eq_error.mp hpart with hdet | ⟨d, m₂, -, hpart⟩
    · exact .inl (.fragment hho (ofExcept_eq_error hdet))
    · cases hpart
  rcases Effect.bind_eq_error.mp h with hcode | ⟨code, n₄, -, h⟩
  · exact .inl (.node (ofExcept_eq_error hcode))
  · cases h

/-- **A diagnosis is that of a run that was attempted.** -/
theorem attempt_of_error (h : job.compileTerms roots n = .error e n') :
    ∃ run, job.Attempts roots run ∧ job.Diagnoses run e := by
  -- by induction on the size: what is below a handed-over term is smaller
  induction hw : Term.weight roots using Nat.strongRecOn generalizing roots n n' with
  | _ w ih =>
    subst hw
    rw [compileTerms_eq, Effect.map_eq_error] at h
    obtain ⟨r, hr, n₁, n₂, hedits⟩ := Effect.exists_of_mapM_eq_error h
    cases r with
    | interpreted t => cases hedits
    | compiled run =>
      rcases runEdits_eq_error (tolerate_eq_error hedits) with own | ⟨ho, hho, m, m', hbelow⟩
      · exact ⟨run, .region hr, own⟩
      · obtain ⟨run', hrun', diagnosed⟩ := ih _ (below_handover hr hho).2 hbelow rfl
        exact ⟨run', Attempts.inside (.region hr) hho hrun', diagnosed⟩

/-- A run with ends and with code is not refused: what it hands over has fragments. -/
theorem not_diagnoses {ends : OpId × OpId} {code : List Instr} (hspan : span run = .ok ends)
    (hcode : Lowering.codeOf job.scope run = .ok code) : ¬ job.Diagnoses run e := by
  rintro (h | ⟨hh, hdet⟩ | h)
  · rw [hspan] at h
    cases h
  · have called := List.mem_map_of_mem (f := Handover.root?) hh
    rw [Lowering.calls_of_codeOf hcode] at called
    simp [Handover.root?, hdet] at called
  · rw [hcode] at h
    cases h

/-- **A compilation succeeds if every run that it attempts has its ends and its code.** -/
theorem exists_compileTerms_of_attempts
    (runs : ∀ run, job.Attempts roots run →
      ∃ ends code, span run = .ok ends ∧ Lowering.codeOf job.scope run = .ok code) (n : Nat) :
    ∃ edits n', job.compileTerms roots n = .ok edits n' := by
  cases h : job.compileTerms roots n with
  | ok edits n' => exact ⟨edits, n', rfl⟩
  | error e n' =>
    obtain ⟨run, hrun, diagnosed⟩ := attempt_of_error h
    obtain ⟨ends, code, hspan, hcode⟩ := runs run hrun
    exact absurd diagnosed (not_diagnoses hspan hcode)

/-- Then every run that it attempts gives its batch. -/
theorem exists_runEdits_of_attempts
    (runs : ∀ run, job.Attempts roots run →
      ∃ ends code, span run = .ok ends ∧ Lowering.codeOf job.scope run = .ok code)
    (hrun : job.Attempts roots run) (n : Nat) : ∃ batch n', job.runEdits run n = .ok batch n' := by
  cases h : job.runEdits run n with
  | ok batch n' => exact ⟨batch, n', rfl⟩
  | error e n' =>
    rcases runEdits_eq_error h with diagnosed | ⟨ho, hho, n₁, n₂, hbelow⟩
    · obtain ⟨ends, code, hspan, hcode⟩ := runs run hrun
      exact absurd diagnosed (not_diagnoses hspan hcode)
    · obtain ⟨edits, n₃, hok⟩ := exists_compileTerms_of_attempts
        (fun run' hrun' => runs run' (hrun.inside hho hrun')) n₁
      rw [hok] at hbelow
      cases hbelow

end Job

end Graft
