import Graft.Proofs.AttemptedRuns
import Graft.Proofs.HiddenPaths

/-! # Contexts that a unit cannot serve

A unit does not know what the caller of the program wants, and nothing can be done for a term whose
context was never resolved.  The context is looked at in two places only.  One is where the value of
a run's member is delivered: statements and sequences are no more than their parts, so that is where
one gets to through them (`Term.Exits`).  The other is where a term is handed over, below any number
of operators that are computed in the unit itself (`Lowering.Offers`).

A run with a wrong context in one of these places is refused, whatever else is wrong with it, and a
lenient compilation puts in no unit for it.

`Exits` and `Offers` are said by paths from the members of a run, without the lowering.  That a
lowering which comes to its end has been at each of these places, and has found a context there that
it can serve, is shown along the path.  Conversely what it hands over lies at the end of such a
path, which is read off its tour (`Lowering.Visits.exists_path`).
-/

namespace Graft

namespace Effect

variable {ε σ α β : Type} {x : EStateM ε σ α} {f : α → EStateM ε σ β}

/-- The computation fails, whatever state it is begun in. -/
def Fails (x : EStateM ε σ α) : Prop := ∀ s, ∃ e s', x s = .error e s'

namespace Fails

theorem throw (e : ε) : Fails (MonadExcept.throw e : EStateM ε σ α) := fun s => ⟨e, s, rfl⟩

theorem first (h : Fails x) : Fails (x >>= f) := by
  intro s
  obtain ⟨e, s', hx⟩ := h s
  exact ⟨e, s', bind_error hx⟩

/-- If a later step is bound to fail, the first one may fail as well. -/
theorem later (h : ∀ a, Fails (f a)) : Fails (x >>= f) := by
  intro s
  cases hx : x s with
  | error e s' => exact ⟨e, s', bind_error hx⟩
  | ok a s' =>
    rw [bind_ok hx]
    exact h a s'

end Fails

end Effect

open Effect (Fails)

/-! ### What is delivered and what is handed over -/

namespace Term

/-- **A term whose value a run delivers**: it is reached from a member through statements and
sequences only, and it is neither. -/
def Exits (run : List Term) (t : Term) : Prop :=
  ∃ m ∈ run, ∃ path, m.Path path t ∧ (∀ w ∈ path, w.isFrame = true) ∧ t.isFrame = false

/-- **A term that is handed over on the way down from another**: it is neither computed nor loaded,
and what is above it is computed in the unit. -/
def Hands (scope : Scope) (t u : Term) : Prop :=
  ∃ path, t.Path path u ∧ (∀ w ∈ path, w.isDirect scope = true) ∧
    u.isDirect scope = false ∧ u.isLoaded = false

theorem Hands.up {scope : Scope} {t k u : Term} (ht : t.isDirect scope = true) (hk : k ∈ t.kids)
    (h : k.Hands scope u) : t.Hands scope u := by
  obtain ⟨path, hp, hd, last⟩ := h
  exact ⟨t :: path, .down hk hp, List.forall_mem_cons.mpr ⟨ht, hd⟩, last⟩

end Term

namespace Lowering

/-- **A term that a run hands over**, if the lowering gets as far. -/
def Offers (scope : Scope) (run : List Term) (u : Term) : Prop :=
  ∃ t, Term.Exits run t ∧ t.Hands scope u

/-- **A run with a context that a unit cannot serve**, where it delivers a value or where it hands a
term over. -/
inductive Misplaced (scope : Scope) (run : List Term) : Prop where
  | exit {t : Term} : Term.Exits run t → t.context = .caller ∨ t.context = .unresolved →
      Misplaced scope run
  | fragment {u : Term} : Offers scope run u → u.context = .caller → Misplaced scope run

variable {scope : Scope} {t u : Term} {run : List Term}

namespace Offers

theorem of_hands (ht : t.isFrame = false) (h : t.Hands scope u) : Offers scope [t] u :=
  ⟨t, ⟨t, by simp, [], .here t, by simp, ht⟩, h⟩

end Offers

/-- What is neither computed nor loaded is handed over. -/
theorem term_eq_handOver (hd : t.isDirect scope = false) (hl : t.isLoaded = false) :
    term scope t = handOver t := by
  fun_cases term scope t with
  | case1 a c => simp [Term.isLoaded] at hl
  | case2 a d => simp [Term.isLoaded] at hl
  | case3 a d => simp [Term.isLoaded] at hl
  | case4 a c b l r t hc f hf =>
    rw [Term.isDirect, hc, hf] at hd
    simp at hd
  | case5 a b l r t hc hf =>
    rw [Term.isDirect, hc] at hd
    simp at hd
  | case6 a c b l r t hc hf hassign => rfl
  | case7 => rfl
  | case8 a c b k t hc =>
    obtain ⟨compilable, rfl⟩ : t.isCompilable scope = true ∧ c = .negate := by simpa using hc
    rw [Term.isDirect, compilable] at hd
    simp at hd
  | case9 => rfl
  | case10 => rfl

/-- What is computed in the unit is lowered by way of its operands. -/
theorem fails_of_operand {k : Term} (ht : t.isDirect scope = true) (hk : k ∈ t.kids)
    (h : Fails (term scope k)) : Fails (term scope t) := by
  fun_cases term scope t with
  | case4 a c b l r t hc f hf =>
    rcases List.mem_pair.mp hk with rfl | rfl
    · exact .first h
    · exact .later fun _ => .first h
  | case5 a b l r t hc hf =>
    rcases List.mem_pair.mp hk with rfl | rfl
    · exact .first h
    · exact .later fun _ => .later fun _ => .first h
  | case8 a c b k t hc =>
    obtain rfl := List.mem_singleton.mp hk
    exact .first h
  | case6 a c b l r t hc hf hassign => simp [Term.isDirect, hf, hassign] at ht
  | case7 a c b l r t hc => simp [Term.isDirect, t, hc] at ht
  | case9 a c b k t hc =>
    rw [Term.isDirect] at ht
    exact absurd (by simpa using ht) hc
  | _ => simp [Term.isDirect] at ht

/-- A term in the caller's context cannot be handed over, however deep it is. -/
theorem fails_of_hands (h : t.Hands scope u) (hu : u.context = .caller) :
    Fails (term scope t) := by
  obtain ⟨path, hp, hd, direct, loaded⟩ := h
  induction hp with
  | here t =>
    rw [term_eq_handOver direct loaded, handOver, if_pos hu]
    exact .throw _
  | down hk _ ih =>
    obtain ⟨ht, hd⟩ := List.forall_mem_cons.mp hd
    exact fails_of_operand ht hk (ih hu hd direct loaded)

theorem fails_deliver (ht : t.context = .caller ∨ t.context = .unresolved) (v : Option Operand) :
    Fails (deliver t v) := by
  unfold deliver
  rcases ht with ht | ht
  · rw [ht]
    exact .throw _
  · rw [ht]
    exact .throw _

theorem root_eq_of_not_frame (ht : t.isFrame = false) :
    root scope t = term scope t >>= deliver t := by
  cases t with
  | statement a t => cases ht
  | sequence a ts => cases ht
  | _ => rfl

theorem fails_roots {k : Term} {ts : List Term} (hk : k ∈ ts) (h : Fails (root scope k)) :
    Fails (roots scope ts) := by
  induction ts with
  | nil => cases hk
  | cons t ts ih =>
    rw [roots]
    rcases List.mem_cons.mp hk with rfl | hk
    · exact .first h
    · exact .later fun _ => ih hk

/-- A run fails where one of the terms that it delivers does. -/
theorem fails_of_exits (ht : Term.Exits run t) (h : Fails (term scope t >>= deliver t)) :
    Fails (roots scope run) := by
  obtain ⟨m, hm, path, hp, hf, last⟩ := ht
  refine fails_roots hm ?_
  clear hm
  induction hp with
  | here t =>
    rw [root_eq_of_not_frame last]
    exact h
  | @down t k n path hk _ ih =>
    obtain ⟨frame, hf⟩ := List.forall_mem_cons.mp hf
    have below := ih h hf last
    cases t with
    | statement a body =>
      obtain rfl : k = body := by simpa [Term.kids] using hk
      rw [root]
      exact below
    | sequence a ts =>
      rw [root]
      exact fails_roots hk below
    | _ => cases frame

/-! ### What has been handed over was offered -/

/-- A part of a run is reached from a member through statements and sequences. -/
theorem Parts.exists_path (h : Parts run t) :
    ∃ m ∈ run, ∃ path, m.Path path t ∧ ∀ w ∈ path, w.isFrame = true := by
  induction h with
  | member ht => exact ⟨_, ht, [], .here _, by simp⟩
  | @part t k _ frame hk ih =>
    obtain ⟨m, hm, path, hp, frames⟩ := ih
    refine ⟨m, hm, path ++ [t], hp.onward hk, ?_⟩
    simpa [or_imp, forall_and] using ⟨frames, frame⟩

/-- What the lowering gets to is reached from a term whose value is delivered, through operators
that are computed in the unit. -/
theorem Visits.exists_path (h : Visits scope run u) :
    ∃ t, Term.Exits run t ∧ ∃ path, t.Path path u ∧ ∀ w ∈ path, w.isDirect scope = true := by
  induction h with
  | @exit t ht frame =>
    obtain ⟨m, hm, path, hp, frames⟩ := ht.exists_path
    exact ⟨t, ⟨m, hm, path, hp, frames, frame⟩, [], .here t, by simp⟩
  | @operand w k _ direct hk ih =>
    obtain ⟨t, ht, path, hp, directs⟩ := ih
    refine ⟨t, ht, path ++ [w], hp.onward hk, ?_⟩
    simpa [or_imp, forall_and] using ⟨directs, direct⟩

theorem offers_of_mem_handoversOf {h : Handover} (hh : h ∈ handoversOf scope run) :
    Offers scope run h.term ∧ h.term.context ≠ .caller := by
  obtain ⟨handed, -⟩ := handsOver_of_mem hh
  obtain ⟨t, ht, path, hp, directs⟩ := handed.visits.exists_path
  exact ⟨⟨t, ht, path, hp, directs, handed.direct, handed.loaded⟩, handed.context⟩

/-! ### What becomes of a run with a wrong context -/

/-- **There is no code for a run with a wrong context.**

On the way to the place each step fails or goes on, and at the place no step goes on; so the
lowering fails from every draft. -/
theorem Misplaced.codeOf (h : Misplaced scope run) : ∃ e, codeOf scope run = .error e := by
  have fails : Fails (roots scope run) := by
    cases h with
    | exit ht hc => exact fails_of_exits ht (.later fun v => fails_deliver hc v)
    | fragment hu hc =>
      obtain ⟨t, ht, hu⟩ := hu
      exact fails_of_exits ht (.first (fails_of_hands hu hc))
  obtain ⟨e, d, hr⟩ := fails {}
  exact ⟨e, by rw [Lowering.codeOf, hr]⟩

end Lowering

open Lowering (Misplaced)

namespace Job

theorem runEdits_misplaced (job : Job) {run : List Term} (h : Misplaced job.scope run) (n : Nat) :
    ∃ e n', job.runEdits run n = .error e n' := by
  cases hr : job.runEdits run n with
  | error e n' => exact ⟨e, n', rfl⟩
  | ok edits n' =>
    obtain ⟨-, -, -, code, -, -, hcode, -⟩ := runEdits_eq_ok.mp hr
    obtain ⟨e, he⟩ := h.codeOf
    rw [he] at hcode
    cases hcode

end Job

/-- **A run with a context that a unit cannot serve is refused.**  All that it has handed over until
then are terms that it offers, in other contexts.  A lenient compilation makes no edits for the run,
and whatever unit it puts in is that of an attempted run whose contexts are right.

On the way to the wrong context the lowering stops with some diagnosis, if not there then earlier;
so there is no code, and the run is refused.  A unit among the edits has the code of its run, and so
the run is not one of these. -/
theorem Compiler.compile_misplaced {scope : Scope} {run : List Term} (h : Misplaced scope run)
    (owner : OwnerId) :
    (∀ strict n, ∃ e n', Job.runEdits ⟨scope, owner, strict⟩ run n = .error e n') ∧
    (∀ ho ∈ Lowering.handoversOf scope run,
      Lowering.Offers scope run ho.term ∧ ho.term.context ≠ .caller) ∧
    (∀ n, ∃ n', Job.regionEdits ⟨scope, owner, false⟩ (.compiled run) n = .ok [] n') ∧
    ∀ c : Compiler, c.options.strict = false → ∀ roots, ∃ edits c',
      c.compile scope owner roots = (.ok edits, c') ∧
      ∀ e ∈ edits, ∀ unit ∈ e.unit?, ∃ run' m m' nested,
        Job.Attempts ⟨scope, owner, false⟩ roots run' ∧
        Job.runEdits ⟨scope, owner, false⟩ run' m = .ok (nested ++ [e]) m' ∧
        unit.name = Job.unitName m ∧ ¬ Misplaced scope run' := by
  refine ⟨fun strict n => Job.runEdits_misplaced _ h n,
    fun ho => Lowering.offers_of_mem_handoversOf, fun n => ?_, fun c lenient roots => ?_⟩
  · obtain ⟨e, n', he⟩ := Job.runEdits_misplaced ⟨scope, owner, false⟩ h n
    exact ⟨n', by rw [Job.regionEdits, Job.tolerate, he]; rfl⟩
  · have tolerant : (Job.mk scope owner false).strict = false := rfl
    obtain ⟨edits, n', hedits⟩ := Job.exists_compileTerms tolerant roots c.nextUnit
    refine ⟨edits, _, compile_of_compileTerms (by rw [lenient]; exact hedits), ?_⟩
    intro e he unit hunit
    obtain ⟨run', m, m', nested, attempted, made, name, -⟩ :=
      Job.attempt_of_unit hedits e he unit hunit
    refine ⟨run', m, m', nested, attempted, made, name, fun misplaced => ?_⟩
    obtain ⟨e', n₁, refused⟩ := Job.runEdits_misplaced ⟨scope, owner, false⟩ misplaced m
    rw [refused] at made
    cases made

/-! Below the second operand of a difference there is a term in the caller's context. -/

def callerModulo : Term :=
  .op ⟨some ⟨⟨8⟩, ⟨6⟩, some ⟨2⟩⟩, .caller, none⟩ .modulo false
    [.leaf ⟨some ⟨⟨6⟩, ⟨6⟩, none⟩, .scalar, none⟩ (.lexical ⟨1⟩),
      .leaf ⟨some ⟨⟨7⟩, ⟨7⟩, none⟩, .scalar, none⟩ (.constant (.int 2))]

def callerNegation : Term :=
  .op ⟨some ⟨⟨9⟩, ⟨6⟩, some ⟨4⟩⟩, .scalar, none⟩ .negate false [callerModulo]

def callerDifference : Term :=
  .op ⟨some ⟨⟨10⟩, ⟨5⟩, some ⟨3⟩⟩, .scalar, none⟩ .subtract false
    [.leaf ⟨some ⟨⟨5⟩, ⟨5⟩, none⟩, .scalar, none⟩ (.lexical ⟨0⟩), callerNegation]

theorem callerDifference_misplaced : Misplaced sumScope [callerDifference] := by
  have modulo : callerModulo.Hands sumScope callerModulo :=
    ⟨[], .here _, by simp, by decide, rfl⟩
  have negation : callerNegation.Hands sumScope callerModulo :=
    modulo.up (by decide) (by simp [callerNegation, Term.kids])
  have difference : callerDifference.Hands sumScope callerModulo :=
    negation.up (by decide) (by simp [callerDifference, Term.kids])
  exact .fragment (.of_hands rfl difference) rfl

/-- The difference is refused, and beside a sum that is compiled it has no unit. -/
theorem Compiler.compile_misplaced_difference :
    (∃ e n', Job.runEdits ⟨sumScope, ⟨0⟩, true⟩ [callerDifference] 3 = .error e n') ∧
    (∃ n', Job.regionEdits (sumJob false) (.compiled [callerDifference]) 3 = .ok [] n') ∧
    ∃ edits c', compile ⟨Options.release.lenient, 3⟩ sumScope ⟨0⟩ [outerSum, callerDifference] =
        (.ok edits, c') ∧
      ∀ e ∈ edits, ∀ unit ∈ e.unit?, ∃ run' m m' nested,
        Job.Attempts (sumJob false) [outerSum, callerDifference] run' ∧
        Job.runEdits (sumJob false) run' m = .ok (nested ++ [e]) m' ∧
        unit.name = Job.unitName m ∧ ¬ Misplaced sumScope run' := by
  obtain ⟨refused, -, dropped, lenient⟩ := compile_misplaced callerDifference_misplaced ⟨0⟩
  exact ⟨refused true 3, dropped 3, lenient _ rfl _⟩

end Graft
