import Graft.Proofs.DeclaredTypes
import Graft.Proofs.MaximalRuns

/-! # Hidden variables

A hidden variable is not to be touched by compiled code.  That holds of every operator that is
taken, since no hidden variable can be reached from it; but a hidden variable that is a
statement by itself is taken with its run, and the unit loads it (`Compiler.compile_bare`).

So a statement is made for each unit and its run (`Lowering.Knows`).  Every slot that the code asks
for is that of an operator's result, that of a variable of the run which is not hidden, or that of a
hidden variable of the run which is a statement by itself; and the run is one that the compilation
attempts.  Which slots are asked for is an invariant of the lowering (`Lowering.asks_invariant`),
and which terms the lowering of a run gets to is known from its tour (`Lowering.Visits`).

Where no hidden variable is a statement by itself (`Term.exposes`), units know nothing of hidden
variables: the compiler gives the same answer wherever they live (`Scope.Moved`).  Two compilations
are compared for that, step by step, in scopes that differ only in the slots of hidden variables.
-/

namespace Graft

/-- The scopes declare the same variables with the same types, and those that are not hidden in
the same slots. -/
structure Scope.Moved (s s' : Scope) : Prop where
  types : ∀ d, (s'.get? d).map Declaration.type = (s.get? d).map Declaration.type
  slots : ∀ d v, s.get? d = some v → v.type.isHidden = false →
    ∃ v', s'.get? d = some v' ∧ v'.slot = v.slot

namespace Scope.Moved

variable {s s' : Scope}

theorem hidesAlike (h : s.Moved s') : s.HidesAlike s' := fun d => by
  rw [typeOf_eq, typeOf_eq, h.types]

end Scope.Moved

/-! ### Hidden variables that stand alone -/

namespace Term

variable (scope : Scope)

/-- Is the term a hidden variable? -/
def hides : Term → Bool
  | leaf _ (.lexical d) | leaf _ (.declaration d) => (scope.typeOf d).isHidden
  | _ => false

/-- Is a hidden variable a statement by itself here? -/
def exposes : Term → Bool
  | statement _ t => t.hides scope
  | sequence _ ts => ts.any fun t => t.hides scope
  | _ => false

variable {scope}

theorem reachesHidden_leaf (a : Attributes) (l : Leaf) :
    (leaf a l).reachesHidden scope = (leaf a l).hides scope := by
  cases l <;> simp [reachesHidden, hides]

/-- What is taken reaches no hidden variable, nor do its operands. -/
theorem not_reachesHidden_of_compilable {a : Attributes} {c : Operator} {b : Bool} {ts : List Term}
    (h : (op a c b ts).isCompilable scope = true) :
    (op a c b ts).reachesHidden scope = false ∧ ∀ t ∈ ts, t.reachesHidden scope = false := by
  rw [isCompilable, Bool.and_eq_true, Bool.and_eq_true, Bool.not_eq_true'] at h
  obtain ⟨⟨catalogued, whole⟩, -⟩ := h
  refine ⟨whole, ?_⟩
  rw [reachesHidden, catalogued, Bool.true_and] at whole
  clear catalogued
  induction ts with
  | nil => simp
  | cons t ts ih =>
    rw [reachesHiddenAny, Bool.or_eq_false_iff] at whole
    exact List.forall_mem_cons.mpr ⟨whole.1, ih whole.2⟩

end Term

/-- A member of a run that is a hidden variable is a statement by itself: it has no parts, so the
run is a block of statements. -/
theorem Region.exposed_of_mem_runs {scope : Scope} {ts run : List Term}
    (h : compiled run ∈ ofTerms scope ts) : ∀ m ∈ run, m.hides scope = true →
    ∃ u ∈ Term.preorders ts, u.exposes scope = true ∧ m ∈ u.kids := by
  intro m hm hhides
  obtain ⟨-, -, alone | block⟩ := fits_ofTerms scope ts _ h
  · obtain ⟨t, rfl, hleaf, -⟩ := alone
    obtain rfl := List.mem_singleton.mp hm
    cases m with
    | leaf a l => cases hleaf
    | _ => cases hhides
  · obtain ⟨a, ss, mem, before, after, rfl, -, -⟩ := block
    have part : m ∈ before ++ run ++ after := by simp [hm]
    refine ⟨_, mem, ?_, part⟩
    rw [Term.exposes, List.any_eq_true]
    exact ⟨m, part, hhides⟩

/-- The members of a run are not hidden variables, if none is a statement by itself. -/
theorem Region.not_hides_of_mem_runs {scope : Scope} {ts run : List Term}
    (h : compiled run ∈ ofTerms scope ts) (hexp : ∀ u ∈ Term.preorders ts, u.exposes scope = false) :
    ∀ m ∈ run, m.hides scope = false := by
  intro m hm
  rw [Bool.eq_false_iff]
  intro hhides
  obtain ⟨u, hu, hyes, -⟩ := exposed_of_mem_runs h m hm hhides
  simp [hexp u hu] at hyes

namespace Lowering

/-! ### Lowering does not depend on hidden variables -/

section Moved

variable {s s' : Scope}

theorem variableBox_moved (h : s.Moved s') {d : DeclId} (hd : (s.typeOf d).isHidden = false)
    (declares : Bool) : variableBox s' d declares = variableBox s d declares := by
  unfold variableBox
  have types := h.types d
  cases hv : s.get? d with
  | none =>
    rw [hv, Option.map_none, Option.map_eq_none_iff] at types
    rw [types]
  | some v =>
    rw [Scope.typeOf, hv] at hd
    obtain ⟨v', hv', hslot⟩ := h.slots d v hv hd
    rw [hv']
    dsimp only
    rw [hslot]

/-- A term that reaches no hidden variable is lowered alike. -/
theorem term_moved (h : s.Moved s') (t : Term) (ht : t.reachesHidden s = false) :
    term s' t = term s t := by
  refine term_congr (Q := fun t => t.reachesHidden s = false) h.hidesAlike.isCompilable ?_
    (fun hc => (Term.not_reachesHidden_of_compilable hc).2) t ht
  intro a l d hd hl declares
  refine variableBox_moved h ?_ declares
  cases l <;> cases hd <;> simpa [Term.reachesHidden] using hl

/-- An operator that is not taken is handed over. -/
theorem term_refused {scope : Scope} {a : Attributes} {c : Operator} {b : Bool} {ts : List Term}
    (hc : (Term.op a c b ts).isCompilable scope = false) :
    term scope (.op a c b ts) = handOver (.op a c b ts) := by
  rcases ts with _ | ⟨l, _ | ⟨r, _ | ⟨u, ts⟩⟩⟩ <;> simp [term, hc]

/-- A member of a run that is no hidden variable is lowered alike: an operator is taken, and then
reaches none, or is handed over. -/
theorem member_moved (h : s.Moved s') : ∀ t : Term, t.hides s = false → term s' t = term s t
  | .leaf a l, ht => term_moved h (.leaf a l) ((Term.reachesHidden_leaf a l).trans ht)
  | .op a c b ts, _ => by
    cases hc : (Term.op a c b ts).isCompilable s with
    | true => exact term_moved h _ (Term.not_reachesHidden_of_compilable hc).1
    | false => rw [term_refused hc, term_refused ((h.hidesAlike.isCompilable _).trans hc)]
  | .statement _ _, _ | .sequence _ _, _ | .control _ _ _, _ => by simp only [term]

/-- A run without hidden variables that exposes none is lowered alike. -/
theorem roots_moved (h : s.Moved s') {ts : List Term} (hts : ∀ m ∈ ts, m.hides s = false)
    (hexp : ∀ u ∈ Term.preorders ts, u.exposes s = false) : roots s' ts = roots s ts := by
  refine roots_congr (P := fun t => t.hides s = false ∧ ∀ u ∈ t.preorder, u.exposes s = false)
    (fun t ht => member_moved h t ht.1) (fun {t k} seq ht hk => ⟨?_, fun u hu => ?_⟩) ts
    fun t ht => ⟨hts t ht, fun u hu => hexp u (Term.mem_preorders.mpr ⟨t, ht, hu⟩)⟩
  · have here := ht.2 t (Term.mem_preorder_self t)
    cases t with
    | statement a body =>
      obtain rfl := List.mem_singleton.mp hk
      exact here
    | sequence a ts => exact (List.any_eq_false.mp here k hk |> Bool.eq_false_iff.mpr)
    | _ => exact seq.elim
  · exact ht.2 u (Term.preorder_trans hu (Term.mem_preorder_of_kid hk))

end Moved

end Lowering

/-! ### The slots that code asks for -/

/-- The pad slot that an instruction asks for. -/
def Instr.slot? : Instr → Option Slot
  | pad slot | clear slot => some slot
  | _ => none

/-- An operator that is computed in a unit was taken. -/
theorem Term.not_reachesHidden_of_isDirect {scope : Scope} {t k : Term} (h : t.isDirect scope = true)
    (hk : k ∈ t.kids) : k.reachesHidden scope = false := by
  unfold isDirect at h
  split at h
  · exact (not_reachesHidden_of_compilable (Bool.and_eq_true_iff.mp h).1).2 k hk
  · exact (not_reachesHidden_of_compilable (Bool.and_eq_true_iff.mp h).1).2 k hk
  · cases h

namespace Lowering

variable {scope : Scope} {run : List Term} {t : Term}

/-- The code of a draft asks only for slots that the run may ask for. -/
theorem asks_invariant (scope : Scope) (run : List Term) : Invariant scope run
    (fun d => ∀ i ∈ d.code, ∀ s ∈ i.slot?, Asks scope run s) fun _ _ => True := by
  have append : ∀ {code : List Instr} {i : Instr}, (∀ i ∈ code, ∀ s ∈ i.slot?, Asks scope run s) →
      (∀ s ∈ i.slot?, Asks scope run s) → ∀ j ∈ code ++ [i], ∀ s ∈ j.slot?, Asks scope run s := by
    intro code i all hi j hj
    rcases List.mem_append.mp hj with hj | hj
    · exact all j hj
    · rw [List.mem_singleton.mp hj]
      exact hi
  have slotless : ∀ {i : Instr}, i.slot? = none → ∀ s ∈ i.slot?, Asks scope run s := by
    intro i hi s hs
    rw [hi] at hs
    cases hs
  have asked : ∀ {slot : Slot}, Asks scope run slot → ∀ s ∈ some slot, Asks scope run s := by
    rintro slot hslot s ⟨⟩
    exact hslot
  exact {
    inner := fun {d i} hi hd _ => append hd (slotless (by cases i <;> first | rfl | cases hi))
    fetch := fun hi hd => append hd (slotless (by rcases hi with rfl | rfl <;> rfl))
    pad := fun hs hd => append hd (asked hs)
    clear := fun hs hd => append hd (asked hs)
    push := fun _ hd => append hd (slotless rfl)
    call := fun _ _ hd => append hd (slotless rfl)
    lost := fun _ _ _ => trivial
    stop := fun _ _ => trivial }

/-- **The slots that the code of a run asks for.** -/
theorem asks_of_codeOf {code : List Instr} (hcode : codeOf scope run = .ok code) :
    ∀ i ∈ code, ∀ s ∈ i.slot?, Asks scope run s := by
  obtain ⟨d, hd, rfl, -⟩ := (asks_invariant scope run).of_codeOf (by simp) hcode
  exact hd

/-- A hidden variable is got to only as a part of the run: no operator that is computed in the unit
is above it. -/
theorem Visits.part_of_hides (h : Visits scope run t) (ht : t.hides scope = true) : Parts run t := by
  cases h with
  | exit part _ => exact part
  | operand _ direct hk =>
    have clean := Term.not_reachesHidden_of_isDirect direct hk
    cases t with
    | leaf a l => simp [Term.reachesHidden_leaf, ht] at clean
    | _ => simp [Term.hides] at ht

/-- **A slot that the unit of a run may know.**  The lowering of the run gets to a variable there
that is not hidden; or it delivers a value that has its place there; or the variable there is
hidden, and is a part of the run and a statement by itself in the program. -/
inductive Knows (scope : Scope) (roots run : List Term) (s : Slot) : Prop where
  | visible {t : Term} {n : DeclId} {v : Declaration} : Visits scope run t → t.decl? = some n →
      scope.get? n = some v → v.type.isHidden = false → v.slot = s → Knows scope roots run s
  | result {t : Term} {o : Origin} : Parts run t → t.isFrame = false → t.origin = some o →
      o.targ = some s → Knows scope roots run s
  | bare {t p : Term} {n : DeclId} {v : Declaration} : Parts run t → t.hides scope = true →
      t.decl? = some n → scope.get? n = some v → v.slot = s → p ∈ Term.preorders roots →
      p.exposes scope = true → t ∈ p.kids → Knows scope roots run s

end Lowering

/-! ### Compiling -/

namespace Job

variable {scope s s' : Scope} {owner : OwnerId} {strict : Bool} {roots run : List Term}

/-- **The edits do not depend on where hidden variables live.** -/
theorem compileTerms_moved (h : s.Moved s')
    (hexp : ∀ u ∈ Term.preorders roots, u.exposes s = false) :
    compileTerms ⟨s', owner, strict⟩ roots = compileTerms ⟨s, owner, strict⟩ roots := by
  refine compileTerms_congr (P := fun u => u.exposes s = false) h.hidesAlike.ofTerms ?_ hexp
  intro ts run hexp hrun
  exact Lowering.roots_moved h (Region.not_hides_of_mem_runs hrun hexp) fun u hu =>
    hexp u (Region.mem_preorders_of_mem_run _ hrun hu)

/-- A hidden variable that is a part of an attempted run is a statement by itself.  It is a member
of the run, or one below a statement or a sequence of the run. -/
theorem Attempts.exposed {job : Job} {t : Term} (hrun : job.Attempts roots run)
    (ht : Lowering.Parts run t) (hhides : t.hides job.scope = true) :
    ∃ p ∈ Term.preorders roots, p.exposes job.scope = true ∧ t ∈ p.kids := by
  cases ht with
  | member ht =>
    cases hrun with
    | region mem => exact Region.exposed_of_mem_runs mem t ht hhides
    | nested hrun hh mem =>
      obtain ⟨p, hp, exposed⟩ := Region.exposed_of_mem_runs mem t ht hhides
      have handed := Lowering.term_mem_preorders_of_mem_handoversOf hh
      exact ⟨p, hrun.mem_preorders p (Term.mem_preorders_below handed hp), exposed⟩
  | @part p _ hp frame hk =>
    refine ⟨p, hrun.mem_preorders p hp.mem_preorders, ?_, hk⟩
    cases p with
    | statement a body =>
      obtain rfl := List.mem_singleton.mp hk
      exact hhides
    | sequence a ts => exact List.any_eq_true.mpr ⟨t, hk, hhides⟩
    | _ => cases frame

/-- What the unit of an attempted run asks for, it may know. -/
theorem Attempts.knows {job : Job} {s : Slot} (hrun : job.Attempts roots run)
    (h : Lowering.Asks job.scope run s) : Lowering.Knows job.scope roots run s := by
  cases h with
  | result part frame ho htarg => exact .result part frame ho htarg
  | @loaded t n v ht hn hv hs =>
    cases hidden : v.type.isHidden with
    | false => exact .visible ht hn hv hidden hs
    | true =>
      have hides : t.hides job.scope = true := by
        unfold Term.decl? at hn
        split at hn
        · cases hn
          simpa [Term.hides, Scope.typeOf, hv] using hidden
        · cases hn
          simpa [Term.hides, Scope.typeOf, hv] using hidden
        · cases hn
      have part := ht.part_of_hides hides
      obtain ⟨p, hp, exposed, hk⟩ := hrun.exposed part hides
      exact .bare part hides hn hv hs hp exposed hk

end Job

/-- **A unit knows a hidden variable only if that is a statement by itself.**  Every unit in the
edits has the code of a run that was attempted, and each slot that it asks for is known to that run:
it is that of a result, of a variable that is not hidden, or of a hidden one that is a statement by
itself.  Without such statements the same edits are the answer wherever hidden variables live.

For the first part the edits are traced back to their runs; what a run asks for is an invariant of
its lowering, and an operator that is computed in a unit was taken, so it reaches no hidden
variable.  For the second, regions depend only on which variables are hidden, and no step of a
lowering looks at the slot of one. -/
theorem Compiler.compile_hidden {c c' : Compiler} {scope : Scope} {owner : OwnerId}
    {roots : List Term} {edits : List Edit} (h : c.compile scope owner roots = (.ok edits, c')) :
    (∀ e ∈ edits, ∀ unit ∈ e.unit?, ∃ run,
      Job.Attempts ⟨scope, owner, c.options.strict⟩ roots run ∧
      Lowering.codeOf scope run = .ok unit.code ∧
      ∀ i ∈ unit.code, ∀ slot ∈ i.slot?, Lowering.Knows scope roots run slot) ∧
    ((∀ u ∈ Term.preorders roots, u.exposes scope = false) → ∀ scope', scope.Moved scope' →
      c.compile scope' owner roots = (.ok edits, c')) := by
  constructor
  · obtain ⟨n, hn⟩ := compile_eq_ok h
    intro e he unit hunit
    obtain ⟨run, -, -, -, attempted, -, -, hcode⟩ := Job.attempt_of_unit hn e he unit hunit
    exact ⟨run, attempted, hcode, fun i hi slot hslot =>
      attempted.knows (Lowering.asks_of_codeOf hcode i hi slot hslot)⟩
  · intro hexp scope' hmoved
    rw [← h, compile, compile, Job.compileTerms_moved hmoved hexp]

/-- A sum of which the hidden variable is in the operand that is handed over. -/
theorem Compiler.compile_hidden_sum : ∃ edits c',
    Compiler.compile {} guardedScope ⟨0⟩ [sumTerm] = (.ok edits, c') ∧
    (∀ e ∈ edits, ∀ unit ∈ e.unit?, ∃ run,
      Job.Attempts ⟨guardedScope, ⟨0⟩, true⟩ [sumTerm] run ∧
      Lowering.codeOf guardedScope run = .ok unit.code ∧
      ∀ i ∈ unit.code, ∀ slot ∈ i.slot?, Lowering.Knows guardedScope [sumTerm] run slot) ∧
    ∀ scope', guardedScope.Moved scope' →
      Compiler.compile {} scope' ⟨0⟩ [sumTerm] = (.ok edits, c') := by
  obtain ⟨edits, c', hc⟩ := sumTerm_compiles {}
    (show sumTerm.isCompilable guardedScope = true by decide) rfl rfl
  obtain ⟨knows, moved⟩ := Compiler.compile_hidden hc
  exact ⟨edits, c', hc, knows, moved (by decide)⟩

/-! ### Statements that are variables -/

section Bare

variable {scope : Scope} {a b : Attributes} {d : DeclId} {v : Declaration}

theorem Lowering.roots_bare (hv : scope.get? d = some v) (hb : b.context = .void) :
    roots scope [.statement a (.leaf b (.lexical d))] {} =
      .ok () { code := [.pad v.slot], boxes := 1 } := by
  have load : term scope (.leaf b (.lexical d)) {} =
      .ok (some (.box 0)) { code := [.pad v.slot], boxes := 1 } := by
    rw [term, variableBox, hv]
    rfl
  have done : root scope (.statement a (.leaf b (.lexical d))) {} =
      .ok () { code := [.pad v.slot], boxes := 1 } := by
    simp only [root]
    rw [Effect.bind_ok load, deliver, Term.context, Term.attrs, hb]
    rfl
  rw [roots, Effect.bind_ok done, roots]
  rfl

/-- **A variable that is a statement by itself is loaded by a unit, hidden or not.** -/
theorem Compiler.compile_bare (c : Compiler) (owner : OwnerId) {e : Attributes} {o : Origin}
    (hv : scope.get? d = some v) (hb : b.context = .void) (ho : b.origin = some o) :
    ∃ c', c.compile scope owner [.sequence e [.statement a (.leaf b (.lexical d))]] =
      (.ok [⟨owner, .replace o.start o.root ⟨Job.unitName c.nextUnit, [.pad v.slot], []⟩ false⟩],
        c') := by
  have lowered := Lowering.roots_bare (a := a) hv hb
  have span : Job.span [.statement a (.leaf b (.lexical d))] = .ok (o.start, o.root) := by
    simp [Job.span, Term.spanFirst, Term.spanLast, Term.origin, Term.attrs, ho]
  exact c.compile_statements owner e (by simp [Term.isCompilable]) span
    (by rw [Lowering.handoversOf, lowered]) (by rw [Lowering.codeOf, lowered])

end Bare

def trapScope : Scope := ⟨#[⟨"t", ⟨0⟩, .hidden⟩]⟩

/-- A hidden variable in a statement of its own. -/
def trapProgram : Term :=
  .sequence ⟨none, .void, none⟩ [.statement ⟨some ⟨⟨0⟩, ⟨0⟩, none⟩, .void, none⟩
    (.leaf ⟨some ⟨⟨1⟩, ⟨1⟩, none⟩, .void, none⟩ (.lexical ⟨0⟩))]

/-- A unit loads the hidden variable. -/
theorem Compiler.compile_bare_hidden : ∃ name c', (trapScope.typeOf ⟨0⟩).isHidden = true ∧
    Compiler.compile {} trapScope ⟨1⟩ [trapProgram] =
      (.ok [⟨⟨1⟩, .replace ⟨1⟩ ⟨1⟩ ⟨name, [.pad ⟨0⟩], []⟩ false⟩], c') := by
  have loaded : trapScope.get? ⟨0⟩ = some ⟨"t", ⟨0⟩, .hidden⟩ := rfl
  obtain ⟨c', hc⟩ := Compiler.compile_bare {} ⟨1⟩ loaded
    (show Attributes.context ⟨some ⟨⟨1⟩, ⟨1⟩, none⟩, .void, none⟩ = .void from rfl) rfl
  exact ⟨_, c', rfl, hc⟩

end Graft
