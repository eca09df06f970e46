import Graft.Proofs.Batches

/-! # Compiling in one pass

The compiler lowers a run first and then compiles what is below the terms that the run hands over.
It could as well do that as it goes.  Where a term is handed over, what is below it is compiled
there and then, and its edits are recorded; the term's fragment is detached; and the code goes on
with the call.  When the run is done, its code goes to an *engine* that makes a function of it, and
that may refuse it.

This module has that compiler, for any engine, and shows that it gives the same answers if the
engine takes whatever it is handed (`Engine.Accepts`).  The one-pass compiler is given as an
equation: what is compiled below a handed-over term is compiled by the same compiler, so a compiler
is one-pass if it is a solution.  There is exactly one, and it is `Job.compileTerms`
(`OnePass.solves_iff`); that it is the only one follows by induction on the size of the terms.

Step by step, the two passes are tied by `OnePass.Merges`.  A lowering step appends to the list of
what was handed over; the step of the one pass does what compiling the appended terms does, in their
order, and leaves the same draft.  If one of these compilations fails, the one pass has failed with
the same diagnosis, wherever the lowering would have got to; if the lowering fails, all that it had
handed over by then was compiled before.  In both cases the same numbers are used up, so the units
that come later have the same names.
-/

namespace Graft

/-- **What makes a function of the code of a unit**, or refuses to. -/
structure Engine (ε : Type) where
  /-- The unit of a name, with its code and the fragments that it calls. -/
  define : String → List Instr → List OpId → Except ε CompiledUnit

/-- **The engine refuses no code**, and a unit is what it was made of. -/
def Engine.Accepts {ε : Type} (engine : Engine ε) : Prop :=
  ∀ name code fragments, engine.define name code fragments = .ok ⟨name, code, fragments⟩

namespace OnePass

variable {α β ε : Type}

/-- A step of a compilation that has an engine; it fails with a diagnosis or with the engine's
reason. -/
abbrev SessionM (ε : Type) := EStateM (Diagnosis ⊕ ε) Nat

/-- A unit under construction, with the edits and the fragments that were recorded for it. -/
structure Emission where
  draft : Draft := {}
  /-- The number of the next unit. -/
  next : Nat
  edits : List Edit := []
  fragments : List OpId := []

abbrev EmitM (ε : Type) := EStateM (Diagnosis ⊕ ε) Emission

/-- A step that knows no engine. -/
def lift (x : CompileM α) : SessionM ε α := x.adaptExcept .inl

/-- A step on the code. -/
def onDraft (x : LowerM α) : EmitM ε α := fun s =>
  match x s.draft with
  | .ok a d => .ok a { s with draft := d }
  | .error e d => .error (.inl e) { s with draft := d }

/-- A compilation in the midst of an emission. -/
def inSession (x : SessionM ε α) : EmitM ε α := fun s =>
  match x s.next with
  | .ok a n => .ok a { s with next := n }
  | .error e n => .error e { s with next := n }

/-- Record edits. -/
def absorb (edits : List Edit) : EmitM ε PUnit := modify fun s => { s with edits := s.edits ++ edits }

/-! ### The compiler -/

section Compiler

variable (job : Job) (below : List Term → SessionM ε (List Edit))

/-- Leave a term to the interpreter: compile what is below it, detach it, and call it. -/
def handOver (t : Term) : EmitM ε (Option Operand) :=
  if t.context = .caller then throw (.inl (.unimplementedContext .caller))
  else do
    absorb (← inSession (below t.kids))
    match t.detachment with
    | .error e => throw (.inl e)
    | .ok f =>
      absorb [job.detachEdit f]
      modify fun s : Emission => { s with fragments := s.fragments ++ [f.root] }
      onDraft (Lowering.emit (.call f.root))
      if t.context = .scalar then return some (.box (← onDraft (Lowering.emitBox .pop)))
      else return none

/-- Emit the code of a term. -/
def term : Term → EmitM ε (Option Operand)
  | .leaf _ (.constant c) => onDraft (Lowering.constant c)
  | .leaf _ (.lexical d) => onDraft (Lowering.variableBox job.scope d false)
  | .leaf _ (.declaration d) => onDraft (Lowering.variableBox job.scope d true)
  | .op a c b [l, r] =>
    let t := Term.op a c b [l, r]
    if t.isCompilable job.scope then
      match c.floatOp? with
      | some f => do
        let x ← term l
        let y ← term r
        onDraft (Lowering.binary f t.isAssigning (pure x) (pure y))
      | none =>
        if c = .assign then do
          let dst ← onDraft (Lowering.toTarget (← term l))
          let v ← term r
          onDraft (Lowering.assignment (pure (some (.box dst))) (pure v))
        else handOver job below t
    else handOver job below t
  | .op a c b [k] =>
    let t := Term.op a c b [k]
    if t.isCompilable job.scope && c = .negate then do
      let v ← term k
      onDraft (Lowering.negation (pure v))
    else handOver job below t
  | t => handOver job below t

mutual

/-- Emit the code of a member of a run. -/
def root : Term → EmitM ε Unit
  | .statement _ t => root t
  | .sequence _ ts => roots ts
  | t => do onDraft (Lowering.deliver t (← term job below t))

/-- Emit the code of the members of a run one after the other. -/
def roots : List Term → EmitM ε Unit
  | [] => return ()
  | t :: ts => do
    root t
    roots ts

end

/-- What is left of an emission; its numbers are used up if it fails. -/
def emission (x : EmitM ε Unit) : SessionM ε Emission := fun n =>
  match x { next := n } with
  | .ok _ s => .ok s s.next
  | .error e s => .error e s.next

/-- The engine's answer. -/
def ofEngine (x : Except ε α) : SessionM ε α :=
  match x with
  | .ok a => return a
  | .error e => throw (.inr e)

variable (engine : Engine ε)

/-- Compile a run to a batch of edits. -/
def compileRun (run : List Term) : SessionM ε (List Edit) := do
  let (first, last) ← lift (Job.ofExcept (Job.span run))
  let n ← lift Job.newUnit
  let s ← emission (roots job below run)
  let unit ← ofEngine (engine.define (Job.unitName n) s.draft.code s.fragments)
  return s.edits ++ [job.replaceEdit first last unit]

def regionEdits : Region → SessionM ε (List Edit)
  | .interpreted _ => return []
  | .compiled run => job.tolerate (compileRun job below engine run)

/-- Compile the runs of a list of terms. -/
def compileTerms (roots : List Term) : SessionM ε (List Edit) :=
  List.flatten <$> (Region.partition job.scope roots).mapM (regionEdits job below engine)

end Compiler

/-! ### Steps on the code -/

/-- The draft with another list of what was handed over. -/
def relist (hs : List Handover) :
    EStateM.Result Diagnosis Draft α → EStateM.Result Diagnosis Draft α
  | .ok a d => .ok a { d with handovers := hs }
  | .error e d => .error e { d with handovers := hs }

/-- A step that hands nothing over, and does not ask what was. -/
def Steady (x : LowerM α) : Prop :=
  ∀ (d : Draft) (hs : List Handover), x { d with handovers := hs } = relist hs (x d)

namespace Steady

/-- The list is the same after the step. -/
theorem handovers {x : LowerM α} (h : Steady x) (d : Draft) :
    (Effect.stateOf (x d)).handovers = d.handovers := by
  have same := h d d.handovers
  cases hx : x d with
  | ok a d' =>
    rw [hx] at same
    exact congrArg (fun r => (Effect.stateOf r).handovers) same
  | error e d' =>
    rw [hx] at same
    exact congrArg (fun r => (Effect.stateOf r).handovers) same

theorem constant (c : Constant) : Steady (Lowering.constant c) := by
  cases c <;> exact fun _ _ => rfl

theorem variableBox (scope : Scope) (n : DeclId) (declares : Bool) :
    Steady (Lowering.variableBox scope n declares) := by
  intro d hs
  unfold Lowering.variableBox
  cases scope.get? n with
  | none => rfl
  | some v => cases declares <;> rfl

theorem toTarget (v : Option Operand) : Steady (Lowering.toTarget v) := by
  rcases v with - | (r | i | u | b) <;> exact fun _ _ => rfl

theorem negation (v : Option Operand) : Steady (Lowering.negation (pure v)) := by
  rcases v with - | (r | i | u | b) <;> exact fun _ _ => rfl

theorem assignment (dst : Nat) (v : Option Operand) :
    Steady (Lowering.assignment (pure (some (.box dst))) (pure v)) := by
  rcases v with - | (r | i | u | b) <;> exact fun _ _ => rfl

theorem binary (f : FloatOp) (assigning : Bool) (l r : Option Operand) :
    Steady (Lowering.binary f assigning (pure l) (pure r)) := by
  rcases l with - | (l | l | l | l) <;> rcases r with - | (r | r | r | r) <;> cases assigning <;>
    exact fun _ _ => rfl

theorem deliver (t : Term) (v : Option Operand) : Steady (Lowering.deliver t v) := by
  intro d hs
  unfold Lowering.deliver
  cases t.context
  case scalar =>
    cases v with
    | none => rfl
    | some v =>
      unfold Lowering.pushValue
      dsimp only
      rcases Lowering.destination t v with e | (b | slot | -)
      · rfl
      · rfl
      all_goals cases v <;> rfl
  all_goals rfl

end Steady

/-! ### One pass and two -/

section Merges

variable {job : Job} {below : List Term → SessionM ε (List Edit)}

/-- What becomes of the terms that were handed over: the roots of their fragments and their edits. -/
def partsOf (job : Job) (hs : List Handover) : CompileM (List (OpId × List Edit)) :=
  hs.mapM fun h => job.handoverEdits h (job.compileTerms h.term.kids)

/-- **How a pass ends that was begun with `s`**, if the lowering ends with `x` and compiling what it
has handed over ends with `y`. -/
def Ends (s : Emission) (x : EStateM.Result Diagnosis Draft α)
    (y : EStateM.Result Diagnosis Nat (List (OpId × List Edit)))
    (z : EStateM.Result (Diagnosis ⊕ ε) Emission α) : Prop :=
  match y, x with
  | .error e n, _ => ∃ s', z = .error (.inl e) s' ∧ s'.next = n
  | .ok _ n, .error e _ => ∃ s', z = .error (.inl e) s' ∧ s'.next = n
  | .ok parts n, .ok a d => z = .ok a ⟨{ d with handovers := [] }, n, s.edits ++ parts.flatMap Prod.snd,
      s.fragments ++ parts.map Prod.fst⟩

/-- **The step does in one pass what the lowering step and compiling what it hands over do in two.** -/
def Merges (job : Job) (x : LowerM α) (z : EmitM ε α) : Prop :=
  ∀ (d : Draft) (s : Emission), s.draft = { d with handovers := [] } →
    ∃ hs, (Effect.stateOf (x d)).handovers = d.handovers ++ hs ∧
      Ends s (x d) (partsOf job hs s.next) (z s)

theorem partsOf_append (hs hs' : List Handover) : partsOf job (hs ++ hs') = (do
    let parts ← partsOf job hs
    let rest ← partsOf job hs'
    return parts ++ rest) := by
  simp [partsOf]

namespace Merges

theorem pure (a : α) : Merges job (Pure.pure a : LowerM α) (Pure.pure a : EmitM ε α) := by
  rintro d ⟨_, n, edits, fragments⟩ rfl
  refine ⟨[], (List.append_nil _).symm, ?_⟩
  show EStateM.Result.ok a _ = _
  simp

theorem onDraft {x : LowerM α} (h : Steady x) : Merges job x (onDraft x : EmitM ε α) := by
  rintro d ⟨_, n, edits, fragments⟩ rfl
  refine ⟨[], by rw [h.handovers, List.append_nil], ?_⟩
  have same := h d []
  cases hx : x d with
  | ok a d' =>
    rw [hx] at same
    show OnePass.onDraft x _ = _
    unfold OnePass.onDraft
    dsimp only
    rw [same]
    simp [relist]
  | error e d' =>
    rw [hx] at same
    refine ⟨⟨{ d' with handovers := [] }, n, edits, fragments⟩, ?_, rfl⟩
    unfold OnePass.onDraft
    dsimp only
    rw [same]
    rfl

/-- After a step that fails nothing else is done. -/
theorem ends_bind_of_error {s : Emission} {e : Diagnosis} {d₁ : Draft} {z : EmitM ε α}
    {g : α → EmitM ε β}
    {parts : EStateM.Result Diagnosis Nat (List (OpId × List Edit))}
    (h : Ends s (.error e d₁ : EStateM.Result Diagnosis Draft α) parts (z s)) :
    Ends s (.error e d₁ : EStateM.Result Diagnosis Draft β) parts ((z >>= g) s) := by
  cases parts with
  | error e' n =>
    obtain ⟨s', hz, hn⟩ := h
    exact ⟨s', Effect.bind_error hz, hn⟩
  | ok made n =>
    obtain ⟨s', hz, hn⟩ := h
    exact ⟨s', Effect.bind_error hz, hn⟩

/-- Two steps.  If compiling what the first one hands over fails, the second one does not matter. -/
theorem bind {x : LowerM α} {z : EmitM ε α} {f : α → LowerM β} {g : α → EmitM ε β}
    (hx : Merges job x z) (hf : ∀ a, Merges job (f a) (g a)) : Merges job (x >>= f) (z >>= g) := by
  intro d s hs
  obtain ⟨first, listed, ends⟩ := hx d s hs
  cases hxd : x d with
  | error e d₁ =>
    rw [hxd] at ends listed
    rw [Effect.bind_error hxd]
    exact ⟨first, listed, ends_bind_of_error ends⟩
  | ok a d₁ =>
    rw [hxd] at ends listed
    rw [Effect.bind_ok hxd]
    have both : ∀ {second : List Handover},
        (Effect.stateOf (f a d₁)).handovers = d₁.handovers ++ second →
        (Effect.stateOf (f a d₁)).handovers = d.handovers ++ (first ++ second) := by
      intro second h
      rw [h, ← List.append_assoc]
      exact congrArg (· ++ second) listed
    cases hp : partsOf job first s.next with
    | error e n =>
      rw [hp] at ends
      obtain ⟨s', hz, hn⟩ := ends
      obtain ⟨second, listed', -⟩ := hf a d₁ { s' with draft := { d₁ with handovers := [] } } rfl
      refine ⟨first ++ second, both listed', ?_⟩
      rw [partsOf_append, Effect.bind_error hp, Effect.bind_error hz]
      exact ⟨s', rfl, hn⟩
    | ok parts n =>
      rw [hp] at ends
      obtain ⟨second, listed', ends'⟩ := hf a d₁ ⟨{ d₁ with handovers := [] }, n,
        s.edits ++ parts.flatMap Prod.snd, s.fragments ++ parts.map Prod.fst⟩ rfl
      refine ⟨first ++ second, both listed', ?_⟩
      rw [partsOf_append, Effect.bind_ok hp, Effect.bind_ok ends]
      cases hp' : partsOf job second n with
      | error e n' =>
        rw [Effect.bind_error hp']
        rw [hp'] at ends'
        exact ends'
      | ok rest n' =>
        rw [Effect.bind_ok hp']
        rw [hp'] at ends'
        cases hfd : f a d₁ with
        | error e d₂ =>
          rw [hfd] at ends'
          exact ends'
        | ok b d₂ =>
          rw [hfd] at ends'
          show g a _ = _
          rw [show g a _ = _ from ends']
          simp [List.append_assoc]

/-- A term that is handed over: its edits are recorded where the lowering lists it. -/
theorem handOver {t : Term} (hb : below t.kids = lift (job.compileTerms t.kids)) :
    Merges job (Lowering.handOver t) (handOver job below t) := by
  rintro d ⟨_, n, edits, fragments⟩ rfl
  unfold Lowering.handOver OnePass.handOver
  by_cases hc : t.context = .caller
  · simp only [if_pos hc]
    exact ⟨[], (List.append_nil _).symm, _, rfl, rfl⟩
  · simp only [if_neg hc, hb]
    have single : partsOf job [⟨t, t.detachment⟩] = (do
        let part ← job.handoverEdits ⟨t, t.detachment⟩ (job.compileTerms t.kids)
        return [part]) := by
      simp [partsOf]
    refine ⟨[⟨t, t.detachment⟩], ?_, ?_⟩
    · cases t.detachment with
      | error e => rfl
      | ok f =>
        dsimp only
        split <;> rfl
    · rw [single]
      cases hk : job.compileTerms t.kids n with
      | error e n' =>
        have nested : inSession (lift (job.compileTerms t.kids) : SessionM ε (List Edit))
            ⟨{ d with handovers := [] }, n, edits, fragments⟩ =
            .error (.inl e) ⟨{ d with handovers := [] }, n', edits, fragments⟩ := by
          simp [inSession, lift, EStateM.adaptExcept, hk]
        have part : job.handoverEdits ⟨t, t.detachment⟩ (job.compileTerms t.kids) n = .error e n' :=
          Effect.bind_error hk
        rw [Effect.bind_error part]
        exact ⟨_, Effect.bind_error nested, rfl⟩
      | ok nested n' =>
        have made : inSession (lift (job.compileTerms t.kids) : SessionM ε (List Edit))
            ⟨{ d with handovers := [] }, n, edits, fragments⟩ =
            .ok nested ⟨{ d with handovers := [] }, n', edits, fragments⟩ := by
          simp [inSession, lift, EStateM.adaptExcept, hk]
        rw [Effect.bind_ok made]
        cases hd : t.detachment with
        | error e =>
          have part : job.handoverEdits ⟨t, .error e⟩ (job.compileTerms t.kids) n = .error e n' :=
            Effect.bind_ok hk
          rw [Effect.bind_error part]
          exact ⟨_, rfl, rfl⟩
        | ok f =>
          have part : job.handoverEdits ⟨t, .ok f⟩ (job.compileTerms t.kids) n =
              .ok (f.root, nested ++ [job.detachEdit f]) n' := Effect.bind_ok hk
          rw [Effect.bind_ok part]
          dsimp only
          split
          · show EStateM.Result.ok _ _ = _
            simp
          · show EStateM.Result.ok _ _ = _
            simp

/-- **Terms.**  Operands come one after the other, and then the code that uses them. -/
theorem term (t : Term) (hb : ∀ u ∈ t.preorder, below u.kids = lift (job.compileTerms u.kids)) :
    Merges job (Lowering.term job.scope t) (term job below t) := by
  fun_induction Lowering.term job.scope t with
  | case1 a c =>
    rw [OnePass.term]
    exact .onDraft (.constant c)
  | case2 a n =>
    rw [OnePass.term]
    exact .onDraft (.variableBox job.scope n false)
  | case3 a n =>
    rw [OnePass.term]
    exact .onDraft (.variableBox job.scope n true)
  | case4 a c b l r t hc f hf ihl ihr =>
    rw [OnePass.term, if_pos hc, hf]
    refine .bind (ihl fun u hu => hb u ?_) fun x => .bind (ihr fun u hu => hb u ?_) fun y =>
      .onDraft (.binary f _ x y)
    · simp [Term.preorder, Term.preorders, hu]
    · simp [Term.preorder, Term.preorders, hu]
  | case5 a b l r t hc hf ihl ihr =>
    rw [OnePass.term, if_pos hc, hf]
    refine .bind (ihl fun u hu => hb u ?_) fun x => .bind (.onDraft (.toTarget x)) fun dst =>
      .bind (ihr fun u hu => hb u ?_) fun v => .onDraft (.assignment dst v)
    · simp [Term.preorder, Term.preorders, hu]
    · simp [Term.preorder, Term.preorders, hu]
  | case6 a c b l r t hc hf assign =>
    rw [OnePass.term, if_pos hc, hf]
    dsimp only
    rw [if_neg assign]
    exact .handOver (hb _ (Term.mem_preorder_self _))
  | case7 a c b l r t hc =>
    rw [OnePass.term, if_neg hc]
    exact .handOver (hb _ (Term.mem_preorder_self _))
  | case8 a c b k t hc ih =>
    rw [OnePass.term, if_pos hc]
    refine .bind (ih fun u hu => hb u ?_) fun v => .onDraft (.negation v)
    simp [Term.preorder, Term.preorders, hu]
  | case9 a c b k t hc =>
    rw [OnePass.term, if_neg hc]
    exact .handOver (hb _ (Term.mem_preorder_self _))
  | case10 t =>
    rw [OnePass.term]
    · exact .handOver (hb _ (Term.mem_preorder_self _))
    all_goals assumption

/-- A term whose value is delivered. -/
theorem leave (t : Term) (hb : ∀ u ∈ t.preorder, below u.kids = lift (job.compileTerms u.kids)) :
    Merges job (Lowering.term job.scope t >>= Lowering.deliver t)
      (OnePass.term job below t >>= fun v => OnePass.onDraft (Lowering.deliver t v)) :=
  .bind (.term t hb) fun v => .onDraft (.deliver t v)

mutual

theorem root : ∀ t : Term, (∀ u ∈ t.preorder, below u.kids = lift (job.compileTerms u.kids)) →
    Merges job (Lowering.root job.scope t) (root job below t)
  | .statement _ t, hb => by
    rw [Lowering.root, OnePass.root]
    exact root t fun u hu => hb u (by simp [Term.preorder, hu])
  | .sequence _ ts, hb => by
    rw [Lowering.root, OnePass.root]
    exact roots ts fun u hu => hb u (by simp [Term.preorder, hu])
  | .leaf _ _, hb | .op _ _ _ _, hb | .control _ _ _, hb => by
    rw [Lowering.root, OnePass.root]
    · exact .leave _ hb
    all_goals simp

/-- **Runs**, member by member. -/
theorem roots : ∀ ts : List Term,
    (∀ u ∈ Term.preorders ts, below u.kids = lift (job.compileTerms u.kids)) →
    Merges job (Lowering.roots job.scope ts) (roots job below ts)
  | [], _ => by
    rw [Lowering.roots, OnePass.roots]
    exact .pure ()
  | t :: ts, hb => by
    rw [Lowering.roots, OnePass.roots]
    exact .bind (root t fun u hu => hb u (by simp [Term.preorders, hu])) fun _ =>
      roots ts fun u hu => hb u (by simp [Term.preorders, hu])

end

end Merges

end Merges

/-! ### The compiler -/

section Compiler

variable {job : Job} {below : List Term → SessionM ε (List Edit)} {engine : Engine ε}

/-- What an emission has made: the edits, the fragments and the code. -/
def Emission.made (s : Emission) : List Edit × List OpId × List Instr :=
  (s.edits, s.fragments, s.draft.code)

/-- What is made of a run in one pass is what is made of it in two. -/
theorem made_emission {run : List Term}
    (hb : ∀ u ∈ Term.preorders run, below u.kids = lift (job.compileTerms u.kids)) :
    Emission.made <$> emission (roots job below run) = lift (do
      let parts ← partsOf job (Lowering.handoversOf job.scope run)
      let code ← Job.ofExcept (Lowering.codeOf job.scope run)
      return (parts.flatMap Prod.snd, parts.map Prod.fst, code)) := by
  funext m
  obtain ⟨hs, listed, ends⟩ := Merges.roots run hb {} { next := m } rfl
  have failed : ∀ {e : Diagnosis} {n : Nat}, (∃ s', roots job below run { next := m } =
      .error (.inl e) s' ∧ s'.next = n) →
      emission (roots job below run) m = .error (.inl e) n := by
    rintro e n ⟨s', hz, rfl⟩
    rw [emission, hz]
  unfold lift EStateM.adaptExcept Lowering.handoversOf Lowering.codeOf
  cases hr : Lowering.roots job.scope run {} with
  | error e d =>
    rw [hr] at ends listed
    obtain rfl : d.handovers = hs := listed
    cases hp : partsOf job d.handovers m with
    | error e' n =>
      rw [hp] at ends
      rw [Effect.map_error (failed ends), Effect.bind_error hp]
    | ok parts n =>
      rw [hp] at ends
      rw [Effect.map_error (failed ends), Effect.bind_ok hp]
      rfl
  | ok u d =>
    rw [hr] at ends listed
    obtain rfl : d.handovers = hs := listed
    cases hp : partsOf job d.handovers m with
    | error e n =>
      rw [hp] at ends
      rw [Effect.map_error (failed ends), Effect.bind_error hp]
    | ok parts n =>
      rw [hp] at ends
      have done : emission (roots job below run) m = .ok ⟨{ d with handovers := [] }, n,
          parts.flatMap Prod.snd, parts.map Prod.fst⟩ n := by
        rw [emission, show roots job below run _ = _ from ends]
        rfl
      rw [Effect.map_ok done, Effect.bind_ok hp]
      rfl

/-- **A run is compiled alike in one pass**, if what is below its terms is. -/
theorem compileRun_lift (accepts : engine.Accepts) {run : List Term}
    (hb : ∀ u ∈ Term.preorders run, below u.kids = lift (job.compileTerms u.kids)) :
    compileRun job below engine run = lift (job.runEdits run) := by
  rw [compileRun, Job.runEdits_eq]
  unfold lift
  rw [Effect.adapt_bind]
  refine bind_congr fun ends => ?_
  obtain ⟨first, last⟩ := ends
  rw [Effect.adapt_bind]
  refine bind_congr fun n => ?_
  -- of the emission only what it has made is used, and the engine takes that
  have used : (do
      let s ← emission (roots job below run)
      let unit ← ofEngine (engine.define (Job.unitName n) s.draft.code s.fragments)
      return s.edits ++ [job.replaceEdit first last unit]) = (do
      let made ← Emission.made <$> emission (roots job below run)
      return made.1 ++ [job.replaceEdit first last ⟨Job.unitName n, made.2.2, made.2.1⟩]) := by
    rw [bind_map_left]
    refine bind_congr fun s => ?_
    rw [accepts]
    rfl
  rw [used, made_emission hb, lift]
  simp only [Effect.adapt_bind, bind_assoc]
  rfl

/-- A list of terms, if the terms that are smaller are compiled alike. -/
theorem compileTerms_lift (accepts : engine.Accepts) {roots : List Term}
    (hb : ∀ ts, Term.weight ts < Term.weight roots → below ts = lift (job.compileTerms ts)) :
    compileTerms job below engine roots = lift (job.compileTerms roots) := by
  unfold lift
  rw [compileTerms, Job.compileTerms_eq, Effect.adapt_map, Effect.adapt_mapM,
    Region.partition_eq_ofTerms]
  refine congrArg (List.flatten <$> ·) (mapM_congr fun r hr => ?_)
  cases r with
  | interpreted t => rfl
  | compiled run =>
    have smaller : ∀ u ∈ Term.preorders run, below u.kids = lift (job.compileTerms u.kids) := by
      intro u hu
      have inRoots := Region.mem_preorders_of_mem_run _ hr hu
      exact hb _ (Nat.lt_of_lt_of_le (Term.weight_kids_lt u) (Term.length_preorder_le_of_mem inRoots))
    rw [regionEdits, Job.regionEdits, compileRun_lift accepts smaller]
    exact Job.tolerate_adapt _ _

/-- **Compiling in one pass.**  If the engine refuses no code, a compiler that compiles what is
below a handed-over term as soon as the term is met, and by itself, is the compiler that lowers a
run first.

One direction is the step from smaller terms to a list of them; for the other, by induction on the
size of the terms, what is below them has been shown to be compiled alike. -/
theorem solves_iff (accepts : engine.Accepts) :
    (∀ roots, below roots = compileTerms job below engine roots) ↔
      ∀ roots, below roots = lift (job.compileTerms roots) := by
  constructor
  · intro solves roots
    induction hw : Term.weight roots using Nat.strongRecOn generalizing roots with
    | _ w ih =>
      subst hw
      rw [solves]
      exact compileTerms_lift accepts fun ts less => ih _ less ts rfl
  · intro same roots
    rw [same, compileTerms_lift accepts fun ts _ => same ts]

end Compiler

end OnePass

end Graft
