import Graft.Proofs.AttemptedRuns

/-! # Programs that are never refused

A run can be refused in many places, and a strict compilation fails if one run is, however deep it
lies.  Of a program that was read from ops there are two things to ask only: its constants are
numbers, and nothing is assigned to a term whose value is a number and not a box
(`Term.Sensible`).  Then no run that the compilation attempts is refused, and it succeeds.

Every attempted run is one of two kinds (`Accepted`): a single operator that is wanted for its
value, or statements.  Such a run has its ends in the graph, there is code for all of it, and what
it hands over was read from ops and is wanted for its value, so that the runs below are of the same
kinds.

That is an induction over `Job.Attempts` (`Accepted.of_attempts`), and it does not look at batches
and edits at all.  That the compilation succeeds follows from where diagnoses come from: one that
failed would have attempted a run without ends or without code.

The converse does not hold.  A constant that is no number does no harm where it is left to the
interpreter, while `Term.Sensible` is about all parts of the program.
-/

namespace Graft

/-- Is the literal a number? -/
def Constant.isNumber : Constant → Bool
  | double _ | int _ | uint _ => true
  | str _ | undefined => false

namespace Term

/-- Is the term a constant, a negation or arithmetic on doubles that does not assign?  Its value is
a number, and in no box that could be assigned to. -/
def isNumber : Term → Bool
  | leaf _ (.constant _) => true
  | op _ c b _ => c == .negate || (!b && c.floatOp?.isSome)
  | _ => false

/-- Is the node something that can be lowered: no constant but a number, and no assignment to a
number? -/
def isSensible : Term → Bool
  | leaf _ (.constant k) => k.isNumber
  | op _ c b (target :: _) => !(c == .assign || b) || !target.isNumber
  | _ => true

/-- **Every constant in the term is a number, and nothing is assigned to a number.** -/
def Sensible (t : Term) : Prop := ∀ u ∈ t.preorder, u.isSensible = true

instance (t : Term) : Decidable t.Sensible :=
  inferInstanceAs (Decidable (∀ u ∈ t.preorder, u.isSensible = true))

theorem Sensible.below {t u : Term} (h : t.Sensible) (hu : u ∈ t.preorder) : u.Sensible :=
  fun v hv => h v (preorder_trans hv hu)

theorem Sensible.kid {t k : Term} (h : t.Sensible) (hk : k ∈ t.kids) : k.Sensible :=
  h.below (mem_preorder_of_kid hk)

end Term

namespace Lowering

variable {scope : Scope} {c : Context} {t : Term} {T : HostTree}

/-! ### Terms -/

theorem exists_toFloat (v : Operand) (d : Draft) : ∃ r d', toFloat (some v) d = .ok r d' := by
  cases v <;> exact ⟨_, _, rfl⟩

theorem exists_store (b : Nat) (v : Operand) (d : Draft) : ∃ d', store b v d = .ok () d' := by
  cases v <;> exact ⟨_, rfl⟩

theorem exists_variableBox {n : DeclId} {v : Declaration} (hn : scope.get? n = some v)
    (declares : Bool) (d : Draft) :
    ∃ b d', variableBox scope n declares d = .ok (some (.box b)) d' := by
  unfold variableBox
  rw [hn]
  cases declares <;> exact ⟨_, _, rfl⟩

/-- What is wanted for its value and has a fragment can be handed over. -/
theorem exists_handOver (ht : Mirrors scope .scalar t T) (d : Draft) :
    ∃ b d', handOver t d = .ok (some (.box b)) d' := by
  unfold handOver
  rw [if_neg (by rw [ht.context]; simp), Effect.modify_bind, ht.detachment]
  dsimp only
  rw [if_pos ht.context]
  exact ⟨_, _, rfl⟩

/-- The lowering of the term succeeds, with a value that is in a box unless the term is a number. -/
def Succeeds (scope : Scope) (t : Term) : Prop :=
  ∀ d, ∃ v d', term scope t d = .ok (some v) d' ∧ (t.isNumber = false → ∃ b, v = .box b)

theorem succeeds_handOver (ht : Mirrors scope .scalar t T)
    (h : term scope t = handOver t) : Succeeds scope t := by
  intro d
  obtain ⟨b, d', hb⟩ := exists_handOver ht d
  exact ⟨.box b, d', by rw [h]; exact hb, fun _ => ⟨b, rfl⟩⟩

theorem exists_negation {k : Term} (hk : Succeeds scope k) (d : Draft) :
    ∃ z d', negation (term scope k) d = .ok (some (.float z)) d' := by
  obtain ⟨v, d₁, hv, -⟩ := hk d
  obtain ⟨x, d₂, hx⟩ := exists_toFloat v d₁
  unfold negation
  rw [Effect.bind_ok hv, Effect.bind_ok hx]
  exact ⟨_, _, rfl⟩

theorem exists_binary {l r : Term} (f : FloatOp) (hl : Succeeds scope l) (hr : Succeeds scope r)
    (d : Draft) :
    ∃ z d', binary f false (term scope l) (term scope r) d = .ok (some (.float z)) d' := by
  obtain ⟨v, d₁, hv, -⟩ := hl d
  obtain ⟨w, d₂, hw, -⟩ := hr d₁
  obtain ⟨x, d₃, hx⟩ := exists_toFloat v d₂
  obtain ⟨y, d₄, hy⟩ := exists_toFloat w d₃
  unfold binary
  rw [Effect.bind_ok hv, Effect.bind_ok hw, Effect.bind_ok hx, Effect.bind_ok hy]
  exact ⟨_, _, rfl⟩

/-- The assigning form needs a target in a box. -/
theorem exists_assigning {l r : Term} (f : FloatOp) (hl : Succeeds scope l)
    (target : l.isNumber = false) (hr : Succeeds scope r) (d : Draft) :
    ∃ b d', binary f true (term scope l) (term scope r) d = .ok (some (.box b)) d' := by
  obtain ⟨v, d₁, hv, boxed⟩ := hl d
  obtain ⟨b, rfl⟩ := boxed target
  obtain ⟨w, d₂, hw, -⟩ := hr d₁
  obtain ⟨x, d₃, hx⟩ := exists_toFloat (.box b) d₂
  obtain ⟨y, d₄, hy⟩ := exists_toFloat w d₃
  unfold binary
  rw [Effect.bind_ok hv, Effect.bind_ok hw, Effect.bind_ok hx, Effect.bind_ok hy]
  exact ⟨b, _, rfl⟩

theorem exists_assignment {l r : Term} (hl : Succeeds scope l) (target : l.isNumber = false)
    (hr : Succeeds scope r) (d : Draft) :
    ∃ b d', assignment (term scope l) (term scope r) d = .ok (some (.box b)) d' := by
  obtain ⟨v, d₁, hv, boxed⟩ := hl d
  obtain ⟨b, rfl⟩ := boxed target
  obtain ⟨w, d₂, hw, -⟩ := hr d₁
  obtain ⟨d₃, hstore⟩ := exists_store b w d₂
  have dst : toTarget (some (.box b)) d₁ = .ok b d₁ := rfl
  refine ⟨b, d₃, ?_⟩
  unfold assignment
  rw [Effect.bind_ok hv, Effect.bind_ok dst, Effect.bind_ok hw]
  dsimp only
  rw [Effect.bind_ok hstore]
  rfl

theorem succeeds_constant {a : Attributes} {k : Constant} (hk : k.isNumber = true) :
    Succeeds scope (.leaf a (.constant k)) := by
  intro d
  have number : (Term.leaf a (.constant k)).isNumber = false → False := by simp [Term.isNumber]
  cases k with
  | double x => exact ⟨_, _, rfl, fun h => (number h).elim⟩
  | int i => exact ⟨_, _, rfl, fun h => (number h).elim⟩
  | uint u => exact ⟨_, _, rfl, fun h => (number h).elim⟩
  | str s => cases hk
  | undefined => cases hk

/-- **A sensible term that was read from ops is lowered**, if its value is wanted or there is code
for it.

By induction on how the term was read.  What is assigned to is a box, which the induction has to say
as well: a term that is not a number has one. -/
theorem succeeds (ht : Mirrors scope c t T) (hs : t.Sensible)
    (hc : c = .scalar ∨ t.isCompilable scope = true) : Succeeds scope t := by
  induction ht with
  | constant k => exact succeeds_constant (hs _ (Term.mem_preorder_self _))
  | @lexical c ty id n v hn =>
    intro d
    obtain ⟨b, d', hb⟩ := exists_variableBox hn false d
    exact ⟨_, d', by rw [term]; exact hb, fun _ => ⟨b, rfl⟩⟩
  | @declaration c ty id n v hn =>
    intro d
    obtain ⟨b, d', hb⟩ := exists_variableBox hn true d
    exact ⟨_, d', by rw [term]; exact hb, fun _ => ⟨b, rfl⟩⟩
  | @negation c ty id k K s hk ih =>
    have operand := ih (hs.kid (by simp [Term.kids])) (.inl rfl)
    cases hcomp : (Term.op ⟨some ⟨id, K.start, some s⟩, c, ty⟩ .negate false [k]).isCompilable
      scope with
    | true =>
      intro d
      obtain ⟨z, d', hz⟩ := exists_negation operand d
      exact ⟨_, d', by rw [term, hcomp]; exact hz, by simp [Term.isNumber]⟩
    | false =>
      obtain rfl := hc.resolve_right (by simp [hcomp])
      exact succeeds_handOver (.negation s hk) (term_refused hcomp)
  | @binary c ty id o b f l r L R hf hl hr ihl ihr =>
    have left := ihl (hs.kid (by simp [Term.kids])) (.inl rfl)
    have right := ihr (hs.kid (by simp [Term.kids])) (.inl rfl)
    have whole := hs _ (Term.mem_preorder_self _)
    cases hcomp : (Term.op ⟨some ⟨id, L.start, f.targ⟩, c, ty⟩ o b [l, r]).isCompilable scope with
    | true =>
      intro d
      rw [term, if_pos hcomp]
      cases hf with
      | plain s ha =>
        obtain ⟨op, hop, rfl, -⟩ := Operator.floatOp_of_catalogued (catalogued hcomp) ha
        obtain ⟨z, d', hz⟩ := exists_binary op left right d
        rw [hop, Term.isAssigning, Bool.false_and]
        exact ⟨_, d', hz, by simp [Term.isNumber, hop]⟩
      | assigning ha =>
        obtain ⟨op, hop, rfl, hassigns⟩ := Operator.floatOp_of_catalogued (catalogued hcomp) ha
        have target : l.isNumber = false := by simpa [Term.isSensible] using whole
        obtain ⟨x, d', hx⟩ := exists_assigning op left target right d
        rw [hop, Term.isAssigning, hassigns, Bool.true_and]
        exact ⟨_, d', hx, fun _ => ⟨x, rfl⟩⟩
      | assign =>
        have target : l.isNumber = false := by simpa [Term.isSensible] using whole
        obtain ⟨x, d', hx⟩ := exists_assignment left target right d
        exact ⟨_, d', hx, fun _ => ⟨x, rfl⟩⟩
      | and => simp [Term.isCompilable, Operator.isCatalogued] at hcomp
      | or => simp [Term.isCompilable, Operator.isCatalogued] at hcomp
    | false =>
      obtain rfl := hc.resolve_right (by simp [hcomp])
      exact succeeds_handOver (.binary hf hl hr) (term_refused hcomp)
  | @ternary c ty id t y n T Y N ht hy hn =>
    have refused : (Term.op ⟨some ⟨id, T.start, none⟩, c, ty⟩ .ternary false [t, y, n]).isCompilable
        scope = false := by simp [Term.isCompilable, Operator.isCatalogued]
    obtain rfl := hc.resolve_right (by simp [refused])
    exact succeeds_handOver (.ternary ht hy hn) (term_refused refused)

end Lowering

/-! ### Runs -/

/-- **A statement that is not refused**: it was read from ops, it is sensible, and the compiler
takes it. -/
structure Statement.Accepted (scope : Scope) (s : Statement) : Prop where
  mirrors : Mirrors scope .void s.expr s.tree
  compilable : s.expr.isCompilable scope = true
  sensible : s.expr.Sensible

namespace Lowering

variable {scope : Scope} {t : Term} {T : HostTree}

theorem exists_pushValue {v : Operand} {dest : Destination} (h : destination t v = .ok dest)
    (d : Draft) : ∃ d', pushValue t v d = .ok () d' := by
  have stored : ∀ i : Instr,
      ∃ d', (do let b ← emitBox i; store b v; emit (.push b) : LowerM Unit) d = .ok () d' := by
    intro i
    have box : emitBox i d = .ok _ _ := rfl
    obtain ⟨d', hstore⟩ := exists_store d.boxes v _
    rw [Effect.bind_ok box, Effect.bind_ok hstore]
    exact ⟨_, rfl⟩
  unfold pushValue
  rw [h]
  cases dest with
  | itself b => exact ⟨_, rfl⟩
  | pad slot => exact stored (.pad slot)
  | temp => exact stored .temp

/-- An operator that is wanted for its value leaves it on the stack. -/
theorem exists_root (ht : Mirrors scope .scalar t T) (hs : t.Sensible)
    (hc : t.isCompilable scope = true) (hk : T.kids ≠ []) (d : Draft) :
    ∃ d', root scope t d = .ok () d' := by
  obtain ⟨v, d₁, hv, -⟩ := succeeds ht hs (.inl rfl) d
  obtain ⟨w, code, hands, same, lowers, -⟩ := term_lowered ht (.inl rfl) hv
  obtain rfl := Option.some.inj same
  have dest : ∃ dest, destination t v = .ok dest := by
    rcases destination_lowers lowers ht hc hk with ⟨s, -, h⟩ | ⟨b, -, -, h⟩
    · exact ⟨_, h⟩
    · exact ⟨_, h⟩
  obtain ⟨dest, hdest⟩ := dest
  obtain ⟨d', hpush⟩ := exists_pushValue hdest d₁
  refine ⟨d', ?_⟩
  rw [root_eq ht, Effect.bind_ok hv, deliver, ht.context]
  exact hpush

/-- The value of a statement is not wanted. -/
theorem exists_roots {ss : List Statement} (hss : ∀ s ∈ ss, s.Accepted scope) (d : Draft) :
    ∃ d', roots scope (ss.map Statement.term) d = .ok () d' := by
  induction ss generalizing d with
  | nil => exact ⟨d, rfl⟩
  | cons s ss ih =>
    obtain ⟨⟨mirrors, compilable, sensible⟩, rest⟩ := List.forall_mem_cons.mp hss
    obtain ⟨v, d₁, hv, -⟩ := succeeds mirrors sensible (.inr compilable) d
    have first : root scope s.term d = .ok () d₁ := by
      rw [Statement.term, root, root_eq mirrors, Effect.bind_ok hv, deliver, mirrors.context]
      rfl
    obtain ⟨d', hrest⟩ := ih rest d₁
    exact ⟨d', by rw [List.map_cons, roots, Effect.bind_ok first]; exact hrest⟩

theorem codeOf_of_roots {run : List Term} {d : Draft} (h : roots scope run {} = .ok () d) :
    codeOf scope run = .ok d.code := by
  rw [codeOf, h]

end Lowering

/-- **A run that is not refused**: an operator that is wanted for its value, or statements.  The
terms were read from ops and are sensible, and the compiler takes them. -/
inductive Accepted (scope : Scope) : List Term → Prop where
  | single {t : Term} {T : HostTree} : Mirrors scope .scalar t T → t.isCompilable scope = true →
      T.kids ≠ [] → t.Sensible → Accepted scope [t]
  | statements {ss : List Statement} : ss ≠ [] → (∀ s ∈ ss, s.Accepted scope) →
      Accepted scope (ss.map Statement.term)

namespace Accepted

variable {scope : Scope} {run : List Term}

theorem exists_span (h : Accepted scope run) : ∃ ends, Job.span run = .ok ends := by
  cases h with
  | single mirrors =>
    simp only [Job.span, List.head?_cons, List.getLast?_singleton, mirrors.spanFirst,
      mirrors.spanLast]
    exact ⟨_, rfl⟩
  | @statements ss ne hss =>
    have first := (hss _ (List.head_mem ne)).mirrors.spanFirst
    have last := (hss _ (List.getLast_mem ne)).mirrors.spanLast
    simp only [Job.span, List.head?_map, List.getLast?_map, List.head?_eq_some_head ne,
      List.getLast?_eq_some_getLast ne, Option.map_some, Statement.term, Term.spanFirst,
      Term.spanLast, first, last]
    exact ⟨_, rfl⟩

theorem exists_code (h : Accepted scope run) : ∃ code, Lowering.codeOf scope run = .ok code := by
  cases h with
  | single mirrors compilable kids sensible =>
    obtain ⟨d, hd⟩ := Lowering.exists_root mirrors sensible compilable kids {}
    refine ⟨_, Lowering.codeOf_of_roots (d := d) ?_⟩
    rw [Lowering.roots, Effect.bind_ok hd]
    rfl
  | statements ne hss =>
    obtain ⟨d, hd⟩ := Lowering.exists_roots hss {}
    exact ⟨_, Lowering.codeOf_of_roots hd⟩

/-- The members of the run are sensible, with all that is below them. -/
theorem sensible (h : Accepted scope run) {u : Term} (mem : u ∈ Term.preorders run) :
    u.isSensible = true := by
  obtain ⟨m, hm, hu⟩ := Term.mem_preorders.mp mem
  cases h with
  | single _ _ _ sensible =>
    rw [List.mem_singleton.mp hm] at hu
    exact sensible u hu
  | statements _ hss =>
    obtain ⟨s, hs, rfl⟩ := List.mem_map.mp hm
    rw [Statement.term, Term.preorder, List.mem_cons] at hu
    rcases hu with rfl | hu
    · rfl
    · exact (hss s hs).sensible u hu

/-- **What the run hands over** was read from ops, is wanted for its value, and is sensible. -/
theorem handover (h : Accepted scope run) {ho : Handover}
    (hh : ho ∈ Lowering.handoversOf scope run) :
    (∃ F, Mirrors scope .scalar ho.term F) ∧ ho.term.Sensible := by
  constructor
  · obtain ⟨code, hcode⟩ := h.exists_code
    cases h with
    | single mirrors compilable kids =>
      obtain ⟨v, u, main, hs, lowers, -, hhand⟩ :=
        Lowering.codeOf_single mirrors compilable kids hcode
      rw [hhand] at hh
      obtain ⟨q, hq, rfl⟩ := List.mem_map.mp hh
      exact ⟨q.2, (lowers.handed_mirrors q hq).1⟩
    | statements ne hss =>
      obtain ⟨hs, u, lowers, hhand⟩ :=
        Lowering.codeOf_statements (fun s hs => ⟨(hss s hs).mirrors, (hss s hs).compilable⟩) hcode
      rw [hhand] at hh
      obtain ⟨q, hq, rfl⟩ := List.mem_map.mp hh
      exact ⟨q.2, (lowers.handed_mirrors q hq).1⟩
  · intro u hu
    obtain ⟨m, hm, below⟩ :=
      Term.mem_preorders.mp (Lowering.term_mem_preorders_of_mem_handoversOf hh)
    exact h.sensible (Term.mem_preorders.mpr ⟨m, hm, Term.preorder_trans hu below⟩)

/-! ### Every run that is attempted is accepted -/

theorem mem_ofTerms {ts : List Term} {r : Region} (h : r ∈ Region.ofTerms scope ts) :
    ∃ t ∈ ts, r ∈ Region.ofTerm scope t := by
  induction ts with
  | nil => simp [Region.ofTerms] at h
  | cons t ts ih =>
    rw [Region.ofTerms, List.mem_append] at h
    rcases h with h | h
    · exact ⟨t, by simp, h⟩
    · obtain ⟨u, hu, h⟩ := ih h
      exact ⟨u, by simp [hu], h⟩

/-- The runs of a term: the term itself, or runs of its operands, which are wanted for their
values. -/
theorem of_term {c : Context} {t : Term} {T : HostTree} (ht : Mirrors scope c t T)
    (hs : t.Sensible) (hc : c = .scalar ∨ t.isCompilable scope = false)
    (h : .compiled run ∈ Region.ofTerm scope t) : Accepted scope run := by
  induction t using Term.induction generalizing c T with
  | step t ih =>
    rcases ht.isLeaf_or_op with ⟨a, l, rfl⟩ | ⟨a, o, b, ts, rfl, -, kids⟩
    · simp [Region.ofTerm] at h
    · rw [Region.ofTerm] at h
      split at h
      · next hcomp =>
        obtain rfl := hc.resolve_right (by simp [hcomp])
        obtain rfl : run = [_] := by simpa using h
        exact .single ht hcomp kids hs
      · rw [List.mem_cons] at h
        obtain ⟨k, hk, h⟩ := mem_ofTerms (h.resolve_left (by simp))
        obtain ⟨K, -, mirrors⟩ := ht.part hk
        exact ih k hk mirrors (hs.kid hk) (.inl rfl) h

/-- The run that is closed is the one there is. -/
theorem eq_of_mem_close {run before : List Term} (h : .compiled run ∈ Region.close before) :
    run = before := by
  rw [Region.close] at h
  split at h
  · cases h
  · simpa using h

theorem of_close {ss : List Statement} (hss : ∀ s ∈ ss, s.Accepted scope)
    (h : .compiled run ∈ Region.close (ss.map Statement.term)) : Accepted scope run := by
  obtain rfl := eq_of_mem_close h
  refine .statements ?_ hss
  rintro rfl
  simp [Region.close] at h

/-- The runs of statements, after those in `done` have been collected. -/
theorem of_statements (done : List Statement) {ss : List Statement}
    (hdone : ∀ s ∈ done, s.Accepted scope)
    (hss : ∀ s ∈ ss, Mirrors scope .void s.expr s.tree ∧ s.expr.Sensible)
    (h : .compiled run ∈
      Region.ofStatements scope (done.map Statement.term) (ss.map Statement.term)) :
    Accepted scope run := by
  induction ss generalizing done with
  | nil => exact of_close hdone (by simpa [Region.ofStatements] using h)
  | cons s ss ih =>
    obtain ⟨⟨mirrors, sensible⟩, rest⟩ := List.forall_mem_cons.mp hss
    rw [List.map_cons, Region.ofStatements] at h
    split at h
    · next compilable =>
      rw [Statement.term, Term.isCompilable] at compilable
      refine ih (done ++ [s]) ?_ rest (by simpa using h)
      intro s' hs'
      rcases List.mem_append.mp hs' with hs' | hs'
      · exact hdone s' hs'
      · obtain rfl := List.mem_singleton.mp hs'
        exact ⟨mirrors, compilable, sensible⟩
    · next compilable =>
      rw [List.mem_append, List.mem_append] at h
      rcases h with (h | h) | h
      · exact of_close hdone h
      · -- the statement is left to the interpreter, and its expression is looked at as a term
        rw [Statement.term] at compilable h
        rw [Region.ofTerm, if_neg compilable, List.mem_cons] at h
        rw [Term.isCompilable] at compilable
        exact of_term mirrors sensible (.inr (by simpa using compilable))
          (h.resolve_left (by simp))
      · exact ih [] (by simp) rest h

/-- **Whatever is attempted, at any depth, is accepted.** -/
theorem of_attempts {job : Job} {program : Term} {T : HostTree}
    (hp : MirrorsProgram job.scope program T) (hs : program.Sensible)
    (h : job.Attempts [program] run) : Accepted job.scope run := by
  induction h with
  | region h =>
    rw [Region.ofTerms, Region.ofTerms, List.append_nil] at h
    cases hp with
    | expression mirrors => exact of_term mirrors hs (.inl rfl) h
    | @statements a id ss ne mirrors =>
      rw [statementTerm, Region.ofTerm, List.mem_cons] at h
      refine of_statements [] (by simp) (fun s hss => ⟨mirrors s hss, ?_⟩)
        (h.resolve_left (by simp))
      have kid : s.term ∈ (statementTerm a id ss).kids := List.mem_map_of_mem hss
      exact (hs.kid kid).kid (by simp [Statement.term, Term.kids])
  | nested _ hh h ih =>
    obtain ⟨⟨F, mirrors⟩, sensible⟩ := ih.handover hh
    obtain ⟨k, hk, h⟩ := mem_ofTerms h
    obtain ⟨K, -, hK⟩ := mirrors.part hk
    exact of_term hK (sensible.kid hk) (.inl rfl) h

end Accepted

/-- **A well-formed program is not refused.**  The program was read from ops, its constants are
numbers, and nothing is assigned to a constant, a negation or plain arithmetic.  Then a compilation
succeeds, whatever types the variables were declared with, and every run that it attempts, at any
depth, gives its batch.

By induction on depth every attempted run is one of the two kinds that are accepted, and for these
there are ends and code.  A compilation that failed would have attempted a run that lacks one of
them. -/
theorem Compiler.compile_accepts (c : Compiler) {scope : Scope} {program : Term} {T : HostTree}
    (hp : MirrorsProgram scope program T) (hs : program.Sensible) (owner : OwnerId) :
    (∃ edits c', c.compile scope owner [program] = (.ok edits, c')) ∧
    ∀ run, Job.Attempts ⟨scope, owner, c.options.strict⟩ [program] run →
      ∀ n, ∃ batch n', Job.runEdits ⟨scope, owner, c.options.strict⟩ run n = .ok batch n' := by
  have runs : ∀ run, Job.Attempts ⟨scope, owner, c.options.strict⟩ [program] run →
      ∃ ends code, Job.span run = .ok ends ∧ Lowering.codeOf scope run = .ok code := by
    intro run hrun
    have accepted := Accepted.of_attempts hp hs hrun
    obtain ⟨ends, hspan⟩ := accepted.exists_span
    obtain ⟨code, hcode⟩ := accepted.exists_code
    exact ⟨ends, code, hspan, hcode⟩
  constructor
  · obtain ⟨edits, n, h⟩ := Job.exists_compileTerms_of_attempts runs c.nextUnit
    exact ⟨edits, _, compile_of_compileTerms h⟩
  · intro run hrun
    exact Job.exists_runEdits_of_attempts runs hrun

/-! ### A program that is accepted -/

section Sample

open HostTree

private def variableTerm (id d : Nat) : Term :=
  .leaf ⟨some ⟨⟨id⟩, ⟨id⟩, none⟩, .scalar, none⟩ (.lexical ⟨d⟩)

private def variableTree (id d : Nat) : HostTree := node ⟨id⟩ ⟨.lexical ⟨d⟩ false, none, false⟩ []

/-- The statement `(y ? x : x) += x * 3`. -/
def chosenSum : Statement where
  attrs := ⟨none, .void, none⟩
  marker := ⟨0⟩
  expr := .op ⟨some ⟨⟨8⟩, ⟨1⟩, none⟩, .void, none⟩ .add true
    [.op ⟨some ⟨⟨4⟩, ⟨1⟩, none⟩, .scalar, none⟩ .ternary false
      [variableTerm 1 1, variableTerm 2 0, variableTerm 3 0],
     .op ⟨some ⟨⟨7⟩, ⟨5⟩, some ⟨2⟩⟩, .scalar, none⟩ .multiply false
      [variableTerm 5 0, .leaf ⟨some ⟨⟨6⟩, ⟨6⟩, none⟩, .scalar, none⟩ (.constant (.int 3))]]
  tree := node ⟨8⟩ ⟨.arith (.float .add), none, true⟩
    [node ⟨4⟩ ⟨.cond, none, false⟩ [variableTree 1 1, variableTree 2 0, variableTree 3 0],
     node ⟨7⟩ ⟨.arith (.float .multiply), some ⟨2⟩, false⟩
      [variableTree 5 0, node ⟨6⟩ ⟨.const (.int 3), none, false⟩ []]]

theorem chosenSum_mirrors : Mirrors guardedScope .void chosenSum.expr chosenSum.tree := by
  have x : ∀ id, Mirrors guardedScope .scalar (variableTerm id 0) (variableTree id 0) :=
    fun id => .lexical (v := ⟨"x", ⟨0⟩, .any⟩) rfl
  have y : Mirrors guardedScope .scalar (variableTerm 1 1) (variableTree 1 1) :=
    .lexical (v := ⟨"y", ⟨1⟩, .hidden⟩) rfl
  have three : Mirrors guardedScope .scalar
      (.leaf ⟨some ⟨⟨6⟩, ⟨6⟩, none⟩, .scalar, none⟩ (.constant (.int 3)))
      (node ⟨6⟩ ⟨.const (.int 3), none, false⟩ []) := .constant (.int 3)
  exact .binary (.assigning rfl) (.ternary y (x 2) (x 3)) (.binary (.plain ⟨2⟩ rfl) (x 5) three)

/-- The hidden variable decides what is assigned to, and a strict compiler takes the program. -/
theorem Compiler.compile_accepts_chosen :
    MirrorsProgram guardedScope (statementTerm chosenSum.attrs ⟨9⟩ [chosenSum])
      (statementTree ⟨9⟩ [chosenSum]) ∧
    (statementTerm chosenSum.attrs ⟨9⟩ [chosenSum]).Sensible ∧
    ∃ edits c', Compiler.compile {} guardedScope ⟨0⟩
      [statementTerm chosenSum.attrs ⟨9⟩ [chosenSum]] = (.ok edits, c') := by
  have mirrors : MirrorsProgram guardedScope (statementTerm chosenSum.attrs ⟨9⟩ [chosenSum])
      (statementTree ⟨9⟩ [chosenSum]) :=
    .statements (by simp) (by simpa using chosenSum_mirrors)
  have sensible : (statementTerm chosenSum.attrs ⟨9⟩ [chosenSum]).Sensible := by decide
  exact ⟨mirrors, sensible, (Compiler.compile_accepts {} mirrors sensible ⟨0⟩).1⟩

end Sample

end Graft
