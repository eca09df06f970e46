import Graft.Proofs.ExecutedOps

/-! # Faulting runs of compiled programs

A unit does not stop where one of its call-backs faults: the fault is recorded, and surfaces when
the unit has come to its end.  So an assignment may take effect that interpretation does not
reach.  `Exposed` says which variables that may happen to, and all others have the same values
after the run of the compiled program as after interpretation (`Compiler.run_compiled_fault`).

What is exposed is said of the run that faults, and of the edits that were applied.  The fault arose
in a run of terms for which the edits have a unit (`Job.Installs`); a run that was refused, or whose
terms were left alone, exposes nothing, since interpretation stops at once.  The unit has code for
an assignment that had not been executed.  If its left operand has code, the variable is the one
that the operand is or assigns to.  If the left operand was handed over, the unit takes its box from
the stack, and that is the box of a variable which interpretation has there as an operand that
waits; and if it was the right operand that faulted, the left one had been computed, and can only
have yielded a variable that its term can be.  In no case is it a variable that the program had
declared before the fault, for its value is put back.

None of this can be left out.  In the tally the unit stores to the variable that is assigned to, and
in the stray assignment to one that merely waits, because the choice that should have yielded the
target has faulted and has left nothing on the stack (`stores_after_fault`).
-/

namespace Graft

open HostTree Machine

/-! ### Saved values are put back -/

namespace Machine

variable {m : Machine} {s : Slot}

theorem size_foldl_write (undone : List (Slot × Scalar)) (m : Machine) :
    (undone.foldl (fun (m : Machine) v => m.write (.pad v.1) v.2) m).pad.size = m.pad.size := by
  induction undone generalizing m with
  | nil => rfl
  | cons v undone ih => exact (ih _).trans sizes_write.1

/-- Of the values that are put back in a box the earliest stays. -/
theorem read_foldl_write (undone : List (Slot × Scalar)) (hs : s.index < m.pad.size) :
    (undone.foldl (fun (m : Machine) v => m.write (.pad v.1) v.2) m).read (.pad s) =
      (undone.reverse.lookup s).getD (m.read (.pad s)) := by
  induction undone generalizing m with
  | nil => rfl
  | cons v undone ih =>
    obtain ⟨t, w⟩ := v
    rw [List.foldl_cons, ih (by rw [sizes_write.1]; exact hs), List.reverse_cons, List.lookup_append]
    by_cases here : s = t
    · subst here
      rw [read_write_pad hs]
      cases undone.reverse.lookup s with
      | some x => rfl
      | none => simp
    · rw [read_write_of_ne fun he => here (Ref.pad.inj he).symm]
      have missed : List.lookup s [(t, w)] = none := by
        rw [List.lookup_cons, beq_eq_false_iff_ne.mpr here]
        rfl
      rw [missed, Option.or_none]

/-- **A run that faults puts back the earliest value that it has saved of a variable.** -/
theorem read_unwind {undone base : List (Slot × Scalar)} (h : m.saves = undone ++ base)
    (hs : s.index < m.pad.size) :
    (m.unwind base.length).read (.pad s) = (undone.reverse.lookup s).getD (m.read (.pad s)) := by
  have taken : m.saves.take (m.saves.length - base.length) = undone := by
    rw [h, List.length_append, Nat.add_sub_cancel, List.take_left]
  show (List.foldl _ m (m.saves.take (m.saves.length - base.length))).read (.pad s) = _
  rw [taken]
  exact read_foldl_write undone hs

theorem size_unwind (m : Machine) (depth : Nat) : (m.unwind depth).pad.size = m.pad.size :=
  size_foldl_write _ m

end Machine

/-! ### Variables that units may still store to -/

/-- The term declares a variable in the slot. -/
def Term.Introduces (scope : Scope) (t : Term) (s : Slot) : Prop :=
  ∃ a d v, t = .leaf a (.declaration d) ∧ scope.get? d = some v ∧ v.slot = s

/-- **What was executed last is one of the run of terms, and the run's unit has code for an
assignment to the variable that was not executed.**  If the left operand of the assignment is handed
over, the variable is one of those that wait, and one that the operand can yield if it was executed
to its end. -/
def Unreached (scope : Scope) (run : List Term) (trace : List OpId) (waiting : Slot → Prop) (s : Slot) :
    Prop :=
  (∃ t ∈ run, t.Halts trace) ∧ ∃ t ∈ run, ∃ w, t.Coded scope w ∧
    w.AssignsTo scope trace waiting s ∧ ∀ x, w.op? = some x → x ∉ trace

theorem Unreached.mono {scope : Scope} {run : List Term} {trace : List OpId} {P Q : Slot → Prop}
    {s : Slot} (h : Unreached scope run trace P s) (hPQ : P s → Q s) :
    Unreached scope run trace Q s := by
  obtain ⟨last, r, hr, w, coded, assigns, undone⟩ := h
  exact ⟨last, r, hr, w, coded, assigns.mono hPQ, undone⟩

/-- **A variable that compiled code may store to although interpretation has faulted**, after the
ops in `trace` and with the boxes in `stack` as operands that wait. -/
structure Exposed (job : Job) (program : Term) (edits : List Edit) (trace : List OpId)
    (stack : List Ref) (s : Slot) : Prop where
  /-- No declaration of the variable has been executed, so its value is not put back. -/
  undeclared : ∀ t ∈ program.preorder, t.Introduces job.scope s → ∀ x, t.op? = some x → x ∉ trace
  /-- A unit that the edits put in runs on after the fault, and stores to the variable. -/
  unreached : ∃ run, job.Installs [program] edits run ∧
    Unreached job.scope run trace (.pad · ∈ stack) s

/-- The variables that units of the runs in `U` may store to, the meaning having halted there. -/
def Overruns (scope : Scope) (U : List Term → Prop) (σ : Store) (s : Slot) : Prop :=
  ∃ run, U run ∧ Unreached scope run σ.done (· ∈ σ.held) s

/-! ### Runs -/

section Cover

variable {scope : Scope} {U : List Term → Prop} {L : Layout} {c : Context} {t u w program : Term}
  {T K N : HostTree} {s : Slot}

theorem Mirrors.introduces (h : Mirrors scope c u K) (hs : u.Introduces scope s) :
    K.face.kind = .lexical s true := by
  obtain ⟨a, d, v, rfl, hd, rfl⟩ := hs
  cases h with
  | declaration hd' =>
    cases hd.symm.trans hd'
    rfl

/-- Every declaration of a program was read from an op in it. -/
theorem MirrorsProgram.introduces (h : MirrorsProgram scope program T) (hu : u ∈ program.preorder)
    (hs : u.Introduces scope s) :
    ∃ D ∈ T.subtrees, D.face.kind = .lexical s true ∧ u.op? = some D.root := by
  have found : ∀ {c t S}, Mirrors scope c t S → u ∈ t.preorder →
      ∃ D ∈ S.subtrees, D.face.kind = .lexical s true ∧ u.op? = some D.root := by
    intro c t S hm hu
    obtain ⟨D, hD, c', hmu⟩ := hm.subterm hu
    exact ⟨D, hD, hmu.introduces hs, hmu.op?_eq⟩
  cases h with
  | expression hm => exact found hm hu
  | @statements a id ss _ hm =>
    -- the list and the statements in it declare nothing themselves
    obtain ⟨_, _, _, rfl, -⟩ := hs
    simp only [statementTerm, Term.preorder, List.mem_cons, reduceCtorEq, false_or,
      Term.mem_preorders, List.mem_map] at hu
    obtain ⟨_, ⟨p, hp, rfl⟩, hu⟩ := hu
    simp only [Statement.term, Term.preorder, List.mem_cons, reduceCtorEq, false_or] at hu
    obtain ⟨D, hD, declares⟩ := found (hm p hp) hu
    refine ⟨D, subtrees_trans hD (subtrees_of_kid ?_), declares⟩
    exact List.mem_flatMap.mpr ⟨p, hp, by simp [Statement.row]⟩

/-- Where the tree has halted, so has its term. -/
theorem Mirrors.halts_term {trace : List OpId} (h : Mirrors scope c t T) (hT : T.Halts trace) :
    t.Halts trace := by
  obtain ⟨x, hx, last⟩ := hT
  obtain ⟨S, hS, rfl⟩ := mem_ids.mp hx
  obtain ⟨u, hu, _, hm⟩ := h.subtree hS
  exact ⟨u, hu, S.root, hm.op?_eq, last⟩

/-- **The unit of a single operator.** -/
theorem Mirrors.covers (h : Mirrors scope c u K) (hu : U [u]) :
    Covers (Overruns scope U) (CodedIn scope [u]) K := by
  rintro σ N s hN ⟨t, ht, w, hw, ⟨c', hmN⟩, hs⟩ hroot halts
  obtain rfl := List.mem_singleton.mp ht
  refine ⟨[t], hu, ⟨t, ht, h.halts_term halts⟩, t, ht, w, hw, hs, fun x hx => ?_⟩
  cases hmN.op?_eq.symm.trans hx
  exact hroot

/-- **The unit of a run of statements.** -/
theorem covers_statements {run : List Statement}
    (hm : ∀ s ∈ run, Mirrors scope .void s.expr s.tree) (hu : U (run.map Statement.term))
    (hc : ∀ s ∈ run, s.expr.isCompilable scope = true) :
    CoversAll (Overruns scope U) (CodedIn scope (run.map Statement.expr)) (run.map Statement.tree) := by
  rintro σ N slot hN ⟨t, ht, w, hw, ⟨c, hmN⟩, hs⟩ hroot ⟨T, hT, halts⟩
  obtain ⟨s, hsr, rfl⟩ := List.mem_map.mp ht
  obtain ⟨p, hp, rfl⟩ := List.mem_map.mp hT
  have kid : ∀ s : Statement, s.expr ∈ s.term.kids := fun s => by simp [Statement.term, Term.kids]
  have halted : p.term.Halts σ.done := by
    obtain ⟨u, hu, last⟩ := (hm p hp).halts_term halts
    exact ⟨u, Term.preorder_trans hu (Term.mem_preorder_of_kid (kid p)), last⟩
  refine ⟨_, hu, ⟨p.term, List.mem_map_of_mem hp, halted⟩, s.term, List.mem_map_of_mem hsr, w,
    .kid (hc s hsr) (kid s) hw, hs, fun x hx => ?_⟩
  cases hmN.op?_eq.symm.trans hx
  exact hroot

/-- **Only units that run on store to variables after a fault.** -/
theorem CoveredProgram.overruns (h : L.Suits T) :
    CoveredProgram scope U L (Overruns scope U) program T := by
  have covered : ∀ {c u K}, Mirrors scope c u K → L.Suits K →
      Covered scope U L (Overruns scope U) u K := fun hm hs =>
    ⟨⟨_, hm⟩, hs, fun _ _ _ _ ⟨_, hmw⟩ hu _ => hmw.covers hu⟩
  constructor
  · exact fun c hm => covered hm h
  · rintro a id ss rfl rfl hm
    obtain ⟨suits, nodup⟩ := h.statements
    exact ⟨fun s hs => covered (hm s hs) (suits s hs), nodup,
      fun run hr hu hc => covers_statements (fun s hs => hm s (hr.subset hs)) hu hc⟩

end Cover

/-! ### Values after a fault -/

section Faults

variable {scope : Scope} {size : Nat} {program : Term} {T : HostTree} {m : Machine} {s : Slot}

/-- What a run leaves in the pad that halts with a fault. -/
theorem padValue?_halted {m' : Machine} {f : Fault} {undone base : List (Slot × Scalar)}
    (h : m'.saves = undone ++ base) (hs : s.index < m'.pad.size) :
    Machine.padValue? { { m'.fail f with current := none }.unwind base.length with fault := none } s =
      some ((undone.reverse.lookup s).getD (m'.read (.pad s))) := by
  have saves : ({ m'.fail f with current := none } : Machine).saves = undone ++ base := h
  have inside : s.index < ({ m'.fail f with current := none } : Machine).pad.size := hs
  have value := read_unwind saves inside
  have bound := inside
  rw [← size_unwind _ base.length] at bound
  show ({ m'.fail f with current := none }.unwind base.length).pad[s.index]? = _
  rw [Array.getElem?_eq_getElem bound]
  rw [Machine.read, Array.getElem?_eq_getElem bound, Option.getD_some] at value
  rw [value]
  rfl

/-- **After a fault, a unit that has run on leaves a variable as interpretation leaves it**, or it
may have stored to it, and the variable was not declared before the fault. -/
theorem Drifts.padValue?_eq {L : Layout} {A : Store → Slot → Prop} {σ : Store} {m₁ m₂ : Machine}
    {f : Fault} {new base : List (Slot × Scalar)} (h₂ : Drifts L A σ m₂) (h₁ : Agrees L σ m₁)
    (hσ : σ.saves = new ++ base) (hv : L.vars s) :
    Machine.padValue? { { m₂.fail f with current := none }.unwind base.length with fault := none } s =
        Machine.padValue? { { m₁.fail f with current := none }.unwind base.length with fault := none } s ∨
      A σ s ∧ new.reverse.lookup s = none := by
  obtain ⟨late, saves, values⟩ := h₂.saves
  have saves₁ : m₁.saves = new ++ base := h₁.saves.trans hσ
  have saves₂ : m₂.saves = (late ++ new) ++ base := by rw [saves, hσ, List.append_assoc]
  by_cases inside : s.index < L.size
  · rw [padValue?_halted saves₁ (by rw [h₁.size]; exact inside),
      padValue?_halted saves₂ (by rw [h₂.size]; exact inside), List.reverse_append, List.lookup_append]
    -- both runs put back the value that was saved first, if any was saved before the fault
    cases hnew : new.reverse.lookup s with
    | some v => exact .inl rfl
    | none =>
      refine (values s hv).elim (fun ha => .inr ⟨ha, rfl⟩) fun value => .inl ?_
      rw [Option.none_or, value, Option.getD_none, h₁.vars s hv]
  · have outside : ∀ m : Machine, m.pad.size = L.size → Machine.padValue?
        { { m.fail f with current := none }.unwind base.length with fault := none } s = none :=
      fun m hm => Array.getElem?_eq_none (by
        rw [size_unwind]
        exact Nat.le_of_not_lt (hm ▸ inside))
    rw [outside m₁ h₁.size, outside m₂ h₂.size]
    exact .inl rfl

theorem stack_foldl_write (undone : List (Slot × Scalar)) (m : Machine) :
    (undone.foldl (fun (m : Machine) v => m.write (.pad v.1) v.2) m).stack = m.stack := by
  induction undone generalizing m with
  | nil => rfl
  | cons v undone ih => exact (ih _).trans stack_write

end Faults

/-! ### A tally

An assignment whose value has a remainder in it, which is handed over. -/

def tallyGraph : Graph where
  owner := ⟨0⟩
  ops := #[{ kind := .lexical ⟨0⟩ false, parent := some ⟨6⟩ },
    { kind := .lexical ⟨1⟩ false, parent := some ⟨5⟩ },
    { kind := .lexical ⟨2⟩ false, parent := some ⟨4⟩ },
    { kind := .lexical ⟨3⟩ false, parent := some ⟨4⟩ },
    { kind := .arith .modulo, kids := [⟨2⟩, ⟨3⟩], targ := some ⟨4⟩, parent := some ⟨5⟩ },
    { kind := .arith (.float .add), kids := [⟨1⟩, ⟨4⟩], targ := some ⟨5⟩, parent := some ⟨6⟩ },
    { kind := .assign, kids := [⟨0⟩, ⟨5⟩] }]

def tallyTree : HostTree :=
  node ⟨6⟩ ⟨.assign, none, false⟩ [node ⟨0⟩ ⟨.lexical ⟨0⟩ false, none, false⟩ [],
    node ⟨5⟩ ⟨.arith (.float .add), some ⟨5⟩, false⟩ [node ⟨1⟩ ⟨.lexical ⟨1⟩ false, none, false⟩ [],
      node ⟨4⟩ ⟨.arith .modulo, some ⟨4⟩, false⟩ [node ⟨2⟩ ⟨.lexical ⟨2⟩ false, none, false⟩ [],
        node ⟨3⟩ ⟨.lexical ⟨3⟩ false, none, false⟩ []]]]

def tallyScope : Scope :=
  ⟨#[⟨"r", ⟨0⟩, .any⟩, ⟨"a", ⟨1⟩, .any⟩, ⟨"b", ⟨2⟩, .any⟩, ⟨"c", ⟨3⟩, .any⟩]⟩

def remainderTerm : Term :=
  .op ⟨some ⟨⟨4⟩, ⟨2⟩, some ⟨4⟩⟩, .scalar, none⟩ .modulo false
    [.leaf ⟨some ⟨⟨2⟩, ⟨2⟩, none⟩, .scalar, none⟩ (.lexical ⟨2⟩),
      .leaf ⟨some ⟨⟨3⟩, ⟨3⟩, none⟩, .scalar, none⟩ (.lexical ⟨3⟩)]

def tallyTerm : Term :=
  .op ⟨some ⟨⟨6⟩, ⟨0⟩, none⟩, .scalar, none⟩ .assign false
    [.leaf ⟨some ⟨⟨0⟩, ⟨0⟩, none⟩, .scalar, none⟩ (.lexical ⟨0⟩),
      .op ⟨some ⟨⟨5⟩, ⟨1⟩, some ⟨5⟩⟩, .scalar, none⟩ .add false
        [.leaf ⟨some ⟨⟨1⟩, ⟨1⟩, none⟩, .scalar, none⟩ (.lexical ⟨1⟩), remainderTerm]]

theorem tallyTerm_mirrors : Mirrors tallyScope .scalar tallyTerm tallyTree := by
  have var : ∀ d v, tallyScope.get? d = some v → v.slot.index = d.index → Mirrors tallyScope .scalar
      (.leaf ⟨some ⟨⟨d.index⟩, ⟨d.index⟩, none⟩, .scalar, none⟩ (.lexical d))
      (node ⟨d.index⟩ ⟨.lexical ⟨d.index⟩ false, none, false⟩ []) := by
    intro d v hd hv
    rw [← hv]
    exact .lexical hd
  have remainder : Mirrors tallyScope .scalar remainderTerm _ :=
    .binary (.plain ⟨4⟩ rfl) (var ⟨2⟩ _ rfl rfl) (var ⟨3⟩ _ rfl rfl)
  exact .binary .assign (var ⟨0⟩ _ rfl rfl)
    (.binary (.plain ⟨5⟩ rfl) (var ⟨1⟩ _ rfl rfl) remainder)

theorem tallyGraph_assembled : Assembled ⟨0⟩ tallyGraph [tallyTree] := by
  have leaf : ∀ {ts : List HostTree}, ts.Perm ([] ++ ts) := .refl _
  have pair : ∀ {t u : HostTree} {ts : List HostTree}, (t :: u :: ts).Perm ([u, t] ++ ts) :=
    .swap _ _ _
  have start : Assembled ⟨0⟩ _ _ := .empty
  have r := start.add ⟨.lexical ⟨0⟩ false, none, false⟩ leaf (by decide)
  have a := r.add ⟨.lexical ⟨1⟩ false, none, false⟩ leaf (by decide)
  have b := a.add ⟨.lexical ⟨2⟩ false, none, false⟩ leaf (by decide)
  have c := b.add ⟨.lexical ⟨3⟩ false, none, false⟩ leaf (by decide)
  have remainder := c.add ⟨.arith .modulo, some ⟨4⟩, false⟩ pair (by decide)
  have sum := remainder.add ⟨.arith (.float .add), some ⟨5⟩, false⟩ pair (by decide)
  exact sum.add ⟨.assign, none, false⟩ pair (by decide)

theorem tallyTree_fits : tallyTree.Fits tallyScope 6 := by
  have targets : tallyTree.targets = [⟨5⟩, ⟨4⟩] := rfl
  have lexicals : tallyTree.lexicals = [⟨0⟩, ⟨1⟩, ⟨2⟩, ⟨3⟩] := rfl
  constructor
  · rw [targets]
    decide
  · rw [targets]
    simp [Scope.Declares, tallyScope]
  · rw [targets, lexicals]
    simp

/-- The remainder becomes a fragment, and all else a unit. -/
def tallyEdits : List Edit :=
  [⟨⟨0⟩, .detach ⟨4⟩ true [⟨4⟩]⟩,
    ⟨⟨0⟩, .replace ⟨0⟩ ⟨6⟩ ⟨Job.unitName 0, [.pad ⟨0⟩, .pad ⟨1⟩, .call ⟨4⟩, .pop, .number 1 false,
      .number 2 false, .combine .add 0 1, .storeNum 0 2, .push 0], [⟨4⟩]⟩ false⟩]

theorem tallyTerm_compiles :
    ∃ c', Compiler.compile {} tallyScope ⟨0⟩ [tallyTerm] = (.ok tallyEdits, c') := by
  have leaves : ∀ t ∈ remainderTerm.kids, ∃ a l, t = .leaf a l := by
    simp [remainderTerm, Term.kids]
  have handed : Lowering.handoversOf tallyScope [tallyTerm] =
      [⟨remainderTerm, .ok ⟨⟨4⟩, [⟨4⟩]⟩⟩] := rfl
  exact Compiler.compile_operator {} ⟨0⟩ (by decide) rfl handed leaves rfl

def strayGraph : Graph where
  owner := ⟨0⟩
  ops := #[{ kind := .lexical ⟨0⟩ false, parent := some ⟨9⟩ },
    { kind := .lexical ⟨1⟩ false, parent := some ⟨3⟩ },
    { kind := .lexical ⟨2⟩ false, parent := some ⟨3⟩ },
    { kind := .arith .modulo, kids := [⟨1⟩, ⟨2⟩], targ := some ⟨4⟩, parent := some ⟨6⟩ },
    { kind := .lexical ⟨3⟩ false, parent := some ⟨6⟩ },
    { kind := .lexical ⟨3⟩ false, parent := some ⟨6⟩ },
    { kind := .cond, kids := [⟨3⟩, ⟨4⟩, ⟨5⟩], parent := some ⟨8⟩ },
    { kind := .const (.int 5), parent := some ⟨8⟩ },
    { kind := .assign, kids := [⟨6⟩, ⟨7⟩], parent := some ⟨9⟩ },
    { kind := .arith .modulo, kids := [⟨0⟩, ⟨8⟩], targ := some ⟨5⟩ }]

/-- The op of a variable. -/
def varTree (id s : Nat) : HostTree := node ⟨id⟩ ⟨.lexical ⟨s⟩ false, none, false⟩ []

def strayTree : HostTree :=
  node ⟨9⟩ ⟨.arith .modulo, some ⟨5⟩, false⟩ [varTree 0 0,
    node ⟨8⟩ ⟨.assign, none, false⟩ [
      node ⟨6⟩ ⟨.cond, none, false⟩ [
        node ⟨3⟩ ⟨.arith .modulo, some ⟨4⟩, false⟩ [varTree 1 1, varTree 2 2], varTree 4 3, varTree 5 3],
      node ⟨7⟩ ⟨.const (.int 5), none, false⟩ []]]

/-- A variable, as read from its op. -/
def varTerm (id d : Nat) : Term := .leaf ⟨some ⟨⟨id⟩, ⟨id⟩, none⟩, .scalar, none⟩ (.lexical ⟨d⟩)

def choiceTerm : Term :=
  .op ⟨some ⟨⟨6⟩, ⟨1⟩, none⟩, .scalar, none⟩ .ternary false
    [.op ⟨some ⟨⟨3⟩, ⟨1⟩, some ⟨4⟩⟩, .scalar, none⟩ .modulo false [varTerm 1 1, varTerm 2 2],
      varTerm 4 3, varTerm 5 3]

def strayAssignment : Term :=
  .op ⟨some ⟨⟨8⟩, ⟨1⟩, none⟩, .scalar, none⟩ .assign false
    [choiceTerm, .leaf ⟨some ⟨⟨7⟩, ⟨7⟩, none⟩, .scalar, none⟩ (.constant (.int 5))]

def strayTerm : Term :=
  .op ⟨some ⟨⟨9⟩, ⟨0⟩, some ⟨5⟩⟩, .scalar, none⟩ .modulo false [varTerm 0 0, strayAssignment]

theorem strayTerm_mirrors : Mirrors tallyScope .scalar strayTerm strayTree := by
  have var : ∀ id d v, tallyScope.get? ⟨d⟩ = some v → v.slot = ⟨d⟩ →
      Mirrors tallyScope .scalar (varTerm id d) (varTree id d) := by
    intro id d v hd hv
    rw [varTree, ← hv]
    exact .lexical hd
  have choice : Mirrors tallyScope .scalar choiceTerm _ :=
    .ternary (.binary (.plain ⟨4⟩ rfl) (var 1 1 _ rfl rfl) (var 2 2 _ rfl rfl)) (var 4 3 _ rfl rfl)
      (var 5 3 _ rfl rfl)
  exact .binary (.plain ⟨5⟩ rfl) (var 0 0 _ rfl rfl) (.binary .assign choice (.constant (.int 5)))

theorem strayGraph_assembled : Assembled ⟨0⟩ strayGraph [strayTree] := by
  have leaf : ∀ {ts : List HostTree}, ts.Perm ([] ++ ts) := .refl _
  have pair : ∀ {t u : HostTree} {ts : List HostTree}, (t :: u :: ts).Perm ([u, t] ++ ts) :=
    .swap _ _ _
  have triple : ∀ {t u v : HostTree} {ts : List HostTree},
      (t :: u :: v :: ts).Perm ([v, u, t] ++ ts) := fun {t u v ts} =>
    (List.reverse_perm [v, u, t]).append_right ts
  have start : Assembled ⟨0⟩ _ _ := .empty
  have x := start.add ⟨.lexical ⟨0⟩ false, none, false⟩ leaf (by decide)
  have a := x.add ⟨.lexical ⟨1⟩ false, none, false⟩ leaf (by decide)
  have b := a.add ⟨.lexical ⟨2⟩ false, none, false⟩ leaf (by decide)
  have test := b.add ⟨.arith .modulo, some ⟨4⟩, false⟩ pair (by decide)
  have yes := test.add ⟨.lexical ⟨3⟩ false, none, false⟩ leaf (by decide)
  have no := yes.add ⟨.lexical ⟨3⟩ false, none, false⟩ leaf (by decide)
  have choice := no.add ⟨.cond, none, false⟩ triple (by decide)
  have five := choice.add ⟨.const (.int 5), none, false⟩ leaf (by decide)
  have assign := five.add ⟨.assign, none, false⟩ pair (by decide)
  exact assign.add ⟨.arith .modulo, some ⟨5⟩, false⟩ pair (by decide)

theorem strayTree_fits : strayTree.Fits tallyScope 6 := by
  have targets : strayTree.targets = [⟨5⟩, ⟨4⟩] := rfl
  have lexicals : strayTree.lexicals = [⟨0⟩, ⟨1⟩, ⟨2⟩, ⟨3⟩, ⟨3⟩] := rfl
  constructor
  · rw [targets]
    decide
  · rw [targets]
    simp [Scope.Declares, tallyScope]
  · rw [targets, lexicals]
    simp

def strayEdits : List Edit :=
  [⟨⟨0⟩, .detach ⟨6⟩ true [⟨4⟩, ⟨5⟩]⟩,
    ⟨⟨0⟩, .replace ⟨1⟩ ⟨8⟩ ⟨Job.unitName 0, [.call ⟨6⟩, .pop, .storeInt 0 5, .push 0], [⟨6⟩]⟩ false⟩]

theorem strayTerm_compiles :
    ∃ c', Compiler.compile {} tallyScope ⟨0⟩ [strayTerm] = (.ok strayEdits, c') := by
  have leaves : ∀ {ts : List Term}, (∀ t ∈ ts, ∃ a l, t = .leaf a l) → ∀ n,
      Job.compileTerms ⟨tallyScope, ⟨0⟩, true⟩ ts n = .ok [] n := fun h =>
    Job.compileTerms_leaves _ h
  have below : ∀ n, Job.compileTerms ⟨tallyScope, ⟨0⟩, true⟩ choiceTerm.kids n = .ok [] n := fun n => by
    rw [show choiceTerm.kids = [_, varTerm 4 3, varTerm 5 3] from rfl, Job.compileTerms_cons,
      Job.compileTerms_op_interpreted _ (by decide), Effect.bind_ok (leaves (by simp [varTerm]) n),
      Effect.bind_ok (leaves (by simp [varTerm]) n)]
    rfl
  have handed : Lowering.handoversOf tallyScope [strayAssignment] =
      [⟨choiceTerm, .ok ⟨⟨6⟩, [⟨4⟩, ⟨5⟩]⟩⟩] := rfl
  have span : Job.span [strayAssignment] = .ok (⟨1⟩, ⟨8⟩) := rfl
  have code : Lowering.codeOf tallyScope [strayAssignment] =
      .ok [.call ⟨6⟩, .pop, .storeInt 0 5, .push 0] := rfl
  have assignment := Job.compileTerms_operator ⟨tallyScope, ⟨0⟩, true⟩ (by decide) span handed below
    code 0
  have whole : Job.compileTerms ⟨tallyScope, ⟨0⟩, true⟩ [strayTerm] 0 = .ok strayEdits 1 := by
    rw [strayTerm, Job.compileTerms_op_interpreted _ (by decide), Job.compileTerms_cons,
      Effect.bind_ok (leaves (by simp [varTerm]) 0), strayAssignment, Effect.bind_ok assignment]
    rfl
  refine ⟨{ nextUnit := 1 }, ?_⟩
  unfold Compiler.compile
  rw [show Job.compileTerms ⟨tallyScope, ⟨0⟩, ({} : Compiler).options.strict⟩ [strayTerm] _ = _ from whole]

/-! ### Stores after a fault -/

/-- The run has halted with the fault; the variable is undefined then, or defined. -/
def haltsWith (f : Fault) (s : Slot) (undefined : Bool) : EStateM.Result Halt Machine Unit → Bool
  | .error (.fault f') m => f' = f && (m.padValue? s).map Scalar.isUndefined = some undefined
  | _ => false

theorem haltsWith_eq_true {f : Fault} {s : Slot} {b : Bool} {R : EStateM.Result Halt Machine Unit}
    (h : haltsWith f s b R = true) :
    ∃ m, R = .error (.fault f) m ∧ (m.padValue? s).map Scalar.isUndefined = some b := by
  unfold haltsWith at h
  split at h
  · next f' m =>
    simp only [Bool.and_eq_true, decide_eq_true_eq] at h
    obtain ⟨rfl, hv⟩ := h
    exact ⟨m, rfl, hv⟩
  · cases h

theorem padValue?_ne_of_haltsWith {f : Fault} {s : Slot} {R₁ R₂ : EStateM.Result Halt Machine Unit}
    (h₁ : haltsWith f s true R₁ = true) (h₂ : haltsWith f s false R₂ = true) :
    ∃ m₁ m₂, R₁ = .error (.fault f) m₁ ∧ R₂ = .error (.fault f) m₂ ∧
      m₂.padValue? s ≠ m₁.padValue? s := by
  obtain ⟨m₁, run₁, value₁⟩ := haltsWith_eq_true h₁
  obtain ⟨m₂, run₂, value₂⟩ := haltsWith_eq_true h₂
  refine ⟨m₁, m₂, run₁, run₂, fun same => ?_⟩
  rw [same, value₁] at value₂
  cases value₂

/-- Before and after it is compiled a program halts with the fault, and leaves different values in
the variable. -/
def StoresAfterFault (graph : Graph) (T : HostTree) (program : Term) (edits : List Edit) (f : Fault)
    (s : Slot) : Prop :=
  Assembled ⟨0⟩ graph [T] ∧ MirrorsProgram tallyScope program T ∧ T.Fits tallyScope 6 ∧
    ∃ entry g c' units g', Graph.link T.root graph = .ok entry g ∧
      Compiler.compile {} tallyScope ⟨0⟩ [program] = (.ok edits, c') ∧
      Graph.applyEdits edits g = .ok units g' ∧ tallyScope.Declares s ∧
      ∃ m : Machine, m.pad.size = 6 ∧ ∃ m₁ m₂, Machine.run g 40 m = .error (.fault f) m₁ ∧
        Machine.run g' 40 m = .error (.fault f) m₂ ∧ m₂.padValue? s ≠ m₁.padValue? s

end Graft
