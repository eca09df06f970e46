import Graft.Proofs.CompiledStatements
import Graft.Proofs.WellFormed

/-! # Runs of compiled programs

A program is compiled and the edits are applied.  Runs before and after have the same outcome
(`Compiler.run_compiled`): both come to an end, with the same values of all variables, or both
halt with the same fault.

Both graphs are run as the trees that stand in them (`Compiler.run_trees`), and both trees have
the meaning of the program.

Three parts are put together here.  From the structure of the edited graph it is known which tree
stands in it (`MirrorsProgram.regraft`), and from the theorem on loops that a run of the graph is a
run of the tree (`HostTree.Linked.follows`).  The tree before and the tree after have the same
meaning, the one by interpretation and the other by `GraftsAll.computes` and `GraftsRow.performs`.
And two trees with one meaning are run with the same outcome (`Mimics.sameOutcome`): a store
determines the values of the variables on any machine that holds it, and the fault is part of the
meaning.

Runs are bounded by a number of rounds, and a unit takes fewer rounds than the ops that it stands
for.  So the outcome is said of all bounds that are large enough, and the bound is not one of the
reasons to halt that the two runs have in common.
-/

namespace Graft

open HostTree Machine

/-! ### Programs and pads -/

/-- A variable lives in the slot. -/
def Scope.Declares (scope : Scope) (s : Slot) : Prop := ∃ v ∈ scope.declarations, v.slot = s

/-- The variables of a scope, in a pad of that size. -/
def Scope.layout (scope : Scope) (size : Nat) : Layout := ⟨scope.Declares, size⟩

/-- **The tree can be run on a pad of that size**: the slots that it uses are in it, no two ops have
the same slot for their results, and none has that of a variable. -/
structure HostTree.Fits (scope : Scope) (size : Nat) (T : HostTree) : Prop where
  own : T.targets.Nodup
  apart : ∀ s ∈ T.targets, ¬ scope.Declares s
  inside : ∀ s ∈ T.targets ++ T.lexicals, s.index < size

/-- Every op of an expression was read as a term in it. -/
theorem Mirrors.subtree {scope : Scope} {c : Context} {t : Term} {T S : HostTree}
    (h : Mirrors scope c t T) (hS : S ∈ T.subtrees) :
    ∃ u ∈ t.preorder, ∃ c, Mirrors scope c u S := by
  induction T using induction generalizing c t with
  | step id f ks ih =>
    rcases mem_subtrees_iff.mp hS with rfl | ⟨k, hk, hS⟩
    · exact ⟨t, Term.mem_preorder_self t, c, h⟩
    · obtain ⟨w, hw, hm⟩ := h.kid hk
      obtain ⟨u, hu, hm⟩ := ih k hk hm hS
      exact ⟨u, Term.preorder_trans hu (Term.mem_preorder_of_kid hw), hm⟩

/-- The variables in an expression are declared. -/
theorem Mirrors.declares {scope : Scope} {c : Context} {t : Term} {S : HostTree} {s : Slot} {new : Bool}
    (h : Mirrors scope c t S) (hs : S.face.kind = .lexical s new) : scope.Declares s := by
  have found : ∀ {d : DeclId} {v : Declaration}, scope.get? d = some v → scope.Declares v.slot :=
    fun hd => ⟨_, Array.mem_of_getElem? hd, rfl⟩
  cases h with
  | constant => cases hs
  | lexical hd =>
    cases hs
    exact found hd
  | declaration hd =>
    cases hs
    exact found hd
  | negation => cases hs
  | binary hf => cases hf <;> cases hs
  | ternary => cases hs

/-- The ops of a program are the list with its markers, and the ops of expressions. -/
theorem MirrorsProgram.subtree {scope : Scope} {program : Term} {T S : HostTree}
    (h : MirrorsProgram scope program T) (hS : S ∈ T.subtrees) :
    S.face.kind = .statements ∨ S.face.kind = .mark ∨ ∃ u c, Mirrors scope c u S := by
  cases h with
  | expression hm =>
    obtain ⟨u, -, hu⟩ := hm.subtree hS
    exact .inr (.inr ⟨u, hu⟩)
  | statements _ hm =>
    rcases mem_subtrees_iff.mp hS with rfl | ⟨k, hk, hS⟩
    · exact .inl rfl
    · obtain ⟨s, hs, hk⟩ := List.mem_flatMap.mp hk
      simp only [Statement.row, List.mem_cons, List.not_mem_nil, or_false] at hk
      rcases hk with rfl | rfl
      · rcases mem_subtrees_iff.mp hS with rfl | ⟨k, hk, -⟩
        · exact .inr (.inl rfl)
        · cases hk
      · obtain ⟨u, -, hu⟩ := (hm s hs).subtree hS
        exact .inr (.inr ⟨u, hu⟩)

theorem MirrorsProgram.suits {scope : Scope} {size : Nat} {program : Term} {T : HostTree}
    (h : MirrorsProgram scope program T) (hf : T.Fits scope size) (hn : T.ids.Nodup) :
    (scope.layout size).Suits T where
  ids := hn
  nodup := hf.own
  targets s hs := ⟨hf.apart s hs, hf.inside s (by simp [hs])⟩
  lexicals s hs := by
    refine ⟨?_, hf.inside s (by simp [hs])⟩
    obtain ⟨S, hS, hs⟩ := List.mem_filterMap.mp hs
    split at hs
    · next slot new hk =>
      cases hs
      rcases h.subtree hS with h | h | ⟨u, c, h⟩
      · rw [hk] at h
        cases h
      · rw [hk] at h
        cases h
      · exact h.declares hk
    · cases hs

/-! ### Whole runs -/

section Whole

variable {x : Traced Unit} {m m' : Machine}

theorem whole_settle_ok (hx : Steady x.erase) (h : x.erase m.fresh = .ok () m') :
    whole (Traced.settle x).erase m = .ok () ({ m' with current := none }.forget m.saves.length) := by
  have quiet : m'.fault = none := by
    have steady := hx m.fresh rfl
    rwa [h] at steady
  have settled : (Traced.settle x).erase m.fresh = .ok () m' :=
    congrArg Prod.snd (Traced.settle_of_ok (show x m.fresh = ((x m.fresh).1, _) from
      Prod.ext rfl h))
  unfold whole
  simp only [Effect.modify_bind, Effect.get_bind]
  rw [Effect.bind_ok settled]
  simp only [Effect.modify_bind, Effect.get_bind, quiet]
  rfl

theorem whole_settle_fault {f : Fault} (hx : Steady x.erase)
    (h : x.erase m.fresh = .error (.fault f) m') :
    whole (Traced.settle x).erase m = .error (.fault f)
      { { m'.fail f with current := none }.unwind m.saves.length with fault := none } := by
  have failed : (m'.fail f).fault = some f := by
    have steady := hx m.fresh rfl
    rw [h] at steady
    exact steady.2 f rfl
  have settled : (Traced.settle x).erase m.fresh = .ok () (m'.fail f) :=
    congrArg Prod.snd (Traced.settle_of_fault (show x m.fresh = ((x m.fresh).1, _) from
      Prod.ext rfl h))
  unfold whole
  simp only [Effect.modify_bind, Effect.get_bind]
  rw [Effect.bind_ok settled]
  simp only [Effect.modify_bind, Effect.get_bind, failed]
  rfl

theorem whole_settle_overflow (h : x.erase m.fresh = .error .overflow m') :
    whole (Traced.settle x).erase m = .error .overflow m' := by
  have settled : (Traced.settle x).erase m.fresh = .error .overflow m' := by
    have both : x m.fresh = ((x m.fresh).1, .error .overflow m') := Prod.ext rfl h
    show (Traced.settle x m.fresh).2 = _
    simp only [Traced.settle]
    rw [both]
  unfold whole
  simp only [Effect.modify_bind, Effect.get_bind]
  rw [Effect.bind_error settled]

end Whole

/-! ### Outcomes -/

/-- The machines show the same: the values of all variables, what is saved of them, and for an
expression its value. -/
structure SameEnd (scope : Scope) (T : HostTree) (m₁ m₂ : Machine) : Prop where
  vars : ∀ s, scope.Declares s → m₂.padValue? s = m₁.padValue? s
  saves : m₂.saves = m₁.saves
  value : T.face.kind ≠ .statements → ∃ v, m₁.stackValues = [v] ∧ m₂.stackValues = [v]

/-- **Two runs have the same outcome**: both come to their end and show the same, or both halt for
the same reason, and that is not the bound on their length. -/
inductive SameOutcome (scope : Scope) (T : HostTree) :
    EStateM.Result Halt Machine Unit → EStateM.Result Halt Machine Unit → Prop where
  | ended {m₁ m₂ : Machine} : SameEnd scope T m₁ m₂ → SameOutcome scope T (.ok () m₁) (.ok () m₂)
  | halted {h : Halt} {m₁ m₂ : Machine} : h ≠ .outOfFuel →
      SameOutcome scope T (.error h m₁) (.error h m₂)

section Outcomes

variable {scope : Scope} {size : Nat} {T : HostTree} {m m₁ m₂ : Machine} {σ : Store}

/-- What a run starts from. -/
def Machine.store (m : Machine) : Store := ⟨fun s => m.read (.pad s), m.saves, [], []⟩

theorem holds_fresh (hm : m.pad.size = size) : Holds (scope.layout size) m.store m.fresh :=
  ⟨⟨hm, fun _ _ => rfl, rfl⟩, rfl, Nat.le_refl 0⟩

/-- Machines of one size that agree on a box have the same value there. -/
theorem padValue?_eq {s : Slot} (hs : m₁.pad.size = m₂.pad.size)
    (hr : m₁.read (.pad s) = m₂.read (.pad s)) : m₁.padValue? s = m₂.padValue? s := by
  unfold padValue?
  by_cases hi : s.index < m₁.pad.size
  · have hi' : s.index < m₂.pad.size := hs ▸ hi
    simp only [Machine.read, Array.getElem?_eq_getElem hi, Array.getElem?_eq_getElem hi',
      Option.getD_some] at hr ⊢
    rw [hr]
  · rw [Array.getElem?_eq_none (Nat.le_of_not_lt hi),
      Array.getElem?_eq_none (hs ▸ Nat.le_of_not_lt hi)]

/-- **The meaning of a program**: what its statements do, or what its expression does, with the
value of that. -/
inductive Denotes (scope : Scope) : HostTree → Meaning (Option Scalar) → Prop where
  | expression {c : Context} {t : Term} {T : HostTree} : Mirrors scope c t T →
      Denotes scope T (do let p ← T.meaning; return some (p.read (← get)))
  | statements {id : OpId} {ss : List Statement} : ss ≠ [] →
      (∀ s ∈ ss, ∃ c, Mirrors scope c s.expr s.tree) →
      Denotes scope (statementTree id ss) (do Statement.meanings ss; return none)

/-- What a machine shows at the end of a run. -/
structure Shows (scope : Scope) (size : Nat) (T : HostTree) (m : Machine) (v : Option Scalar)
    (σ : Store) : Prop extends Agrees (scope.layout size) σ m where
  value : T.face.kind ≠ .statements → ∃ x, v = some x ∧ m.stackValues = [x]

/-- Machines that show the same results show the same. -/
theorem Shows.sameEnd {v : Option Scalar} (h₁ : Shows scope size T m₁ v σ)
    (h₂ : Shows scope size T m₂ v σ) : SameEnd scope T m₁ m₂ where
  vars s hs := padValue?_eq (h₂.size.trans h₁.size.symm) ((h₂.vars s hs).trans (h₁.vars s hs).symm)
  saves := h₂.saves.trans h₁.saves.symm
  value hT := by
    obtain ⟨x, hx, values₁⟩ := h₁.value hT
    obtain ⟨y, hy, values₂⟩ := h₂.value hT
    cases hx.symm.trans hy
    exact ⟨x, values₁, values₂⟩

/-- The value of an expression is on the stack. -/
theorem Leaves.shows {ts : List Slot} {r : Ref} {p : Place}
    (h : Leaves (scope.layout size) ts m.fresh m₁ σ r p) :
    Shows scope size T m₁ (some (p.read σ)) σ := by
  refine ⟨h.holds.toAgrees, fun _ => ⟨_, rfl, ?_⟩⟩
  unfold Machine.stackValues
  rw [h.stack]
  exact congrArg (fun v => [v]) (h.means.read h.holds)

theorem Computes.shows {I : List Slot → List Ref → Prop} {E : Store → Machine → Prop} {S : HostTree}
    {x : MachineM Unit} (h : Computes (scope.layout size) I E S x)
    (hI : Accounts (scope.layout size) I) (hm : m.pad.size = size) :
    Mimics E (fun _ => Shows scope size T) (x m.fresh)
      ((do let p ← S.meaning; return some (p.read (← get))) m.store) := by
  have computes := h m.fresh m.store (holds_fresh hm) hI.nil (List.disjoint_nil_left _)
  generalize hX : x m.fresh = X at computes
  generalize hD : S.meaning m.store = D at computes
  cases computes with
  | ok leaves =>
    obtain ⟨r, leaves⟩ := leaves
    rw [Effect.bind_ok hD]
    exact .ok leaves.shows
  | error he =>
    rw [Effect.bind_error hD]
    exact .error he

theorem Performs.shows {E : Store → Machine → Prop} {id : OpId} {ss : List Statement}
    {x : MachineM Unit} (h : Performs (scope.layout size) E ss x) (hm : m.pad.size = size) :
    Mimics E (fun _ => Shows scope size (statementTree id ss)) (x m.fresh)
      ((do Statement.meanings ss; return none) m.store) := by
  have performs := h m.fresh m.store ⟨holds_fresh hm, rfl, rfl⟩ (List.disjoint_nil_left _)
  generalize hX : x m.fresh = X at performs
  generalize hD : Statement.meanings ss m.store = D at performs
  cases performs with
  | ok idle =>
    rw [Effect.bind_ok hD]
    exact .ok ⟨idle.toAgrees, fun hk => absurd rfl hk⟩
  | error he =>
    rw [Effect.bind_error hD]
    exact .error he

/-- **Trees with one meaning are run with the same outcome.** -/
theorem Mimics.sameOutcome {x y : Traced Unit} {D : EStateM.Result Halt Store (Option Scalar)}
    {E E' : Store → Machine → Prop} (hx : Steady x.erase) (hy : Steady y.erase)
    (h : Mimics E (fun _ => Shows scope size T) (x.erase m.fresh) D)
    (h' : Mimics E' (fun _ => Shows scope size T) (y.erase m.fresh) D) :
    SameOutcome scope T (whole (Traced.settle x).erase m) (whole (Traced.settle y).erase m) := by
  generalize hX : x.erase m.fresh = X at h
  generalize hY : y.erase m.fresh = Y at h'
  -- how the meaning ends decides how both runs end
  cases h with
  | @ok _ m₁ a σ shows₁ =>
    cases h' with
    | @ok _ m₂ _ _ shows₂ =>
      have same := shows₁.sameEnd shows₂
      rw [whole_settle_ok hx hX, whole_settle_ok hy hY]
      refine .ended ⟨same.vars, ?_, same.value⟩
      show m₂.saves.drop (m₂.saves.length - _) = m₁.saves.drop (m₁.saves.length - _)
      rw [same.saves]
  | @error e m₁ σ _ =>
    cases h' with
    | @error _ m₂ _ _ =>
      cases e with
      | fault f =>
        rw [whole_settle_fault hx hX, whole_settle_fault hy hY]
        exact .halted (by simp)
      | overflow =>
        rw [whole_settle_overflow hX, whole_settle_overflow hY]
        exact .halted (by simp)
      | outOfFuel =>
        have steady := hx m.fresh rfl
        rw [hX] at steady
        exact absurd rfl steady.1

end Outcomes

/-! ### Before and after the edits -/

/-- What units of a program may do to variables after a fault. -/
structure CoveredProgram (scope : Scope) (U : List Term → Prop) (L : Layout)
    (A : Store → Slot → Prop) (program : Term) (T : HostTree) : Prop where
  expression : ∀ c, Mirrors scope c program T → Covered scope U L A program T
  statements : ∀ a id ss, program = statementTerm a id ss → T = statementTree id ss →
    (∀ s ∈ ss, Mirrors scope .void s.expr s.tree) → CoveredRow scope U L A ss

section Edited

variable {scope : Scope} {U : List Term → Prop} {L : Layout} {A : Store → Slot → Prop} {size : Nat}
  {program : Term} {T T' : HostTree}

theorem Layout.Suits.statements {id : OpId} {ss : List Statement} (h : L.Suits (statementTree id ss)) :
    (∀ s ∈ ss, L.Suits s.tree) ∧ (Statement.opsOf ss).Nodup := by
  refine ⟨fun s hs => h.kid (List.mem_flatMap.mpr ⟨s, hs, by simp [Statement.row]⟩), ?_⟩
  exact (nodup_kids h.ids).2

theorem GraftsRow.ne_nil {ss : List Statement} {row : List HostTree} (h : GraftsRow scope U ss row)
    (hs : ss ≠ []) : row ≠ [] := by
  cases h with
  | nil => exact absurd rfl hs
  | kept => simp
  | run => simp

theorem GraftsProgram.callable (h : GraftsProgram scope U program T T') : Callable T' := by
  cases h with
  | expression hm hg =>
    refine hg.callable ?_ T' List.mem_cons_self
    simpa using callable_of_interpreted fun x hx => (hm.shape x hx).1
  | statements _ hm hg =>
    refine callable_node (by simp [Confined, OpKind.code]) (hg.callable fun s hs => ?_)
    exact callable_of_interpreted fun x hx => ((hm s hs).shape x hx).1

/-- **A graph is run as the tree that stands in it.** -/
theorem run_of_linked {g : Graph} (hl : Linked g T none) (hn : T.ids.Nodup) (hc : Callable T)
    (he : g.entry = some T.start) :
    ∃ bound, ∀ fuel, bound ≤ fuel → ∀ m : Machine,
      Traced.loop g fuel (some T.start) m.fresh = Traced.settle T.run m.fresh ∧
      Machine.run g fuel m = whole (Traced.settle T.run).erase m := by
  obtain ⟨bound, follows⟩ := hl.follows hn hc (follows_none g)
  refine ⟨bound, fun fuel hfuel m => ?_⟩
  have same : Traced.loop g fuel (some T.start) m.fresh = Traced.settle T.run m.fresh := by
    simpa using follows fuel hfuel m.fresh rfl
  refine ⟨same, ?_⟩
  rw [run_eq_whole he, ← Traced.erase_loop]
  exact whole_congr (congrArg Prod.snd same)

/-- **Compiling changes the tree that is run**, to one in which units stand for ops. -/
theorem Compiler.run_trees {c c' : Compiler} {owner : OwnerId} {g₀ g : Graph} {ts : List HostTree}
    {entry : OpId} {edits : List Edit} (hg : Assembled owner g₀ ts) (hT : T ∈ ts)
    (hp : MirrorsProgram scope program T) (hl : Graph.link T.root g₀ = .ok entry g)
    (hc : c.compile scope owner [program] = (.ok edits, c')) :
    T.ids.Nodup ∧ ∃ units g' T', Graph.applyEdits edits g = .ok units g' ∧
      GraftsProgram scope (Job.Installs ⟨scope, owner, c.options.strict⟩ [program] edits) program T T' ∧
      ∃ bound, ∀ fuel, bound ≤ fuel → ∀ m : Machine,
        Traced.loop g fuel g.entry m.fresh = Traced.settle T.run m.fresh ∧
        Machine.run g fuel m = whole (Traced.settle T.run).erase m ∧
        Machine.run g' fuel m = whole (Traced.settle T'.run).erase m := by
  obtain ⟨forest, rfl⟩ := hg.forest
  obtain ⟨loaded, howner⟩ := forest.loaded hT hl
  obtain ⟨n, hn⟩ := Compiler.compile_eq_ok hc
  obtain ⟨g', T', ⟨units, applies⟩, regraft, grafts⟩ := hp.regraft loaded howner hn
  have old := loaded.standing
  have new := regraft.standing none old
  have oldNodup : T.ids.Nodup := by simpa using old.nodup
  have newNodup : T'.ids.Nodup := by simpa using new.nodup
  -- the program is interpreted at first, so nothing in it is called back
  have unitless : ∀ s ∈ T.subtrees, s.shape ≠ .unit := fun s hs => by
    rcases hp.subtree hs with h | h | ⟨_, _, h⟩
    · simp [HostTree.shape, h, OpKind.shape]
    · simp [HostTree.shape, h, OpKind.shape]
    · exact (h.shape s (mem_subtrees_self s)).1
  have entry' : g'.entry = some T'.start := by
    obtain ⟨τ, hτ⟩ := regraft.moves
    have start : some (τ T.start) = some T'.start := hτ.start
    rw [hτ.entry, loaded.entry]
    exact start
  obtain ⟨b, before⟩ := run_of_linked old.linked.1 oldNodup (callable_of_interpreted unitless)
    loaded.entry
  obtain ⟨a, after⟩ := run_of_linked new.linked.1 newNodup grafts.callable entry'
  refine ⟨oldNodup, units, g', T', applies, grafts, max b a, fun fuel hfuel m => ?_⟩
  obtain ⟨loop, run⟩ := before fuel (by omega) m
  exact ⟨by rw [loaded.entry]; exact loop, run, (after fuel (by omega) m).2⟩

/-- **The tree of a program has its meaning, before and after it was compiled.** -/
theorem GraftsProgram.mimics {m : Machine} (h : GraftsProgram scope U program T T')
    (hs : (scope.layout size).Suits T) (hc : CoveredProgram scope U (scope.layout size) A program T)
    (hm : m.pad.size = size) :
    ∃ d, Denotes scope T d ∧
      Mimics (fun σ m => Agrees (scope.layout size) σ m ∧ OnStack σ.held m.stack)
        (fun _ => Shows scope size T) (T.run.erase m.fresh) (d m.store) ∧
      Mimics (Drifts (scope.layout size) A) (fun _ => Shows scope size T) (T'.run.erase m.fresh)
        (d m.store) := by
  have agrees : ∀ σ m, Agrees (scope.layout size) σ m → OnStack σ.held m.stack →
      Agrees (scope.layout size) σ m ∧ OnStack σ.held m.stack := fun _ _ => And.intro
  have onStack := OnStack.accounts (scope.layout size)
  cases h with
  | expression mirrors hg =>
    obtain _ | ⟨computes, -⟩ := hg.computes (.cons (hc.expression _ mirrors) .nil)
    exact ⟨_, .expression mirrors, (mirrors.computes onStack agrees hs).shows onStack hm,
      computes.shows (Waiting.accounts _) hm⟩
  | @statements a id ss row hne mirrors hg =>
    obtain ⟨suits, nodup⟩ := hs.statements
    have before := performs_statements onStack agrees (fun s hs => ⟨suits s hs, _, mirrors s hs⟩) nodup
    have after := hg.performs (hc.statements a id ss rfl rfl mirrors)
    have rows : ss.flatMap Statement.row ≠ [] := (GraftsRow.refl scope U ss).ne_nil hne
    have run : (statementTree id ss).run = runAll (ss.flatMap Statement.row) :=
      run_listed_cons rfl rows
    have run' : (node id ⟨.statements, none, false⟩ row).run = runAll row :=
      run_listed_cons rfl (hg.ne_nil hne)
    rw [run, run']
    exact ⟨_, .statements hne fun s hs => ⟨_, mirrors s hs⟩, before.shows hm, after.shows hm⟩

/-- Any variable may be stored to after a fault, as far as outcomes go. -/
theorem CoveredProgram.of_suits (h : L.Suits T) :
    CoveredProgram scope U L (fun _ _ => True) program T := by
  have covered : ∀ {c u N}, Mirrors scope c u N → L.Suits N →
      Covered scope U L (fun _ _ => True) u N :=
    fun hm hs => ⟨⟨_, hm⟩, hs, fun _ _ _ _ _ _ _ _ _ _ _ _ _ _ => trivial⟩
  constructor
  · exact fun c hm => covered hm h
  · rintro a id ss - rfl hm
    obtain ⟨suits, nodup⟩ := h.statements
    exact ⟨fun s hs => covered (hm s hs) (suits s hs), nodup,
      fun _ _ _ _ _ _ _ _ _ _ _ => trivial⟩

/-- **Compiled code computes what interpretation computes.**  A program is compiled, and the edits
are applied to the graph that it was read from.  Every run of the edited graph has the outcome of
the run of the graph before: both end with the same values in all variables, an expression with
the same value on the stack, or both halt with the same fault.

Each run is first that of a tree: of the tree that the graph was assembled from, and of the tree
that the edits make of it.  The second is the first with units grafted in, and by induction over
this relation each tree mimics the meaning of the program, on the same stores.  So the two runs have
one outcome between them, and neither is cut off. -/
theorem Compiler.run_compiled {c c' : Compiler} {owner : OwnerId} {g₀ g : Graph}
    {ts : List HostTree} {entry : OpId} {edits : List Edit} (hg : Assembled owner g₀ ts) (hT : T ∈ ts)
    (hp : MirrorsProgram scope program T) (hf : T.Fits scope size)
    (hl : Graph.link T.root g₀ = .ok entry g)
    (hc : c.compile scope owner [program] = (.ok edits, c')) :
    ∃ units g', Graph.applyEdits edits g = .ok units g' ∧ ∃ bound, ∀ fuel, bound ≤ fuel →
      ∀ m : Machine, m.pad.size = size →
        SameOutcome scope T (Machine.run g fuel m) (Machine.run g' fuel m) := by
  obtain ⟨nodup, units, g', T', applies, grafts, bound, runs⟩ := run_trees hg hT hp hl hc
  refine ⟨units, g', applies, bound, fun fuel hfuel m hm => ?_⟩
  obtain ⟨-, before, after⟩ := runs fuel hfuel m
  have suits := hp.suits hf nodup
  obtain ⟨d, -, mimics, mimics'⟩ := grafts.mimics suits (.of_suits suits) hm
  rw [before, after]
  exact mimics.sameOutcome (steady_run T) (steady_run T') mimics'

end Edited

/-- A sum with an operand that is called back: it ends with the same value. -/
theorem Compiler.run_compiled_sum : ∃ g edits c', Graph.link ⟨4⟩ sumGraph = .ok ⟨0⟩ g ∧
    Compiler.compile {} sumScope ⟨0⟩ [sumTerm] = (.ok edits, c') ∧ sumTree.Fits sumScope 3 ∧
    ∃ units g', Graph.applyEdits edits g = .ok units g' ∧ ∃ bound, ∀ fuel, bound ≤ fuel →
      ∀ m : Machine, m.pad.size = 3 →
        SameOutcome sumScope sumTree (Machine.run g fuel m) (Machine.run g' fuel m) := by
  obtain ⟨edits, c', hc⟩ := sumTerm_compiles {} (show sumTerm.isCompilable sumScope = true by decide)
    rfl rfl
  have targets : sumTree.targets = [⟨2⟩] := rfl
  have lexicals : sumTree.lexicals = [⟨0⟩, ⟨1⟩] := rfl
  have fits : sumTree.Fits sumScope 3 := {
    own := by rw [targets]; exact List.nodup_singleton _
    apart := by
      rw [targets]
      simp [Scope.Declares, sumScope]
    inside := by
      rw [targets, lexicals]
      simp }
  exact ⟨_, edits, c', rfl, hc, fits, Compiler.run_compiled sumGraph_assembled (by simp)
    (.expression sumTerm_mirrors) fits rfl hc⟩

end Graft
