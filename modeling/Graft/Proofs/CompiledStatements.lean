import Graft.Proofs.CompiledExpressions

/-! # Compiled statements

Statements mean what their expressions do, one after the other, and leave nothing
(`Statement.meanings`).  The code of a run is that of its expressions, so it has the meaning of
the run (`LowersAll.realizesAll`); if an expression faults, the code of the later ones is still
performed.  A row of statements, compiled or not, performs what the statements mean
(`GraftsRow.performs`).

Between two statements nothing waits, and no box is in use: a marker drops what is on the stack and
frees the temporaries.  A unit has no markers inside, so its code leaves boxes behind that
interpretation would have dropped by then.  The store knows nothing of boxes, so both are at the
same place of the meaning; and when the unit ends, the next marker cleans up.  `Idle` is what is
known of a machine between two statements, and a row goes from one such machine to the next.

The induction over a row has one case for each way in which grafting has dealt with its next
statements: they were left alone, their expression was compiled by itself, or a run of them has
become one unit.
-/

namespace Graft

open HostTree Machine

namespace Statement

/-- **The meaning of statements.** -/
def meanings : List Statement → Meaning Unit
  | [] => return ()
  | s :: ss => do
    let _ ← Meaning.execute s.marker
    let _ ← s.tree.meaning
    meanings ss

theorem meanings_cons_apply (s : Statement) (ss : List Statement) (σ : Store) :
    meanings (s :: ss) σ = (do let _ ← s.tree.meaning; meanings ss) (σ.note s.marker) := rfl

theorem meanings_append (ss ss' : List Statement) :
    meanings (ss ++ ss') = (do meanings ss; meanings ss') := by
  induction ss with
  | nil => exact (pure_bind _ _).symm
  | cons s ss ih => simp only [List.cons_append, meanings, ih, bind_assoc]

/-- The ops of statements. -/
def opsOf (ss : List Statement) : List OpId := idsAll (ss.flatMap row)

theorem opsOf_cons (s : Statement) (ss : List Statement) :
    opsOf (s :: ss) = s.marker :: (s.tree.ids ++ opsOf ss) := by
  simp [opsOf, row, mark]

theorem opsOf_append (ss ss' : List Statement) : opsOf (ss ++ ss') = opsOf ss ++ opsOf ss' := by
  simp [opsOf]

/-- After the marker of the first statement, none of the ops behind it has been executed. -/
theorem done_marker {s : Statement} {ss : List Statement} {σ : Store} (hn : (opsOf (s :: ss)).Nodup)
    (hd : σ.done.Disjoint (opsOf (s :: ss))) :
    (σ.note s.marker).done.Disjoint s.tree.ids ∧ (σ.note s.marker).done.Disjoint (opsOf ss) ∧
      s.tree.ids.Disjoint (opsOf ss) := by
  rw [opsOf_cons, List.nodup_cons, List.mem_append, not_or, List.nodup_append'] at hn
  rw [opsOf_cons, List.disjoint_cons_right, List.disjoint_append_right] at hd
  simp only [Store.note, List.disjoint_append_left, List.singleton_disjoint]
  exact ⟨⟨hd.2.1, hn.1.1⟩, ⟨hd.2.2, hn.1.2⟩, hn.2.2.2⟩

/-- Statements execute only ops of their own. -/
theorem lists_meanings (ss : List Statement) : Meaning.Lists (opsOf ss) (meanings ss) := by
  induction ss with
  | nil => exact Meaning.lists_pure ()
  | cons s ss ih =>
    rw [opsOf_cons]
    refine (Meaning.Runs.execute (by simp) fun _ => ?_).lists
    refine .bind (s.tree.runs_meaning.lists.mono (by simp)) fun _ => ih.mono (by simp)

/-- Statements leave nothing waiting. -/
theorem retains_meanings (ss : List Statement) : Meaning.Retains (meanings ss) := by
  induction ss with
  | nil => exact Meaning.retains_pure ()
  | cons s ss ih =>
    exact (Meaning.retains_execute _).bind fun _ => s.tree.retains_meaning.bind fun _ => ih

theorem done_disjoint {ss : List Statement} {σ σ' : Store} {ids : List OpId}
    (h : meanings ss σ = .ok () σ') (hσ : σ.done.Disjoint ids) (hss : (opsOf ss).Disjoint ids) :
    σ'.done.Disjoint ids := by
  obtain ⟨l, hl, hdone⟩ := lists_meanings ss σ
  rw [h] at hdone
  rw [show σ'.done = _ from hdone, List.disjoint_append_left]
  exact ⟨hσ, List.disjoint_of_subset_left hl hss⟩

end Statement

/-! ### Runs -/

/-- `A` has the variables that assignments in `O` may store to after a fault in one of the trees:
those of assignments that have not been executed. -/
def CoversAll (A : Store → Slot → Prop) (O : Store → HostTree → Slot → Prop) (Ts : List HostTree) :
    Prop :=
  ∀ σ N s, N ∈ subtreesAll Ts → O σ N s → N.root ∉ σ.done → (∃ T ∈ Ts, T.Halts σ.done) → A σ s

namespace CoversAll

variable {A : Store → Slot → Prop} {O : Store → HostTree → Slot → Prop} {T : HostTree}
  {Ts : List HostTree}

theorem head (h : CoversAll A O (T :: Ts)) : Covers A O T := fun σ N s hN ho hr halts =>
  h σ N s (by simp [subtreesAll, hN]) ho hr ⟨T, List.mem_cons_self, halts⟩

theorem tail (h : CoversAll A O (T :: Ts)) : CoversAll A O Ts := fun σ N s hN ho hr ⟨S, hS, halts⟩ =>
  h σ N s (by simp [subtreesAll, hN]) ho hr ⟨S, List.mem_cons_of_mem _ hS, halts⟩

end CoversAll

/-- **The code has the meaning of the statements**, and after a fault it does not do more harm than
the assignments in `O` can do. -/
structure RealizesAll (L : Layout) (A : Store → Slot → Prop) (O : Store → HostTree → Slot → Prop)
    (callBack : OpId → MachineM Unit) (ss : List Statement) (u : Usage) (code : List Instr)
    (u' : Usage) : Prop where
  tracks : ∀ m σ r, Holds L σ m → Waiting L σ.held m.stack →
    σ.done.Disjoint (Statement.opsOf ss) → r.Sized u →
    Tracks (Drifts L A)
      (fun r' m' _ σ' => r'.Sized u' ∧ Holds L σ' m' ∧ m'.stackFloor = m.stackFloor)
      (fun r' _ => r'.Sized u') (performAll callBack code r m) (Statement.meanings ss σ)
  late : ∀ m σ r f, m.fault = some f → Drifts L A σ m → r.Sized u →
    (∀ s ∈ ss, ¬ s.tree.Halts σ.done) →
    (∀ N ∈ subtreesAll (ss.map Statement.tree), ∀ s, O σ N s → A σ s) →
    ∃ r' m', performAll callBack code r m = .ok r' m' ∧ m'.fault = some f ∧ Drifts L A σ m' ∧
      r'.Sized u'

section Runs

variable {L : Layout} {A : Store → Slot → Prop} {O : Store → HostTree → Slot → Prop}
  {callBack : OpId → MachineM Unit} {s : Statement} {ss : List Statement} {u u₁ u₂ : Usage}
  {code code' : List Instr}

theorem RealizesAll.nil : RealizesAll L A O callBack [] u [] u where
  tracks _ _ _ hh _ _ hr := .ok ⟨hr, hh, rfl⟩
  late m _ r _ hf hdrift hr _ _ := ⟨r, m, rfl, hf, hdrift, hr⟩

/-- One more statement: if it faults, all of the rest is late. -/
theorem RealizesAll.cons {Y : Slot → Prop} {v : Operand}
    (h : Realizes L A O callBack s.tree Y u code v u₁)
    (hrest : RealizesAll L A O callBack ss u₁ code' u₂) (hn : (Statement.opsOf (s :: ss)).Nodup)
    (hA : CoversAll A O ((s :: ss).map Statement.tree)) :
    RealizesAll L A O callBack (s :: ss) u (code ++ code') u₂ := by
  constructor
  · intro m σ r hh hw hd hr
    obtain ⟨doneTree, doneRest, apart⟩ := Statement.done_marker hn hd
    rw [performAll_append, Statement.meanings_cons_apply]
    refine (h.tracks m _ r (hh.note s.marker) hw doneTree hr).bind ?_ ?_
    · intro r₁ m₁ p σ₁ hp yields
      have waiting : Waiting L σ₁.held m₁.stack := by
        rw [yields.stack, s.tree.retains_meaning.ok hp]
        exact hw
      have rest := hrest.tracks m₁ σ₁ r₁ yields.holds waiting (done_disjoint hp doneRest apart)
        yields.sized
      rwa [yields.keeps.stackFloor] at rest
    · intro r₁ m₁ f σ₁ hp hf hdrift late
      -- none of the rest has been executed, and what was executed last is in the first statement
      obtain ⟨doneRest₁, halts⟩ := halts_within hp doneRest apart
      have inRest : ∀ s' ∈ ss, s'.tree.ids ⊆ Statement.opsOf ss := fun s' hs' =>
        ids_subset_idsAll (List.mem_flatMap.mpr ⟨s', hs', by simp [Statement.row]⟩)
      have elsewhere : ∀ s' ∈ ss, ¬ s'.tree.Halts σ₁.done := fun s' hs' =>
        Halts.apart halts (List.disjoint_of_subset_right (inRest s' hs') apart)
      refine hrest.late m₁ σ₁ r₁ f hf hdrift late.sized elsewhere fun N hN slot ho => ?_
      have rest : N.root ∈ Statement.opsOf ss := by
        obtain ⟨T, hT, hN'⟩ := mem_subtreesAll.mp hN
        obtain ⟨s', hs', rfl⟩ := List.mem_map.mp hT
        exact inRest s' hs' (mem_ids.mpr ⟨N, hN', rfl⟩)
      exact hA σ₁ N slot (by simp [subtreesAll, hN]) ho (fun hx => doneRest₁ hx rest)
        ⟨s.tree, by simp, halts⟩
  · intro m σ r f hf hdrift hr hlast hlater
    rw [List.forall_mem_cons] at hlast
    obtain ⟨r₁, m₁, hrun₁, hf₁, drift₁, late⟩ := h.late m σ r f hf hdrift hr hlast.1 fun N hN =>
      hlater N (by simp [subtreesAll, hN])
    obtain ⟨r₂, m₂, hrun₂, hf₂, drift₂, sized⟩ := hrest.late m₁ σ r₁ f hf₁ drift₁ late.sized hlast.2
      fun N hN => hlater N (by simp [subtreesAll, hN])
    refine ⟨r₂, m₂, ?_, hf₂, drift₂, sized⟩
    rw [performAll_append, Effect.bind_ok hrun₁, hrun₂]

/-- **The code of a run has the meaning of its statements**, if call-backs have the meanings of what
was handed over. -/
theorem LowersAll.realizesAll {scope : Scope} {hs : List (Term × HostTree)}
    (h : LowersAll scope ss u code hs u₁)
    (hm : ∀ s ∈ ss, L.Suits s.tree ∧ ∃ c, Mirrors scope c s.expr s.tree)
    (hn : (Statement.opsOf ss).Nodup) (hA : CoversAll A O (ss.map Statement.tree))
    (hO : ∀ s ∈ ss, ∀ σ N slot, s.expr.Codes scope σ N slot → O σ N slot)
    (hcall : CallsBack L A callBack hs) :
    RealizesAll L A O callBack ss u code u₁ := by
  induction h with
  | nil => exact .nil
  | cons hl hrest ih =>
    obtain ⟨suits, mirrors⟩ := hm _ List.mem_cons_self
    obtain ⟨calls, calls'⟩ := hcall.of_append
    have first := hl.realizes ⟨mirrors, suits, hA.head, hO _ List.mem_cons_self⟩ calls
    have nodup := hn
    rw [Statement.opsOf_cons, List.nodup_cons, List.nodup_append'] at nodup
    have rest := ih (fun s hs => hm s (by simp [hs])) nodup.2.2.1 hA.tail
      (fun s hs => hO s (by simp [hs])) calls'
    exact .cons first rest hn hA

end Runs

/-! ### Rows -/

/-- A row of statements, with what its units may do to variables after a fault. -/
structure CoveredRow (scope : Scope) (U : List Term → Prop) (L : Layout) (A : Store → Slot → Prop)
    (ss : List Statement) : Prop where
  each : ∀ s ∈ ss, Covered scope U L A s.expr s.tree
  nodup : (Statement.opsOf ss).Nodup
  runs : ∀ run, run <:+: ss → U (run.map Statement.term) →
    (∀ s ∈ run, s.expr.isCompilable scope = true) →
    CoversAll A (CodedIn scope (run.map Statement.expr)) (run.map Statement.tree)

/-- Between statements nothing waits, and a marker clears all of the stack. -/
structure Idle (L : Layout) (σ : Store) (m : Machine) : Prop extends Holds L σ m where
  floor_zero : m.stackFloor = 0
  held : σ.held = []

/-- **The computation has the meaning of the statements.** -/
def Performs (L : Layout) (E : Store → Machine → Prop) (ss : List Statement) (x : MachineM Unit) :
    Prop :=
  ∀ m σ, Idle L σ m → σ.done.Disjoint (Statement.opsOf ss) →
    Mimics E (fun _ m' _ σ' => Idle L σ' m') (x m) (Statement.meanings ss σ)

section Rows

variable {scope : Scope} {U : List Term → Prop} {L : Layout} {A : Store → Slot → Prop}
  {s : Statement} {ss ss' : List Statement} {m : Machine} {σ : Store}

theorem CoveredRow.right (h : CoveredRow scope U L A (ss ++ ss')) : CoveredRow scope U L A ss' where
  each s hs := h.each s (by simp [hs])
  nodup := by
    have nodup := h.nodup
    rw [Statement.opsOf_append, List.nodup_append'] at nodup
    exact nodup.2.1
  runs run hr := h.runs run (hr.trans (List.suffix_append _ _).isInfix)

theorem Holds.endStatement (h : Holds L σ m) : Holds L σ m.endStatement := by
  refine ⟨⟨h.size, h.vars, h.saves⟩, h.fault, ?_⟩
  have floor := h.floor
  show m.stackFloor ≤ (m.stack.drop (m.stack.length - m.stackFloor)).length
  rw [List.length_drop]
  omega

theorem Idle.endStatement (h : Idle L σ m) : Idle L σ m.endStatement ∧ m.endStatement.stack = [] := by
  refine ⟨⟨h.toHolds.endStatement, h.floor_zero, h.held⟩, ?_⟩
  show m.stack.drop (m.stack.length - m.stackFloor) = []
  rw [h.floor_zero, Nat.sub_zero, List.drop_length]

theorem run_mark (s : Statement) (m : Machine) : s.mark.run.erase m = .ok () m.endStatement := by
  rw [Statement.mark, run_plain rfl]
  rfl

/-- A statement, compiled or not, before others. -/
theorem Performs.cons {I : List Slot → List Ref → Prop} {E : Store → Machine → Prop} {T' : HostTree}
    {row : List HostTree} (hI : Accounts L I) (hn : (Statement.opsOf (s :: ss)).Nodup)
    (ht : Computes L I E s.tree T'.run.erase) (hrest : Performs L E ss (runAll row).erase) :
    Performs L E (s :: ss) (runAll (s.mark :: T' :: row)).erase := by
  intro m σ hh hd
  obtain ⟨doneTree, doneRest, apart⟩ := Statement.done_marker hn hd
  obtain ⟨idle, stack⟩ := hh.endStatement
  have account : I (σ.note s.marker).held m.endStatement.stack := by
    rw [stack, show (σ.note s.marker).held = [] from hh.held]
    exact hI.nil
  rw [runAll, Traced.erase_bind, Effect.bind_ok (run_mark s m), runAll, Traced.erase_bind,
    Statement.meanings_cons_apply]
  refine (ht _ _ (idle.note s.marker) account doneTree).bind ?_
  rintro - m' p σ' hp ⟨r, leaves⟩
  have floor := leaves.keeps.stackFloor.trans idle.floor_zero
  have held : σ'.held = [] := (s.tree.retains_meaning.ok hp).trans hh.held
  exact hrest m' σ' ⟨leaves.holds, floor, held⟩ (HostTree.done_disjoint hp doneRest apart)

/-- **Interpretation performs what statements mean.** -/
theorem performs_statements {I : List Slot → List Ref → Prop} {E : Store → Machine → Prop}
    (hI : Accounts L I) (hE : ∀ σ m, Agrees L σ m → I σ.held m.stack → E σ m)
    (hm : ∀ s ∈ ss, L.Suits s.tree ∧ ∃ c, Mirrors scope c s.expr s.tree)
    (hn : (Statement.opsOf ss).Nodup) :
    Performs L E ss (runAll (ss.flatMap Statement.row)).erase := by
  induction ss with
  | nil => exact fun m σ hh _ => .ok hh
  | cons s ss ih =>
    obtain ⟨suits, c, mirrors⟩ := hm s List.mem_cons_self
    have nodup := hn
    rw [Statement.opsOf_cons, List.nodup_cons, List.nodup_append'] at nodup
    exact .cons hI hn (mirrors.computes hI hE suits) (ih (fun s hs => hm s (by simp [hs])) nodup.2.2.1)

/-- What is handed over by a run is part of the program. -/
theorem LowersAll.handed_covered {u u' : Usage} {code : List Instr} {hs : List (Term × HostTree)}
    (h : LowersAll scope ss u code hs u') (hc : ∀ s ∈ ss, Covered scope U L A s.expr s.tree) :
    ∀ q ∈ hs, Covered scope U L A q.1 q.2 := by
  induction h with
  | nil => simp
  | cons hl _ ih =>
    intro q hq
    rcases List.mem_append.mp hq with hq | hq
    · exact (hc _ List.mem_cons_self).handed hl q hq
    · exact ih (fun s hs => hc s (by simp [hs])) q hq

/-- **A unit for a run has the meaning of the statements of the run.** -/
theorem performs_unit {u : Usage} {code : List Instr} {hs : List (Term × HostTree)} {name : String}
    {new : OpId} {fs : List HostTree} {roots : List OpId} (h : LowersAll scope ss ⟨0, 0⟩ code hs u)
    (hc : ∀ s ∈ ss, Covered scope U L A s.expr s.tree) (hn : (Statement.opsOf ss).Nodup)
    (hA : CoversAll A (CodedIn scope (ss.map Statement.expr)) (ss.map Statement.tree))
    (hcall : CallsBack L A (fun root => above (runNamed fs root)) hs)
    (hh : Idle L σ m) (hw : Waiting L σ.held m.stack) (hd : σ.done.Disjoint (Statement.opsOf ss)) :
    Mimics (Drifts L A) (fun _ m' _ σ' => Idle L σ' m')
      ((node new ⟨.native ⟨name, code, roots⟩, none, false⟩ fs).run.erase m)
      (Statement.meanings ss σ) := by
  have realizes : RealizesAll L A (CodedIn scope (ss.map Statement.expr))
      (fun root => above (runNamed fs root)) ss ⟨0, 0⟩ code u :=
    h.realizesAll (fun s hs => ⟨(hc s hs).suits, (hc s hs).mirrors⟩) hn hA
      (fun s hs σ N slot h => ⟨s.expr, List.mem_map_of_mem hs, h⟩) hcall
  have begun : Holds L σ { m with current := some new } :=
    ⟨⟨hh.size, hh.vars, hh.saves⟩, hh.fault, hh.floor⟩
  have whole : Mimics (Drifts L A) (fun _ m' _ σ' => Idle L σ' m')
      ((do
        let _ ← pure (← performAll (fun root => above (runNamed fs root)) code {})
        Machine.raise) { m with current := some new }) (Statement.meanings ss σ) := by
    refine (realizes.tracks _ σ {} begun hw hd ⟨rfl, rfl⟩).raise ?_ ?_
    · rintro r m' ⟨⟩ σ' hp ⟨-, holds, floor⟩
      have held := ((Statement.retains_meanings ss).ok hp).trans hh.held
      exact ⟨r, m', rfl, holds.fault, holds, floor.trans hh.floor_zero, held⟩
    · intro r m' f σ' _ hf hdrift _
      exact ⟨r, m', rfl, hf, hdrift⟩
  rw [run_unit_erase]
  simpa only [pure_bind] using whole

/-- **A row of statements performs what they mean**, whatever of it was compiled.

By induction along the row.  A statement that is kept ends the one before it and computes its
expression; a unit for a run begins with the marker of the run's first statement, and what it leaves
is what the last one would have left. -/
theorem GraftsRow.performs {row : List HostTree} (h : GraftsRow scope U ss row)
    (hc : CoveredRow scope U L A ss) : Performs L (Drifts L A) ss (runAll row).erase := by
  induction h with
  | nil => exact fun m σ hh _ => .ok hh
  | @kept s ss T' row hg _ ih =>
    have split : CoveredRow scope U L A ([s] ++ ss) := hc
    obtain _ | ⟨computes, -⟩ := hg.computes (.cons (hc.each s List.mem_cons_self) .nil)
    exact .cons (Waiting.accounts L) hc.nodup computes (ih split.right)
  | @run s run ss code hs u name new fs' row hu hcomp hl hg hr _ ih =>
    intro m σ hh hd
    have nodup := hc.nodup
    rw [Statement.opsOf_append, List.nodup_append'] at nodup
    obtain ⟨nodupRun, -, apart⟩ := nodup
    rw [Statement.opsOf_append, List.disjoint_append_right] at hd
    have covered : ∀ x ∈ s :: run, Covered scope U L A x.expr x.tree := fun x hx =>
      hc.each x (List.mem_append_left _ hx)
    have roots : ((hs.map Prod.snd).map root).Nodup :=
      (nodupRun.sublist hl.carves.sublist).sublist (map_root_sublist _)
    have calls := callBacks (hg.computes (Covered.forall₂ (hl.handed_covered covered))) hr roots
    have covers := hc.runs _ (List.prefix_append _ _).isInfix hu hcomp
    obtain ⟨idle, stack⟩ := hh.endStatement
    have waiting : Waiting L σ.held m.endStatement.stack := by
      rw [stack, hh.held]
      exact (Waiting.accounts L).nil
    rw [runAll, Traced.erase_bind, Effect.bind_ok (run_mark s m), runAll, Traced.erase_bind,
      Statement.meanings_append]
    -- only the first marker is left; the others are executed by no one
    refine (performs_unit hl covered nodupRun covers calls idle waiting hd.1).bind ?_
    rintro - m' ⟨⟩ σ' hp after
    exact ih hc.right m' σ' after (Statement.done_disjoint hp hd.2 apart)

theorem LowersAll.confined {u u' : Usage} {code : List Instr} {hs : List (Term × HostTree)}
    (h : LowersAll scope ss u code hs u') : Confined ((hs.map Prod.snd).map root) code := by
  induction h with
  | nil => simp [Confined]
  | cons hl _ ih =>
    simp only [List.map_append]
    exact hl.confined.append ih

/-- Units of compiled statements call back into their own fragments only. -/
theorem GraftsRow.callable {row : List HostTree} (h : GraftsRow scope U ss row)
    (hm : ∀ s ∈ ss, Callable s.tree) : ∀ T ∈ row, Callable T := by
  have mark : ∀ s : Statement, Callable s.mark := fun s =>
    callable_node (by simp [Confined, OpKind.code]) (by simp)
  induction h with
  | nil => simp
  | @kept s ss T' row hg _ ih =>
    have tree := hg.callable (by simpa using hm s List.mem_cons_self)
    have rest := ih fun s hs => hm s (by simp [hs])
    simp only [List.forall_mem_cons]
    exact ⟨mark s, tree T' List.mem_cons_self, rest⟩
  | @run s run ss code hs u name new fs' row hu hcomp hl hg hr _ ih =>
    have rest := ih fun s hs => hm s (by simp [hs])
    have fragments := hg.callable fun F hF => by
      obtain ⟨q, hq, rfl⟩ := List.mem_map.mp hF
      exact callable_of_interpreted fun x hx => ((hl.handed_mirrors q hq).1.shape x hx).1
    simp only [List.forall_mem_cons]
    refine ⟨mark s, callable_node ?_ fragments, rest⟩
    rw [hr]
    exact hl.confined

end Rows

end Graft
