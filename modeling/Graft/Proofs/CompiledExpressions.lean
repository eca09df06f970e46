import Graft.Proofs.StatementRows
import Graft.Proofs.UnitCode

/-! # Compiled expressions

An expression computes the same after it was compiled (`GraftsAll.computes`).  Its ops are what
they were, or they are units; the code of a unit has the meaning of the op that it stands for,
since what it calls back into computes the same as before.

The induction is over what grafting has made of the trees (`GraftsAll`): it has a case for an op
that was left alone, where `Mirrors.computes_node` is used with the compiled operands in the places
of the kids, and one for a unit, where the fragments have been compiled in their turn.  A call-back
is a loop of its own that runs a fragment to its end; that the fragment is linked and leads nowhere
is what makes it that (`HostTree.Linked.follows`), and the machine between call-backs has the frame
of the unit and not of the program.

The code of a unit ends by delivering its value (`Delivers`), and there it is no longer the code of
a term: the value goes to the slot of the op, or it is a box that an assignment has stored to.

What a unit may store to after a fault is settled by the terms of its run, and the places where a
program can halt are covered by such runs (`Covered`).  An op outside all units that faults stops
the run at once, so nothing is stored there.
-/

namespace Graft

open HostTree Machine

/-! ### Units -/

/-- A unit for the terms has code for the op that may store to the variable. -/
def CodedIn (scope : Scope) (run : List Term) (σ : Store) (N : HostTree) (s : Slot) : Prop :=
  ∃ t ∈ run, t.Codes scope σ N s

namespace Lowers

variable {scope : Scope} {t : Term} {T : HostTree} {u u' : Usage} {code : List Instr}
  {hs : List (Term × HostTree)} {v : Operand}

/-- What is handed over is below the term. -/
theorem handed_below (h : Lowers scope t T u code hs v u') :
    ∀ q ∈ hs, q.1 ∈ t.preorder ∧ q.2 ∈ T.subtrees := by
  -- an operand that is handed over is below the operator
  have below : ∀ {a : Attributes} {c : Operator} {b : Bool} {ts : List Term} {id : OpId} {f : Face}
      {ks : List HostTree} {k : Term} {K : HostTree} {q : Term × HostTree}, k ∈ ts → K ∈ ks →
      q.1 ∈ k.preorder ∧ q.2 ∈ K.subtrees →
      q.1 ∈ (Term.op a c b ts).preorder ∧ q.2 ∈ (node id f ks).subtrees := by
    intro a c b ts id f ks k K q hk hK hq
    refine ⟨?_, subtrees_trans hq.2 (subtrees_of_kid hK)⟩
    rw [Term.preorder, List.mem_cons, Term.mem_preorders]
    exact .inr ⟨k, hk, hq.1⟩
  induction h with
  | double => simp
  | int => simp
  | uint => simp
  | lexical => simp
  | declaration => simp
  | negation _ _ ih => exact fun q hq => below (by simp) (by simp) (ih q hq)
  | binary _ _ _ _ ihl ihr =>
    exact fun q hq => (List.mem_append.mp hq).elim (fun hq => below (by simp) (by simp) (ihl q hq))
      fun hq => below (List.mem_cons_of_mem _ (List.mem_singleton_self _))
        (List.mem_cons_of_mem _ (List.mem_singleton_self _)) (ihr q hq)
  | assigning _ _ _ _ ihl ihr =>
    exact fun q hq => (List.mem_append.mp hq).elim (fun hq => below (by simp) (by simp) (ihl q hq))
      fun hq => below (List.mem_cons_of_mem _ (List.mem_singleton_self _))
        (List.mem_cons_of_mem _ (List.mem_singleton_self _)) (ihr q hq)
  | assign _ _ _ ihl ihr =>
    exact fun q hq => (List.mem_append.mp hq).elim (fun hq => below (by simp) (by simp) (ihl q hq))
      fun hq => below (List.mem_cons_of_mem _ (List.mem_singleton_self _))
        (List.mem_cons_of_mem _ (List.mem_singleton_self _)) (ihr q hq)
  | handed => simpa using ⟨Term.mem_preorder_self _, mem_subtrees_self _⟩

/-- The value of an operator is a double that goes to the slot of its op, or the box that the op
has stored to. -/
theorem delivered (h : Lowers scope t T u code hs v u') (hc : t.isCompilable scope = true)
    (hk : T.kids ≠ []) :
    (∃ s i, T.face.targ = some s ∧ v = .float i) ∨ ∃ b, T.face.targ = none ∧ v = .box b := by
  cases h with
  | double => exact absurd rfl hk
  | int => exact absurd rfl hk
  | uint => exact absurd rfl hk
  | lexical => exact absurd rfl hk
  | declaration => exact absurd rfl hk
  | negation => exact .inl ⟨_, _, rfl, rfl⟩
  | binary => exact .inl ⟨_, _, rfl, rfl⟩
  | assigning => exact .inr ⟨_, rfl, rfl⟩
  | assign => exact .inr ⟨_, rfl, rfl⟩
  | handed _ hn => simp [hn] at hc

end Lowers

section Units

variable {L : Layout} {A : Store → Slot → Prop} {callBack : OpId → MachineM Unit} {scope : Scope}
  {t : Term} {T : HostTree} {m : Machine} {σ : Store} {u : Usage} {r : Registers}

/-- **The code delivers the value of the tree**, which is the operand `v`: it leaves its box on the
stack, and after a fault it does no further harm. -/
structure Delivers (L : Layout) (A : Store → Slot → Prop) (callBack : OpId → MachineM Unit)
    (T : HostTree) (Y : Slot → Prop) (v : Operand) (u : Usage) (code : List Instr) : Prop where
  leaves : ∀ m m' r r' σ p, m.stackFloor ≤ m.stack.length → Yields L T Y m m' r r' u v σ p →
    ∃ r'' m'', performAll callBack code r' m' = .ok r'' m'' ∧ ∃ b, Leaves L T.targets m m'' σ b p
  late : ∀ m r r' σ f, m.fault = some f → Drifts L A σ m → Late L A T Y r r' u v σ →
    ∃ r'' m', performAll callBack code r' m = .ok r'' m' ∧ m'.fault = some f ∧ Drifts L A σ m'

theorem performAll_delivery_slot {s : Slot} {i : Nat} (callBack : OpId → MachineM Unit)
    (hr : r.Sized u) (hs : s.index < m.pad.size) :
    ∃ r', performAll callBack (delivery (some s) (.float i) u) r m =
      .ok r' ((m.write (.pad s) (.num (r.float i))).push (.pad s)) := by
  have box : (r.withBox (.pad s)).box u.boxes = .pad s := by
    rw [← hr.boxes]
    exact Registers.box_withBox _
  refine ⟨r.withBox (.pad s), ?_⟩
  simp only [delivery, Operand.store, performAll]
  rw [Effect.bind_ok (perform_pad r hs)]
  show EStateM.Result.ok (r.withBox (.pad s))
    ((m.write ((r.withBox (.pad s)).box u.boxes) (.num (r.float i))).push
      ((r.withBox (.pad s)).box u.boxes)) = _
  rw [box]

/-- A double goes to the slot of its op, which is no variable. -/
theorem delivers_slot {s : Slot} {i : Nat} {Y : Slot → Prop} (hsuits : L.Suits T)
    (hs : T.face.targ = some s) :
    Delivers L A callBack T Y (.float i) u (delivery T.face.targ (.float i) u) := by
  obtain ⟨-, notVar, inside⟩ : s ∈ T.targets ∧ ¬ L.vars s ∧ s.index < L.size := by
    cases T with
    | node id f ks => exact hsuits.own hs
  rw [hs]
  constructor
  · intro m m' r r' σ p floor yields
    obtain ⟨r'', hrun⟩ := performAll_delivery_slot (i := i) callBack yields.sized
      (by rw [yields.holds.size]; exact inside)
    obtain rfl : p = .value (.num (r'.float i)) := by cases yields.stands; rfl
    have floor' : m'.stackFloor ≤ m.stack.length := by rw [yields.keeps.stackFloor]; exact floor
    have stack : { m' with stack := m.stack } = m' := by
      rw [← show m'.stack = m.stack from yields.stack]
    refine ⟨r'', _, hrun, .pad s, ?_⟩
    cases T with
    | node id f ks =>
      have leaves := hsuits.leaves hs yields.holds yields.keeps floor' (.num (r'.float i))
      rwa [stack] at leaves
  · intro m r r' σ f hf hdrift late
    obtain ⟨r'', hrun⟩ := performAll_delivery_slot (i := i) callBack late.sized
      (by rw [hdrift.size]; exact inside)
    have aside : ∀ s', Ref.pad s = .pad s' → L.vars s' → A σ s' := by
      intro s' he hv
      cases he
      exact absurd hv notVar
    exact ⟨r'', _, hrun, (fault_write m _ _).trans hf,
      (hdrift.write aside _).push fun s' he hv => .inr (aside s' he hv)⟩

/-- A box that has been stored to is delivered as it is. -/
theorem delivers_box {b : Nat} {Y : Slot → Prop} (hk : T.kids ≠ []) (hb : T.face.targ = none) :
    Delivers L A callBack T Y (.box b) u (delivery T.face.targ (.box b) u) := by
  rw [hb]
  constructor
  · intro m m' r r' σ p floor yields
    refine ⟨r', m'.push (r'.box b), rfl, r'.box b, ?_, yields.holds.stack ?_, yields.keeps.stack, ?_⟩
    · rw [Machine.push, show m'.stack = m.stack from yields.stack]
    · exact Nat.le_succ_of_le yields.holds.floor
    · cases yields.stands with
      | box hb hp => exact hp.stack
  · intro m r r' σ f hf hdrift late
    refine ⟨r', m.push (r'.box b), rfl, hf, hdrift.push fun s hs hv => ?_⟩
    rcases late.aims s b rfl hs hv with leaf | held | stored
    · exact absurd leaf.1 hk
    · exact .inl held.2
    · exact .inr stored

/-- Code whose fault, if there is one, is thrown at the end. -/
theorem Tracks.raise {α β γ : Type} {E : Store → Machine → Prop} {Q : β → Machine → α → Store → Prop}
    {F : β → Store → Prop} {Q' : Machine → α → Store → Prop} {x : MachineM β} {d : Meaning α}
    {k : β → MachineM γ} (h : Tracks E Q F (x m) (d σ))
    (hk : ∀ b m' a σ', d σ = .ok a σ' → Q b m' a σ' →
      ∃ c m'', k b m' = .ok c m'' ∧ m''.fault = none ∧ Q' m'' a σ')
    (hf : ∀ b m' f σ', d σ = .error (.fault f) σ' → m'.fault = some f → E σ' m' → F b σ' →
      ∃ c m'', k b m' = .ok c m'' ∧ m''.fault = some f ∧ E σ' m'') :
    Mimics E (fun _ => Q') ((do let _ ← k (← x); Machine.raise) m) (d σ) := by
  generalize hR : x m = R at h
  generalize hD : d σ = D at h
  cases h with
  | ok hq =>
    obtain ⟨_, m'', hrun, hfault, hq'⟩ := hk _ _ _ _ hD hq
    rw [Effect.bind_ok hR, Effect.bind_ok hrun]
    unfold Machine.raise
    rw [Effect.get_bind, hfault]
    exact .ok hq'
  | failed hfault he hfb =>
    obtain ⟨_, m'', hrun, hfault', he'⟩ := hf _ _ _ _ hD hfault he hfb
    rw [Effect.bind_ok hR, Effect.bind_ok hrun]
    unfold Machine.raise
    rw [Effect.get_bind, hfault']
    exact .error he'
  | error he =>
    rw [Effect.bind_error hR]
    exact .error he

/-- A unit with its fragments, as the op that it is. -/
theorem run_unit_erase {new : OpId} {c : CompiledUnit} {fs : List HostTree} (m : Machine) :
    (node new ⟨.native c, none, false⟩ fs).run.erase m =
      (do
        let _ ← performAll (fun root => above (runNamed fs root)) c.code {}
        Machine.raise) { m with current := some new } := by
  rw [run_unit rfl]
  rfl

/-- A fragment is found by its root. -/
theorem runNamed_eq {fs : List HostTree} {k : HostTree} (hk : k ∈ fs) (hn : (fs.map root).Nodup) :
    runNamed fs k.root = (Traced.settle k.run).erase := by
  induction fs with
  | nil => cases hk
  | cons f fs ih =>
    rw [List.map_cons, List.nodup_cons] at hn
    rw [runNamed]
    rcases List.mem_cons.mp hk with rfl | hk
    · rw [if_pos rfl]
    · have other : f.root ≠ k.root := fun he => hn.1 (he ▸ List.mem_map_of_mem hk)
      rw [if_neg other]
      exact ih hk hn.2

/-- The call-backs of a unit have the meanings of what was handed over. -/
theorem callBacks {hs : List (Term × HostTree)} {fs : List HostTree}
    (hg : List.Forall₂ (fun F k => Computes L (Waiting L) (Drifts L A) F k.run.erase)
      (hs.map Prod.snd) fs)
    (hr : fs.map root = (hs.map Prod.snd).map root) (hn : ((hs.map Prod.snd).map root).Nodup) :
    CallsBack L A (fun root => above (runNamed fs root)) hs := by
  intro q hq
  have found : ∃ k ∈ fs, k.root = q.2.root ∧
      Computes L (Waiting L) (Drifts L A) q.2 k.run.erase := by
    have mem : q.2 ∈ hs.map Prod.snd := List.mem_map_of_mem hq
    generalize hs.map Prod.snd = Fs at hg hr mem
    clear hn hq
    induction hg with
    | nil => cases mem
    | cons h _ ih =>
      rw [List.map_cons, List.map_cons, List.cons.injEq] at hr
      rcases List.mem_cons.mp mem with he | mem
      · exact ⟨_, List.mem_cons_self, he ▸ hr.1, he ▸ h⟩
      · obtain ⟨k, hk, rest⟩ := ih hr.2 mem
        exact ⟨k, List.mem_cons_of_mem _ hk, rest⟩
  obtain ⟨k, hk, hroot, computes⟩ := found
  exact ⟨k, by simp only [← hroot, runNamed_eq hk (hr ▸ hn)], computes⟩

/-- **A unit computes what the op means that it stands for.**

The code has the meaning of the op, with its value in a register, and the rest of the code delivers
that value: it is stored in the slot of the op, or it is the box that the op has stored to already.
If a fault has been recorded by then, it is raised after that. -/
theorem computes_unit {code : List Instr} {hs : List (Term × HostTree)} {v : Operand}
    {name : String} {new : OpId} {fs : List HostTree} {roots : List OpId}
    (hl : Lowers scope t T ⟨0, 0⟩ code hs v u) (hc : t.isCompilable scope = true) (hk : T.kids ≠ [])
    (hm : ∃ c, Mirrors scope c t T) (hsuits : L.Suits T) (hA : Covers A (CodedIn scope [t]) T)
    (hcall : CallsBack L A (fun root => above (runNamed fs root)) hs) :
    Computes L (Waiting L) (Drifts L A) T (node new
      ⟨.native ⟨name, code ++ delivery T.face.targ v u, roots⟩, none, false⟩ fs).run.erase := by
  intro m σ hh hw hd
  have realizes : Realizes L A (CodedIn scope [t]) (fun root => above (runNamed fs root)) T
      (t.Targets scope) ⟨0, 0⟩ code v u :=
    hl.realizes ⟨hm, hsuits, hA, fun σ N s h => ⟨t, by simp, h⟩⟩ hcall
  have begun : Holds L σ { m with current := some new } :=
    ⟨⟨hh.size, hh.vars, hh.saves⟩, hh.fault, hh.floor⟩
  have delivers : Delivers L A (fun root => above (runNamed fs root)) T (t.Targets scope) v u
      (delivery T.face.targ v u) := by
    rcases hl.delivered hc hk with ⟨s, i, hs, rfl⟩ | ⟨b, hb, rfl⟩
    · exact delivers_slot hsuits hs
    · exact delivers_box hk hb
  have keeps : ∀ {m' : Machine}, Keeps L T.targets { m with current := some new } m' →
      Keeps L T.targets m m' := fun h => ⟨h.stackFloor, h.tempFloor, h.pad, h.size, h.temps⟩
  rw [run_unit_erase, performAll_append, bind_assoc]
  refine (realizes.tracks _ σ {} begun hw hd ⟨rfl, rfl⟩).raise ?_ ?_
  · intro r m' p σ' _ yields
    have floor : m.stackFloor ≤ m.stack.length := hh.floor
    obtain ⟨r', m'', hrun, b, leaves⟩ :=
      delivers.leaves { m with current := some new } m' _ r σ' p floor yields
    exact ⟨r', m'', hrun, leaves.holds.fault, b, leaves.stack, leaves.holds, keeps leaves.keeps,
      leaves.means⟩
  · intro r m' f σ' _ hf hdrift late
    exact delivers.late m' _ r σ' f hf hdrift late

end Units

/-! ### Expressions -/

/-- An expression of the program, with what its units may do to variables after a fault. -/
structure Covered (scope : Scope) (U : List Term → Prop) (L : Layout) (A : Store → Slot → Prop)
    (t : Term) (T : HostTree) : Prop where
  mirrors : ∃ c, Mirrors scope c t T
  suits : L.Suits T
  units : ∀ u ∈ t.preorder, ∀ N ∈ T.subtrees, (∃ c, Mirrors scope c u N) → U [u] →
    u.isCompilable scope = true → Covers A (CodedIn scope [u]) N

namespace Covered

variable {scope : Scope} {U : List Term → Prop} {L : Layout} {A : Store → Slot → Prop} {t u : Term}
  {T N : HostTree}

theorem below (h : Covered scope U L A t T) (hu : u ∈ t.preorder) (hN : N ∈ T.subtrees)
    (hm : ∃ c, Mirrors scope c u N) : Covered scope U L A u N where
  mirrors := hm
  suits := h.suits.subtree hN
  units w hw W hW := h.units w (Term.preorder_trans hw hu) W (subtrees_trans hW hN)

theorem kids (h : Covered scope U L A t T) : List.Forall₂ (Covered scope U L A) t.kids T.kids := by
  obtain ⟨c, hm⟩ := h.mirrors
  have below : ∀ k ∈ t.kids, k ∈ t.preorder := fun k hk => Term.mem_preorder_of_kid hk
  have both := (List.forall₂_and_left _ _).mpr ⟨below, hm.kids⟩
  have all := (List.forall₂_and_left _ _).mpr
    ⟨fun k (hk : k ∈ T.kids) => subtrees_of_kid hk, both.flip⟩
  exact all.flip.imp fun u N hu => h.below hu.2.1 hu.1 ⟨_, hu.2.2⟩

/-- What is handed over is part of the program. -/
theorem handed {code : List Instr} {hs : List (Term × HostTree)} {v : Operand} {w w' : Usage}
    (h : Covered scope U L A t T) (hl : Lowers scope t T w code hs v w') :
    ∀ q ∈ hs, Covered scope U L A q.1 q.2 := by
  intro q hq
  obtain ⟨below, inside⟩ := hl.handed_below q hq
  exact h.below below inside ⟨_, (hl.handed_mirrors q hq).1⟩

theorem forall₂ {hs : List (Term × HostTree)} (h : ∀ q ∈ hs, Covered scope U L A q.1 q.2) :
    List.Forall₂ (Covered scope U L A) (hs.map Prod.fst) (hs.map Prod.snd) := by
  rw [List.forall₂_map_left_iff, List.forall₂_map_right_iff, List.forall₂_same]
  exact h

end Covered

namespace GraftsAll

variable {scope : Scope} {U : List Term → Prop} {L : Layout} {A : Store → Slot → Prop}
  {us : List Term} {ts ts' : List HostTree}

/-- **Compiled expressions compute what they mean.**

By induction on how units were put in.  An op that is kept computes what it means because its kids
do, whatever they have become.  A unit does because its fragments do, which its call-backs run. -/
theorem computes (h : GraftsAll scope U us ts ts') (hc : List.Forall₂ (Covered scope U L A) us ts) :
    List.Forall₂ (fun T T' => Computes L (Waiting L) (Drifts L A) T T'.run.erase) ts ts' := by
  have agrees : ∀ σ m, Agrees L σ m → Waiting L σ.held m.stack → Drifts L A σ m :=
    fun _ _ => .of_agrees
  -- units nest: the fragments of a unit are grafted before it is, so its call-backs are covered by
  -- the induction hypothesis
  induction h with
  | nil => exact .nil
  | same _ ih =>
    cases hc with
    | cons ht hts =>
      obtain ⟨c, hm⟩ := ht.mirrors
      exact .cons (hm.computes (Waiting.accounts L) agrees ht.suits) (ih hts)
  | kept hu hl hk hrest ihk ih =>
    cases hc with
    | cons ht hts =>
      obtain ⟨c, hm⟩ := ht.mirrors
      exact .cons (hm.computes_node (Waiting.accounts L) agrees ht.suits (ihk ht.kids)) (ih hts)
  | unit hu hcomp hk hlow hg hr hrest ihg ih =>
    cases hc with
    | cons ht hts =>
      have nodup := ht.suits.ids.sublist (by simpa using hlow.carves.1.sublist)
      have roots := nodup.sublist (map_root_sublist _)
      have covers := ht.units _ (Term.mem_preorder_self _) _ (mem_subtrees_self _) ht.mirrors hu hcomp
      exact .cons (computes_unit hlow hcomp hk ht.mirrors ht.suits covers
        (callBacks (ihg (Covered.forall₂ (ht.handed hlow))) hr roots)) (ih hts)

end GraftsAll

/-! ### Units call what belongs to them -/

/-- The code runs to its end, and calls back into what is in the list only. -/
def Confined (roots : List OpId) (code : List Instr) : Prop :=
  (∀ next, .ret next ∉ code) ∧ ∀ root, .call root ∈ code → root ∈ roots

namespace Confined

variable {roots roots' : List OpId} {code tail : List Instr}

theorem append (h : Confined roots code) (ht : Confined roots' tail) :
    Confined (roots ++ roots') (code ++ tail) := by
  refine ⟨fun next hn => ?_, fun root hr => ?_⟩
  · exact (List.mem_append.mp hn).elim (h.1 next) (ht.1 next)
  · exact List.mem_append.mpr ((List.mem_append.mp hr).imp (h.2 root) (ht.2 root))

/-- What follows calls nothing. -/
theorem followed (h : Confined roots code) (ht : Confined [] tail) :
    Confined roots (code ++ tail) := by
  simpa using h.append ht

theorem load (v : Operand) : Confined [] v.load := by
  cases v <;> simp [Confined, Operand.load]

theorem delivery (targ : Option Slot) (v : Operand) (u : Usage) :
    Confined [] (delivery targ v u) := by
  cases targ <;> cases v <;> simp [Confined, Graft.delivery, Operand.store]

end Confined

theorem Lowers.confined {scope : Scope} {t : Term} {T : HostTree} {u u' : Usage} {code : List Instr}
    {hs : List (Term × HostTree)} {v : Operand} (h : Lowers scope t T u code hs v u') :
    Confined ((hs.map Prod.snd).map root) code := by
  induction h with
  | double => simp [Confined]
  | int => simp [Confined]
  | uint => simp [Confined]
  | lexical => simp [Confined]
  | declaration => simp [Confined]
  | negation _ _ ih => exact ih.followed (.followed (.load _) (by simp [Confined]))
  | @binary _ _ _ op _ _ _ u₂ _ _ _ _ _ _ _ _ v w _ _ _ _ ihl ihr =>
    have rest : Confined [] (v.load ++ (w.load ++
        [.combine op (v.register u₂) (w.register (v.loaded u₂))])) :=
      .followed (.load v) (.followed (.load w) (by simp [Confined]))
    simp only [List.map_append]
    exact ihl.append (ihr.followed rest)
  | @assigning _ _ op _ _ _ u₂ _ _ _ _ _ _ _ _ b w _ _ _ _ ihl ihr =>
    have rest : Confined [] ((Operand.box b).load ++ (w.load ++
        [.combine op u₂.floats (w.register u₂.float), .storeNum b (w.loaded u₂.float).floats])) :=
      .followed (.load _) (.followed (.load w) (by simp [Confined]))
    simp only [List.map_append]
    exact ihl.append (ihr.followed rest)
  | @assign _ _ _ _ _ _ _ _ _ _ _ _ _ b w _ _ _ ihl ihr =>
    have rest : Confined [] [w.store b] := by cases w <;> simp [Confined, Operand.store]
    simp only [List.map_append]
    exact ihl.append (ihr.followed rest)
  | handed => simp [Confined]

namespace HostTree

theorem callable_node {id : OpId} {f : Face} {ks : List HostTree}
    (hcode : Confined (ks.map root) f.kind.code) (hk : ∀ k ∈ ks, Callable k) :
    Callable (node id f ks) := by
  intro s hs
  rcases mem_subtrees_iff.mp hs with rfl | ⟨k, hmem, hs⟩
  · exact ⟨hcode.1, fun root hr => List.mem_map.mp (hcode.2 root hr)⟩
  · exact hk k hmem s hs

end HostTree

/-- **Units of compiled expressions call back into their own fragments only.** -/
theorem GraftsAll.callable {scope : Scope} {U : List Term → Prop} {us : List Term}
    {ts ts' : List HostTree} (h : GraftsAll scope U us ts ts') (ht : ∀ T ∈ ts, Callable T) :
    ∀ T' ∈ ts', Callable T' := by
  induction h with
  | nil => exact ht
  | same _ ih =>
    rw [List.forall_mem_cons] at ht ⊢
    exact ⟨ht.1, ih ht.2⟩
  | kept hu hl hk hrest ihk ih =>
    rw [List.forall_mem_cons] at ht ⊢
    refine ⟨callable_node ?_ (ihk fun k hk s hs => ?_), ih ht.2⟩
    · simp [code_of_interpreted hu, Confined]
    · exact ht.1 s (subtrees_trans hs (subtrees_of_kid hk))
  | unit hu hc hk hlow hg hr hrest ihg ih =>
    rw [List.forall_mem_cons] at ht ⊢
    refine ⟨callable_node ?_ (ihg ?_), ih ht.2⟩
    · rw [hr]
      exact hlow.confined.followed (.delivery _ _ _)
    · intro F hF
      obtain ⟨q, hq, rfl⟩ := List.mem_map.mp hF
      exact callable_of_interpreted fun x hx => ((hlow.handed_mirrors q hq).1.shape x hx).1

end Graft
