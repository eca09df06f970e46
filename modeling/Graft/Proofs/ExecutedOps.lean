import Graft.Proofs.CompiledRuns

/-! # Ops that have been executed

A store lists the ops that have been executed, and what declarations have saved.  The list is
that of the ops which the machine executes when it runs the tree (`Denotes.echoes`), and every
declaration in it has saved the value of its variable (`Denotes.saved`).

Both are needed for runs that fault.  What compiled code may do after a fault depends on which
assignments had been executed before it; that is read off the trace of the interpreted run, which
is a list of the machine, while the code was compared with the store.  And a fault puts back what
declarations have saved, so a variable that was declared before the fault has the same value after
both runs, whatever was stored to it in between.

The two proofs have the form of those for values.  Each is an induction over the expression, with a
lemma for an op whose operands have the property, and one for statements.
-/

namespace Graft

open HostTree Machine

/-! ### The machine lists the same ops -/

section Echoes

variable {α β γ δ : Type} {L : Layout} {σ : Store} {m m' : Machine} {id : OpId} {f : Face}

/-- A computation on stores and a traced one execute the same ops, the store being `σ` before. -/
def Echoes (σ : Store) (D : EStateM.Result Halt Store α)
    (X : List OpId × EStateM.Result Halt Machine β) : Prop :=
  (Meaning.storeOf D).done = σ.done ++ X.1

theorem Echoes.bind {E : Store → Machine → Prop} {Q : β → Machine → α → Store → Prop} {x : Traced β}
    {k : β → Traced γ} {d : Meaning α} {e : α → Meaning δ} (h : Mimics E Q (x.erase m) (d σ))
    (hx : Echoes σ (d σ) (x m))
    (hk : ∀ b m' a σ', d σ = .ok a σ' → Q b m' a σ' → Echoes σ' (e a σ') (k b m')) :
    Echoes σ ((d >>= e) σ) ((x >>= k) m) := by
  unfold Echoes at hx ⊢
  rcases hX : x m with ⟨l, R⟩
  have run : x.erase m = R := congrArg Prod.snd hX
  rw [run] at h
  rw [hX] at hx
  generalize hD : d σ = D at h hx
  cases h with
  | @ok b m' a σ' hq =>
    have rest : (Meaning.storeOf (e a σ')).done = σ'.done ++ (k b m').1 := hk b m' a σ' hD hq
    have first : σ'.done = σ.done ++ l := hx
    rw [Effect.bind_ok hD, Traced.bind_ok hX, rest, first, List.append_assoc]
  | error he =>
    rw [Effect.bind_error hD, Traced.bind_error hX]
    exact hx

theorem Echoes.beside {d : Meaning α} {p : Place} {X : List OpId × EStateM.Result Halt Machine β}
    (h : Echoes σ (d { σ with held := p.hold σ.held }) X) : Echoes σ (Meaning.beside p d σ) X :=
  Meaning.done_beside.trans h

theorem act_apply (id : OpId) (f : Face) (m : Machine) : act id f m = ([id], step id f m) := by
  rw [act, Traced.bind_ok (show Traced.note id m = ([id], .ok () m) from rfl)]
  rfl

/-- An op is executed, and then what it decides for. -/
theorem Echoes.act {k : Bool → Traced γ} {b : Bool} {D : EStateM.Result Halt Store α}
    (hstep : step id f m = .ok b m') (h : Echoes (σ.note id) D (k b m')) :
    Echoes σ D ((act id f >>= k) m) := by
  have acted : HostTree.act id f m = ([id], .ok b m') := by rw [act_apply, hstep]
  have rest : (Meaning.storeOf D).done = σ.done ++ [id] ++ (k b m').1 := h
  unfold Echoes
  rw [Traced.bind_ok acted, rest, List.append_assoc]

/-- An op is executed, and nothing after it. -/
theorem Echoes.last {k : Store → Meaning α} (hk : ∀ σ, Meaning.Lists [] (k σ)) :
    Echoes σ ((Meaning.execute id >>= k) σ) ((do let _ ← HostTree.act id f; return ()) m) := by
  have trace : ((do let _ ← HostTree.act id f; return () : Traced Unit) m).1 = [id] := by
    have acted := act_apply id f m
    cases hs : step id f m with
    | ok b m' =>
      rw [hs] at acted
      rw [Traced.bind_ok acted]
      rfl
    | error e m' =>
      rw [hs] at acted
      rw [Traced.bind_error acted]
  obtain ⟨l, hl, done⟩ := hk (σ.note id) (σ.note id)
  obtain rfl := List.subset_nil.mp hl
  unfold Echoes
  rw [trace, Meaning.execute_bind, done, List.append_nil]
  rfl

/-- The tree has its meaning, and executes the ops that the meaning lists. -/
structure Traces (L : Layout) (T : HostTree) : Prop where
  computes : Computes L (fun _ _ => True) (Agrees L) T T.run.erase
  echoes : ∀ m σ, Holds L σ m → σ.done.Disjoint T.ids → Echoes σ (T.meaning σ) (T.run m)

section Ops

variable {l r : HostTree}

theorem echoes_leaf {k : Store → Meaning Place} (hf : f.kind.shape = .plain)
    (hm : (node id f []).meaning = Meaning.execute id >>= k) (hk : ∀ σ, Meaning.Lists [] (k σ)) :
    Echoes σ ((node id f []).meaning σ) ((node id f []).run m) := by
  rw [hm, run_plain hf]
  simp only [runAll, pure_bind]
  exact .last hk

theorem echoes_unary {k : Place → Store → Meaning Place} (hf : f.kind.shape = .plain)
    (hm : (node id f [l]).meaning = (do let p ← l.meaning; Meaning.execute id >>= k p))
    (hk : ∀ p σ, Meaning.Lists [] (k p σ)) (hl : Traces L l) (hh : Holds L σ m)
    (hd : σ.done.Disjoint (node id f [l]).ids) :
    Echoes σ ((node id f [l]).meaning σ) ((node id f [l]).run m) := by
  have done := Layout.Suits.done_kid hd List.mem_cons_self
  rw [hm, run_plain hf]
  simp only [runAll, pure_bind, bind_assoc]
  exact .bind (hl.computes m σ hh trivial done) (hl.echoes m σ hh done) fun _ _ p _ _ _ => .last (hk p)

theorem echoes_binary {k : Place → Place → Store → Meaning Place} (hf : f.kind.shape = .plain)
    (hm : (node id f [l, r]).meaning =
      (do let p ← l.meaning; let q ← Meaning.beside p r.meaning; Meaning.execute id >>= k p q))
    (hk : ∀ p q σ, Meaning.Lists [] (k p q σ)) (hs : L.Suits (node id f [l, r])) (hl : Traces L l)
    (hr : Traces L r) (hh : Holds L σ m) (hd : σ.done.Disjoint (node id f [l, r]).ids) :
    Echoes σ ((node id f [l, r]).meaning σ) ((node id f [l, r]).run m) := by
  have done := Layout.Suits.done_kid hd List.mem_cons_self
  rw [hm, run_plain hf]
  simp only [runAll, pure_bind, bind_assoc]
  refine .bind (hl.computes m σ hh trivial done) (hl.echoes m σ hh done) ?_
  rintro - m₁ p σ₁ hp ⟨a, first⟩
  have done₁ := hs.done_next hd hp List.mem_cons_self
  refine .bind (hr.computes.beside ⟨trivial, fun _ _ => trivial⟩ first.holds first.stack trivial
    first.means done₁) (Echoes.beside ?_) fun _ _ q _ _ _ => .last (hk p q)
  exact hr.echoes m₁ _ (first.holds.held _) done₁

/-- After the first operand another is computed in its place. -/
theorem Traces.instead {ks : List HostTree} {σ' : Store} {a : Ref} {p : Place} (hr : Traces L r)
    (hs : L.Suits (node id f (l :: ks))) (hd : σ.done.Disjoint (node id f (l :: ks)).ids)
    (hh : Holds L σ m) (hp : l.meaning σ = .ok p σ') (left : Leaves L l.targets m m' σ' a p)
    (hk : r ∈ ks) :
    Echoes (σ'.note id) (r.meaning (σ'.note id)) (r.run { m' with stack := m.stack }) := by
  have floor : m'.stackFloor ≤ m.stack.length := by rw [left.keeps.stackFloor]; exact hh.floor
  exact hr.echoes _ _ ((left.holds.note id).stack floor) (hs.done_after hd hp hk)

/-- An op that tests its first operand, and goes on as it decides. -/
theorem echoes_test {ks : List HostTree} {k : Bool → Traced Unit} {e : Place → Store → Meaning Place}
    (hl : Traces L l) (hh : Holds L σ m) (hd : σ.done.Disjoint (node id f (l :: ks)).ids)
    (hk : ∀ m' p σ' a, l.meaning σ = .ok p σ' → Leaves L l.targets m m' σ' a p →
      m'.stackFloor ≤ m.stack.length → m'.read a = p.read (σ'.note id) →
      ∃ b m'', step id f m' = .ok b m'' ∧
        Echoes (σ'.note id) (e p (σ'.note id) (σ'.note id)) (k b m'')) :
    Echoes σ ((do let p ← l.meaning; Meaning.execute id >>= e p) σ)
      ((do l.run; HostTree.act id f >>= k) m) := by
  have done := Layout.Suits.done_kid hd List.mem_cons_self
  refine .bind (hl.computes m σ hh trivial done) (hl.echoes m σ hh done) ?_
  rintro - m' p σ' hp ⟨a, left⟩
  have floor : m'.stackFloor ≤ m.stack.length := by rw [left.keeps.stackFloor]; exact hh.floor
  obtain ⟨b, m'', test, rest⟩ := hk m' p σ' a hp left floor (left.means.read (left.holds.note id))
  rw [Meaning.execute_bind]
  exact .act test rest

theorem echoes_and (hs : L.Suits (node id ⟨.and, none, false⟩ [l, r])) (hl : Traces L l)
    (hr : Traces L r) (hh : Holds L σ m) (hd : σ.done.Disjoint (node id ⟨.and, none, false⟩ [l, r]).ids) :
    Echoes σ ((node id ⟨.and, none, false⟩ [l, r]).meaning σ)
      ((node id ⟨.and, none, false⟩ [l, r]).run m) := by
  rw [run_short rfl]
  refine echoes_test hl hh hd fun m' p σ' a hp left floor value => ?_
  have test : step id ⟨.and, none, false⟩ m' = _ := step_and left.stack floor
  rw [value] at test
  cases hv : (p.read (σ'.note id)).isTrue with
  | true =>
    rw [hv, if_pos rfl] at test
    exact ⟨_, _, test, hr.instead hs hd hh hp left List.mem_cons_self⟩
  | false =>
    rw [hv, if_neg (by simp)] at test
    exact ⟨_, _, test, (List.append_nil _).symm⟩

theorem echoes_or (hs : L.Suits (node id ⟨.or, none, false⟩ [l, r])) (hl : Traces L l)
    (hr : Traces L r) (hh : Holds L σ m) (hd : σ.done.Disjoint (node id ⟨.or, none, false⟩ [l, r]).ids) :
    Echoes σ ((node id ⟨.or, none, false⟩ [l, r]).meaning σ)
      ((node id ⟨.or, none, false⟩ [l, r]).run m) := by
  rw [run_short rfl]
  refine echoes_test hl hh hd fun m' p σ' a hp left floor value => ?_
  have test : step id ⟨.or, none, false⟩ m' = _ := step_or left.stack floor
  rw [value] at test
  cases hv : (p.read (σ'.note id)).isTrue with
  | true =>
    rw [hv, if_pos rfl] at test
    exact ⟨_, _, test, (List.append_nil _).symm⟩
  | false =>
    rw [hv, if_neg (by simp)] at test
    exact ⟨_, _, test, hr.instead hs hd hh hp left List.mem_cons_self⟩

theorem echoes_cond {c y n : HostTree} (hs : L.Suits (node id ⟨.cond, none, false⟩ [c, y, n]))
    (hc : Traces L c) (hy : Traces L y) (hn : Traces L n) (hh : Holds L σ m)
    (hd : σ.done.Disjoint (node id ⟨.cond, none, false⟩ [c, y, n]).ids) :
    Echoes σ ((node id ⟨.cond, none, false⟩ [c, y, n]).meaning σ)
      ((node id ⟨.cond, none, false⟩ [c, y, n]).run m) := by
  rw [run_choice rfl]
  refine echoes_test hc hh hd fun m' p σ' a hp left floor value => ?_
  have test : step id ⟨.cond, none, false⟩ m' = _ := step_cond left.stack floor
  rw [value] at test
  cases hv : (p.read (σ'.note id)).isTrue with
  | true =>
    rw [hv] at test
    exact ⟨_, _, test, hy.instead hs hd hh hp left (by simp)⟩
  | false =>
    rw [hv] at test
    exact ⟨_, _, test, hn.instead hs hd hh hp left (by simp)⟩

end Ops

open Meaning in
/-- **Interpretation executes the ops that the meaning of an expression lists.** -/
theorem Mirrors.traces {scope : Scope} {c : Context} {t : Term} {T : HostTree}
    (h : Mirrors scope c t T) (hs : L.Suits T) : Traces L T := by
  induction T using induction generalizing c t with
  | step id f ks ih =>
    refine ⟨h.computes ⟨trivial, fun _ _ => trivial⟩ (fun _ _ h _ => h) hs, fun m σ hh hd => ?_⟩
    have kid : ∀ k ∈ ks, Traces L k := fun k hk =>
      let ⟨_, _, hu⟩ := h.kid hk
      ih k hk hu (hs.kid hk)
    cases h with
    | constant k => exact echoes_leaf rfl rfl fun _ => lists_pure _
    | lexical => exact echoes_leaf rfl rfl fun _ => .bind (.of_done fun _ => rfl) fun _ => lists_pure _
    | declaration =>
      exact echoes_leaf rfl rfl fun _ => .bind (.of_done fun _ => rfl) fun _ => lists_pure _
    | negation s => exact echoes_unary rfl rfl (fun _ _ => lists_pure _) (kid _ (by simp)) hh hd
    | binary hf =>
      have left := kid _ List.mem_cons_self
      have right := kid _ (List.mem_cons_of_mem _ List.mem_cons_self)
      cases hf with
      | plain s =>
        exact echoes_binary rfl rfl (fun _ _ _ => .bind (lists_arithmetic _ _ _) fun _ => lists_pure _)
          hs left right hh hd
      | assigning =>
        exact echoes_binary rfl rfl
          (fun p _ _ => .bind (lists_arithmetic _ _ _) fun _ => lists_write _ p) hs left right hh hd
      | assign => exact echoes_binary rfl rfl (fun p _ _ => lists_write _ p) hs left right hh hd
      | and => exact echoes_and hs left right hh hd
      | or => exact echoes_or hs left right hh hd
    | ternary =>
      exact echoes_cond hs (kid _ (by simp)) (kid _ (by simp)) (kid _ (by simp)) hh hd

/-- Statements that are interpreted execute the ops that their meaning lists. -/
theorem echoes_statements {scope : Scope} {ss : List Statement}
    (hm : ∀ s ∈ ss, L.Suits s.tree ∧ ∃ c, Mirrors scope c s.expr s.tree)
    (hn : (Statement.opsOf ss).Nodup) (hh : Holds L σ m)
    (hd : σ.done.Disjoint (Statement.opsOf ss)) :
    Echoes σ (Statement.meanings ss σ) (runAll (ss.flatMap Statement.row) m) := by
  induction ss generalizing m σ with
  | nil => exact (List.append_nil _).symm
  | cons s ss ih =>
    obtain ⟨suits, c, mirrors⟩ := hm s List.mem_cons_self
    have traces := mirrors.traces suits
    obtain ⟨doneTree, doneRest, apart⟩ := Statement.done_marker hn hd
    have holds := hh.endStatement.note s.marker
    have nodup := hn
    rw [Statement.opsOf_cons, List.nodup_cons, List.nodup_append'] at nodup
    have mark : s.mark.run m = ([s.marker], .ok () m.endStatement) := by
      rw [Statement.mark, run_plain rfl]
      rfl
    have rest : Echoes (σ.note s.marker) ((do let _ ← s.tree.meaning; Statement.meanings ss)
        (σ.note s.marker)) ((do s.tree.run; runAll (ss.flatMap Statement.row)) m.endStatement) := by
      refine .bind (traces.computes _ _ holds trivial doneTree) (traces.echoes _ _ holds doneTree) ?_
      rintro - m' p σ' hp ⟨r, leaves⟩
      exact ih (fun s hs => hm s (by simp [hs])) nodup.2.2.1 leaves.holds
        (HostTree.done_disjoint hp doneRest apart)
    have rest : (Meaning.storeOf _).done = σ.done ++ [s.marker] ++ _ := rest
    have row : (s :: ss).flatMap Statement.row = s.mark :: s.tree :: ss.flatMap Statement.row := rfl
    unfold Echoes
    rw [row, runAll, Traced.bind_ok mark, Statement.meanings_cons_apply, rest, List.append_assoc]
    rfl

theorem storeOf_bind_get {d : Meaning α} {g : α → Store → β} :
    Meaning.storeOf ((do let a ← d; return g a (← get)) σ) = Meaning.storeOf (d σ) := by
  cases h : d σ with
  | ok a σ' =>
    rw [Effect.bind_ok h]
    rfl
  | error e σ' =>
    rw [Effect.bind_error h]
    rfl

/-- **Interpretation executes the ops that the meaning of a program lists.** -/
theorem Denotes.echoes {scope : Scope} {size : Nat} {T : HostTree} {d : Meaning (Option Scalar)}
    (h : Denotes scope T d) (hs : (scope.layout size).Suits T) (hm : m.pad.size = size) :
    (Meaning.storeOf (d m.store)).done = (T.run m.fresh).1 := by
  have holds : Holds (scope.layout size) m.store m.fresh := holds_fresh hm
  cases h with
  | expression mirrors =>
    rw [storeOf_bind_get]
    exact (mirrors.traces hs).echoes _ _ holds (List.disjoint_nil_left _)
  | @statements id ss hne mirrors =>
    obtain ⟨suits, nodup⟩ := hs.statements
    have rows : ss.flatMap Statement.row ≠ [] := (GraftsRow.refl scope (fun _ => False) ss).ne_nil hne
    have run : (statementTree id ss).run = runAll (ss.flatMap Statement.row) :=
      run_listed_cons rfl rows
    rw [run]
    have same : Meaning.storeOf ((do Statement.meanings ss; return none : Meaning (Option Scalar))
        m.store) = Meaning.storeOf (Statement.meanings ss m.store) := storeOf_bind_get
    rw [same]
    exact echoes_statements (fun s hs => ⟨suits s hs, mirrors s hs⟩) nodup holds
      (List.disjoint_nil_left _)

end Echoes

/-! ### Declarations save the values of their variables -/

namespace Meaning

variable {α β : Type} {P : Store → Prop}

/-- The computation keeps a property of stores, whether it halts or not. -/
def Preserves (P : Store → Prop) (d : Meaning α) : Prop := ∀ σ, P σ → P (storeOf (d σ))

theorem Preserves.bind {d : Meaning α} {k : α → Meaning β} (hd : Preserves P d)
    (hk : ∀ a, Preserves P (k a)) : Preserves P (d >>= k) := by
  intro σ hσ
  have first := hd σ hσ
  cases h : d σ with
  | ok a σ' =>
    rw [h] at first
    rw [Effect.bind_ok h]
    exact hk a σ' first
  | error e σ' =>
    rw [h] at first
    rw [Effect.bind_error h]
    exact first

theorem Preserves.beside {d : Meaning α} (hd : Preserves P d)
    (hheld : ∀ σ held, P σ → P { σ with held }) (p : Place) : Preserves P (Meaning.beside p d) := by
  intro σ hσ
  have after := hd _ (hheld σ (p.hold σ.held) hσ)
  cases h : d { σ with held := p.hold σ.held } with
  | ok a σ' =>
    rw [h] at after
    rw [beside_ok h]
    exact hheld σ' σ.held after
  | error e σ' =>
    rw [h] at after
    rw [beside_error h]
    exact after

theorem Preserves.of_store {d : Meaning α} (h : ∀ σ, storeOf (d σ) = σ) : Preserves P d := fun σ hσ => by
  rw [h]
  exact hσ

theorem preserves_pure (a : α) : Preserves P (pure a : Meaning α) := .of_store fun _ => rfl

theorem preserves_arithmetic (a : Arithmetic) (x y : Float) : Preserves P (a.meaning x y) := by
  refine .of_store fun σ => ?_
  unfold Arithmetic.meaning
  cases a.apply x y <;> rfl

end Meaning

open Meaning in
/-- What stores and executed ops keep is kept by an op that declares nothing. -/
theorem Face.preserves_meaning {P : Store → Prop} {id : OpId} {f : Face}
    {kids : List (Meaning Place)} (hid : ∀ σ, P σ → P (σ.note id))
    (hset : ∀ σ s v, P σ → P (σ.set s v)) (hheld : ∀ σ held, P σ → P { σ with held })
    (hf : ∀ s, f.kind ≠ .lexical s true)
    (hk : ∀ d ∈ kids, Preserves P d) : Preserves P (f.meaning id kids) := by
  have execute : Preserves P (Meaning.execute id) := fun σ hσ => hid σ hσ
  have write : ∀ v (p : Place), Preserves P (p.write v) := fun v p σ hσ => by
    cases p with
    | var s => exact hset σ s v hσ
    | value w => exact hσ
  unfold Face.meaning
  split
  · exact execute.bind fun _ => preserves_pure _
  · next s new hkind =>
    cases new with
    | true => exact absurd hkind (hf s)
    | false => exact execute.bind fun _ => .bind (.of_store fun _ => rfl) fun _ => preserves_pure _
  · refine .bind (hk _ (by simp)) fun p => .bind (.beside (hk _ (by simp)) hheld p) fun q =>
      execute.bind fun σ => .bind (preserves_arithmetic _ _ _) fun x => ?_
    split
    · exact write _ p
    · exact preserves_pure _
  · exact .bind (hk _ (by simp)) fun p => execute.bind fun σ => preserves_pure _
  · exact .bind (hk _ (by simp)) fun p => .bind (.beside (hk _ (by simp)) hheld p) fun q =>
      execute.bind fun σ => write _ p
  · refine .bind (hk _ (by simp)) fun p => execute.bind fun σ => ?_
    split
    · exact hk _ (by simp)
    · exact preserves_pure _
  · refine .bind (hk _ (by simp)) fun p => execute.bind fun σ => ?_
    split
    · exact preserves_pure _
    · exact hk _ (by simp)
  · refine .bind (hk _ (by simp)) fun p => execute.bind fun σ => ?_
    split
    · exact hk _ (by simp)
    · exact hk _ (by simp)
  · exact execute.bind fun _ => .of_store fun _ => rfl

/-- Every declaration of the tree that has been executed has saved the value of its variable, on top
of `base`. -/
def Saved (T : HostTree) (base : List (Slot × Scalar)) (σ : Store) : Prop :=
  ∃ new, σ.saves = new ++ base ∧ ∀ D ∈ T.subtrees, ∀ s, D.face.kind = .lexical s true →
    D.root ∈ σ.done → ∃ v, (s, v) ∈ new

section Saved

variable {T S : HostTree} {base : List (Slot × Scalar)} {σ : Store}

theorem HostTree.eq_of_root {D : HostTree} (hn : T.ids.Nodup) (hD : D ∈ T.subtrees)
    (hS : S ∈ T.subtrees) (h : D.root = S.root) : D = S :=
  List.inj_on_of_nodup_map hn hD hS h

/-- An op that declares nothing has been executed. -/
theorem Saved.note (h : Saved T base σ) (hn : T.ids.Nodup) (hS : S ∈ T.subtrees)
    (hk : ∀ s, S.face.kind ≠ .lexical s true) : Saved T base (σ.note S.root) := by
  obtain ⟨new, saves, saved⟩ := h
  refine ⟨new, saves, fun D hD s hs hdone => ?_⟩
  rcases List.mem_append.mp hdone with hdone | here
  · exact saved D hD s hs hdone
  · obtain rfl := eq_of_root hn hD hS (List.mem_singleton.mp here)
    exact absurd hs (hk s)

/-- A declaration has been executed. -/
theorem Saved.declare {s : Slot} (h : Saved T base σ) (hn : T.ids.Nodup) (hS : S ∈ T.subtrees)
    (hk : S.face.kind = .lexical s true) : Saved T base ((σ.note S.root).declare s) := by
  obtain ⟨new, saves, saved⟩ := h
  refine ⟨(s, σ.value s) :: new, congrArg (List.cons _) saves, fun D hD s' hs hdone => ?_⟩
  -- ops have names of their own, so another op of that name is this one
  rcases List.mem_append.mp hdone with hdone | here
  · obtain ⟨v, hv⟩ := saved D hD s' hs hdone
    exact ⟨v, List.mem_cons_of_mem _ hv⟩
  · obtain rfl := eq_of_root hn hD hS (List.mem_singleton.mp here)
    cases hs.symm.trans hk
    exact ⟨_, List.mem_cons_self⟩

open Meaning in
theorem HostTree.saved_meaning (hn : T.ids.Nodup) (hS : S ∈ T.subtrees) :
    Preserves (Saved T base) S.meaning := by
  induction S using induction with
  | step id f ks ih =>
    rw [meaning]
    by_cases hf : ∃ s, f.kind = .lexical s true
    · obtain ⟨s, hf⟩ := hf
      obtain ⟨kind, targ, stacked⟩ := f
      obtain rfl : kind = .lexical s true := hf
      exact fun σ hσ => hσ.declare hn hS rfl
    · rw [not_exists] at hf
      refine Face.preserves_meaning (fun σ hσ => hσ.note hn hS hf) (fun σ s v hσ => hσ)
        (fun σ held hσ => hσ) hf ?_
      intro d hd
      obtain ⟨k, hk, rfl⟩ := mem_meanings.mp hd
      exact ih k hk (subtrees_trans (subtrees_of_kid (t := node id f ks) hk) hS)

open Meaning in
theorem Statement.saved_meanings {ss : List Statement} (hn : T.ids.Nodup)
    (hss : ∀ s ∈ ss, s.mark ∈ T.subtrees ∧ s.tree ∈ T.subtrees) :
    Preserves (Saved T base) (Statement.meanings ss) := by
  induction ss with
  | nil => exact preserves_pure ()
  | cons s ss ih =>
    obtain ⟨mark, tree⟩ := hss s List.mem_cons_self
    have marked : Preserves (Saved T base) (execute s.marker) := fun σ hσ =>
      hσ.note hn mark fun _ h => by cases h
    exact marked.bind fun _ => .bind (saved_meaning hn tree) fun _ =>
      ih fun s hs => hss s (by simp [hs])

open Meaning in
/-- **Every declaration that a program has executed has saved the value of its variable.** -/
theorem Denotes.saved {scope : Scope} {d : Meaning (Option Scalar)} {m : Machine}
    (h : Denotes scope T d) (hn : T.ids.Nodup) : Saved T m.saves (storeOf (d m.store)) := by
  have start : ∀ T : HostTree, Saved T m.saves m.store := fun T =>
    ⟨[], rfl, fun _ _ _ _ hx => by cases hx⟩
  cases h with
  | expression mirrors =>
    rw [storeOf_bind_get]
    exact saved_meaning hn (mem_subtrees_self T) m.store (start T)
  | @statements id ss _ _ =>
    have same : storeOf ((do Statement.meanings ss; return none : Meaning (Option Scalar)) m.store) =
        storeOf (Statement.meanings ss m.store) := storeOf_bind_get
    rw [same]
    refine Statement.saved_meanings hn (fun s hs => ?_) m.store (start _)
    exact ⟨subtrees_of_kid (List.mem_flatMap.mpr ⟨s, hs, by simp [Statement.row]⟩),
      subtrees_of_kid (List.mem_flatMap.mpr ⟨s, hs, by simp [Statement.row]⟩)⟩

end Saved

end Graft
