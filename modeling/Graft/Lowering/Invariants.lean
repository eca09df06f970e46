import Graft.Lowering

/-! # Invariants of a lowering

Much is asked about the drafts of a lowering: which terms were handed over, what slots the code asks
for, which boxes it puts on the stack, why a run was refused.  Each of these is a predicate on
drafts that no step breaks, and to show it one would go through all the steps.

That is done here once.  A lowering gets from the members of a run to their parts, as long as these
are statements or sequences (`Lowering.Parts`), and from there to the operands of operators that are
computed in the unit itself (`Lowering.Visits`).  What a step can do to a draft on the way is the
list of the fields of `Lowering.Invariant`: append an instruction that works on registers, ask for a
box, put a box on the stack, hand a term over, or stop with a diagnosis.  A predicate with these
closure properties holds of what the lowering of the run leaves (`Lowering.Invariant.roots`).

A box can be pushed only if it is there, so the steps are followed together with the registers that
are in use: `Lowering.Respects` says of a step that its answer fits the registers that are filled
when it is done.  In the same way it is followed that a term has a value whenever its context asks
for one; that is why the two diagnoses that stand for a mistake of the compiler are not among those
a step stops with.
-/

namespace Graft

/-- Is the diagnosis one that only a mistake of the compiler could give? -/
def Diagnosis.isDefect : Diagnosis → Bool
  | missingScalar | emptyRun => true
  | _ => false

/-- Does the instruction only compute on doubles, or store in a box? -/
def Instr.isInner : Instr → Bool
  | const _ | number _ _ | combine _ _ _ | negate _ => true
  | storeNum _ _ | storeInt _ _ | storeUInt _ _ | copy _ _ => true
  | _ => false

/-- The operand is not in a box, or in that of one of the first `n` registers. -/
def Operand.Within (v : Option Operand) (n : Nat) : Prop := ∀ b, v = some (.box b) → b < n

theorem Operand.Within.mono {v : Option Operand} {n n' : Nat} (h : Operand.Within v n) (hn : n ≤ n') :
    Operand.Within v n' := fun b hb => Nat.lt_of_lt_of_le (h b hb) hn

/-! ### Where a lowering gets to -/

namespace Term

/-- Is the term a statement or a sequence, which a run takes for its parts? -/
def isFrame : Term → Bool
  | statement _ _ | sequence _ _ => true
  | _ => false

/-- Is the term an operator that is computed in the unit itself? -/
def isDirect (scope : Scope) : Term → Bool
  | op a c b [l, r] => (op a c b [l, r]).isCompilable scope && (c.floatOp?.isSome || c == .assign)
  | op a c b [k] => (op a c b [k]).isCompilable scope && c == .negate
  | _ => false

/-- Is the term a constant or a variable, which a unit loads? -/
def isLoaded : Term → Bool
  | leaf _ (.constant _) | leaf _ (.lexical _) | leaf _ (.declaration _) => true
  | _ => false

end Term

namespace Lowering

variable {α β : Type} {scope : Scope} {run : List Term} {t : Term}

/-- **The parts that a run is taken for**: its members, and what is in them below statements and
sequences only. -/
inductive Parts (run : List Term) : Term → Prop where
  | member {t : Term} : t ∈ run → Parts run t
  | part {t k : Term} : Parts run t → t.isFrame = true → k ∈ t.kids → Parts run k

/-- **The terms that the lowering of a run gets to**: the parts that are not taken for theirs, and
the operands of operators that are computed in the unit. -/
inductive Visits (scope : Scope) (run : List Term) : Term → Prop where
  | exit {t : Term} : Parts run t → t.isFrame = false → Visits scope run t
  | operand {t k : Term} : Visits scope run t → t.isDirect scope = true → k ∈ t.kids →
      Visits scope run k

/-- **A term that a run hands over**: it is neither computed nor loaded. -/
structure HandsOver (scope : Scope) (run : List Term) (t : Term) : Prop where
  visits : Visits scope run t
  direct : t.isDirect scope = false
  loaded : t.isLoaded = false
  context : t.context ≠ .caller

/-- **A slot that the code of a run may ask for**: that of a variable that is loaded, or the one for
the result of a term whose value is delivered. -/
inductive Asks (scope : Scope) (run : List Term) (s : Slot) : Prop where
  | loaded {t : Term} {n : DeclId} {v : Declaration} : Visits scope run t → t.decl? = some n →
      scope.get? n = some v → v.slot = s → Asks scope run s
  | result {t : Term} {o : Origin} : Parts run t → t.isFrame = false → t.origin = some o →
      o.targ = some s → Asks scope run s

/-! ### Steps -/

/-- **A predicate on drafts that no step of the lowering of a run breaks**, and one on the drafts
and diagnoses with which a step may stop. -/
structure Invariant (scope : Scope) (run : List Term) (I : Draft → Prop)
    (J : Diagnosis → Draft → Prop) : Prop where
  inner {d : Draft} {i : Instr} (hi : i.isInner = true) (hd : I d) (floats : Nat) :
    I { d with code := d.code ++ [i], floats }
  fetch {d : Draft} {i : Instr} (hi : i = .temp ∨ i = .pop) (hd : I d) :
    I { d with code := d.code ++ [i], boxes := d.boxes + 1 }
  pad {d : Draft} {s : Slot} (hs : Asks scope run s) (hd : I d) :
    I { d with code := d.code ++ [.pad s], boxes := d.boxes + 1 }
  clear {d : Draft} {s : Slot} (hs : Asks scope run s) (hd : I d) :
    I { d with code := d.code ++ [.clear s] }
  push {d : Draft} {b : Nat} (hb : b < d.boxes) (hd : I d) : I { d with code := d.code ++ [.push b] }
  call {d : Draft} {t : Term} {f : Detachment} (ht : HandsOver scope run t)
    (hf : t.detachment = .ok f) (hd : I d) : I { d with
      code := d.code ++ [.call f.root]
      handovers := d.handovers ++ [⟨t, .ok f⟩] }
  /-- What is handed over is listed also if it has no fragment. -/
  lost {d : Draft} {t : Term} {e : Diagnosis} (ht : HandsOver scope run t)
    (he : t.detachment = .error e) (hd : I d) :
    J e { d with handovers := d.handovers ++ [⟨t, .error e⟩] }
  stop {d : Draft} {e : Diagnosis} (he : e.isDefect = false) (hd : I d) : J e d

variable {I : Draft → Prop} {J : Diagnosis → Draft → Prop} {k : Nat} {A : α → Nat → Prop}
  {B : β → Nat → Prop}

/-- What a step leaves that was begun with `k` boxes. -/
def Leaves (I : Draft → Prop) (J : Diagnosis → Draft → Prop) (k : Nat) (A : α → Nat → Prop) :
    EStateM.Result Diagnosis Draft α → Prop
  | .ok a d => I d ∧ k ≤ d.boxes ∧ A a d.boxes
  | .error e d => J e d

/-- **A step that keeps to an invariant** if at least `k` boxes are there, and whose answer fits the
boxes that are there then. -/
def Respects (I : Draft → Prop) (J : Diagnosis → Draft → Prop) (k : Nat) (x : LowerM α)
    (A : α → Nat → Prop) : Prop :=
  ∀ d : Draft, I d → k ≤ d.boxes → Leaves I J d.boxes A (x d)

namespace Respects

theorem pure {a : α} (h : ∀ n, k ≤ n → A a n) : Respects I J k (pure a) A :=
  fun _ hd hk => ⟨hd, Nat.le_refl _, h _ hk⟩

theorem bind {x : LowerM α} {f : α → LowerM β} (hx : Respects I J k x A)
    (hf : ∀ a n, k ≤ n → A a n → Respects I J n (f a) B) : Respects I J k (x >>= f) B := by
  intro d hd hk
  have first := hx d hd hk
  show Leaves I J d.boxes B (EStateM.bind x f d)
  unfold EStateM.bind
  cases hxd : x d with
  | error e d₁ =>
    rw [hxd] at first
    exact first
  | ok a d₁ =>
    rw [hxd] at first
    obtain ⟨hd₁, grown, ha⟩ := first
    have second := hf a d₁.boxes (Nat.le_trans hk grown) ha d₁ hd₁ (Nat.le_refl _)
    dsimp only
    cases hfd : f a d₁ with
    | error e d₂ =>
      rw [hfd] at second
      exact second
    | ok b d₂ =>
      rw [hfd] at second
      exact ⟨second.1, Nat.le_trans grown second.2.1, second.2.2⟩

/-- More boxes may be there. -/
theorem later {x : LowerM α} (h : Respects I J 0 x A) : Respects I J k x A :=
  fun d hd _ => h d hd (Nat.zero_le _)

theorem weaken {x : LowerM α} {A' : α → Nat → Prop} (h : Respects I J k x A)
    (hA : ∀ a n, A a n → A' a n) : Respects I J k x A' := by
  intro d hd hk
  have left := h d hd hk
  cases hx : x d with
  | error e d₁ =>
    rw [hx] at left
    exact left
  | ok a d₁ =>
    rw [hx] at left
    exact ⟨left.1, left.2.1, hA a _ left.2.2⟩

end Respects

/-- A value, within the boxes that are there. -/
def Filled (v : Option Operand) (n : Nat) : Prop := Operand.Within v n ∧ v ≠ none

/-- The value of a term, within the boxes that are there; a term in scalar context has one. -/
def Answers (t : Term) (v : Option Operand) (n : Nat) : Prop :=
  Operand.Within v n ∧ (t.context = .scalar → v ≠ none)

theorem Filled.box {b n : Nat} (h : b < n) : Filled (some (.box b)) n := by
  refine ⟨fun c hc => ?_, Option.some_ne_none _⟩
  cases hc
  exact h

theorem Filled.outside {v : Operand} (hv : ∀ b, v ≠ .box b) (n : Nat) : Filled (some v) n :=
  ⟨fun b hb => absurd (Option.some.inj hb) (hv b), Option.some_ne_none _⟩

theorem Filled.float (r n : Nat) : Filled (some (.float r)) n := outside (fun _ => Operand.noConfusion) n

theorem Filled.answers {v : Option Operand} {n : Nat} (h : Filled v n) : Answers t v n :=
  ⟨h.1, fun _ => h.2⟩

/-- A value that stays where it is is in a box. -/
theorem operand_of_destination {v : Operand} {b : Nat} (h : destination t v = .ok (.itself b)) :
    v = .box b := by
  have plain : Destination.plain v = .itself b → v = .box b := by
    cases v <;> simp [Destination.plain]
  unfold destination at h
  split at h
  · split at h
    · exact plain (Except.ok.inj h)
    · split at h
      case h_2 => cases h; rfl
      case h_6 => exact plain (Except.ok.inj h)
      all_goals cases h
  · exact plain (Except.ok.inj h)

/-- A value goes to a slot only if that is the one for the result. -/
theorem targ_of_destination {v : Operand} {slot : Slot} (h : destination t v = .ok (.pad slot)) :
    ∃ o, t.origin = some o ∧ o.targ = some slot := by
  unfold destination at h
  split at h
  · next a c b ts =>
    have plain : Except.ok (Destination.plain v) ≠ (.ok (.pad slot) : Except Diagnosis _) := by
      cases v <;> simp [Destination.plain]
    split at h
    · exact absurd h plain
    · split at h
      · next o ho =>
        cases h
        exact Option.bind_eq_some_iff.mp ho
      · cases h
      · cases h
      · next o ho =>
        cases h
        exact Option.bind_eq_some_iff.mp ho
      · cases h
      · exact absurd h plain
  · cases v <;> simp [Destination.plain] at h

theorem isDefect_of_destination {v : Operand} {e : Diagnosis} (h : destination t v = .error e) :
    e.isDefect = false := by
  unfold destination at h
  split at h
  · split at h
    · cases h
    · split at h
      case h_3 => cases h; rfl
      case h_5 => cases h; rfl
      all_goals cases h
  · cases h

namespace Invariant

section Steps

variable (inv : Invariant scope run I J)

include inv

theorem throw {e : Diagnosis} (he : e.isDefect = false) : Respects I J k (throw e : LowerM α) A :=
  fun _ hd _ => inv.stop he hd

theorem emit {i : Instr} (hi : i.isInner = true) : Respects I J k (emit i) fun _ _ => True :=
  fun d hd _ => ⟨inv.inner hi hd d.floats, Nat.le_refl _, trivial⟩

theorem emitFloat {i : Instr} (hi : i.isInner = true) : Respects I J k (emitFloat i) fun _ _ => True :=
  fun _ hd _ => ⟨inv.inner hi hd _, Nat.le_refl _, trivial⟩

theorem emitPush {b : Nat} (hb : b < k) : Respects I J k (Lowering.emit (.push b)) fun _ _ => True :=
  fun _ hd hk => ⟨inv.push (Nat.lt_of_lt_of_le hb hk) hd, Nat.le_refl _, trivial⟩

theorem emitFetch {i : Instr} (hi : i = .temp ∨ i = .pop) :
    Respects I J k (emitBox i) fun b n => b < n :=
  fun _ hd _ => ⟨inv.fetch hi hd, Nat.le_succ _, Nat.lt_succ_self _⟩

theorem emitPad {s : Slot} (hs : Asks scope run s) : Respects I J k (emitBox (.pad s)) fun b n => b < n :=
  fun _ hd _ => ⟨inv.pad hs hd, Nat.le_succ _, Nat.lt_succ_self _⟩

theorem toFloat : ∀ v : Option Operand, Respects I J k (toFloat v) fun _ _ => True
  | none => inv.throw rfl
  | some (.float _) => .pure fun _ _ => trivial
  | some (.int _) | some (.uint _) | some (.box _) => inv.emitFloat rfl

theorem toTarget {v : Option Operand} (hv : Operand.Within v k) :
    Respects I J k (toTarget v) fun b n => b < n := by
  rcases v with _ | _ | _ | _ | b
  case some.box => exact .pure fun n hn => Nat.lt_of_lt_of_le (hv b rfl) hn
  all_goals exact inv.throw rfl

theorem store (target : Nat) : ∀ v : Operand, Respects I J k (store target v) fun _ _ => True
  | .float _ | .int _ | .uint _ | .box _ => inv.emit rfl

theorem constant : ∀ c : Constant, Respects I J k (constant c) Filled
  | .double _ => .bind (inv.emitFloat rfl) fun r _ _ _ => .pure fun n _ => .float r n
  | .int _ | .uint _ => .pure fun n _ => .outside (fun _ => Operand.noConfusion) n
  | .str _ | .undefined => inv.throw rfl

theorem variableBox {n : DeclId} (ht : Visits scope run t) (hn : t.decl? = some n) (declares : Bool) :
    Respects I J k (variableBox scope n declares) Filled := by
  unfold Lowering.variableBox
  cases hv : scope.get? n with
  | none => exact inv.throw rfl
  | some v =>
    have asked : Asks scope run v.slot := .loaded ht hn hv rfl
    have cleared : Respects I J k (variableBox.clearing declares v.slot) fun _ _ => True := by
      cases declares
      · exact .pure fun _ _ => trivial
      · exact fun _ hd _ => ⟨inv.clear asked hd, Nat.le_refl _, trivial⟩
    exact .bind cleared fun _ _ _ _ => .bind (inv.emitPad asked) fun b n _ hb =>
      .pure fun n' hn => .box (Nat.lt_of_lt_of_le hb hn)

theorem binary (f : FloatOp) (assigning : Bool) {left right : LowerM (Option Operand)}
    (hl : Respects I J 0 left Operand.Within) (hr : Respects I J 0 right Operand.Within) :
    Respects I J 0 (binary f assigning left right) Filled := by
  refine .bind hl fun l n₁ _ hv => .bind hr.later fun r n₂ hn₂ _ =>
    .bind (inv.toFloat l) fun _ n₃ hn₃ _ => .bind (inv.toFloat r) fun _ n₄ hn₄ _ =>
    .bind (inv.emitFloat rfl) fun z n₅ hn₅ _ => ?_
  cases assigning
  · exact .pure fun n _ => .float z n
  · have within : Operand.Within l n₅ := hv.mono (by omega)
    exact .bind (inv.toTarget within) fun b n₆ _ hb => .bind (inv.emit rfl) fun _ n₇ hn₇ _ =>
      .pure fun n hn => .box (by omega)

theorem negation {operand : LowerM (Option Operand)} (h : Respects I J 0 operand Operand.Within) :
    Respects I J 0 (negation operand) Filled :=
  .bind h fun v _ _ _ => .bind (inv.toFloat v) fun _ _ _ _ =>
    .bind (inv.emitFloat rfl) fun z _ _ _ => .pure fun n _ => .float z n

theorem assignment {target value : LowerM (Option Operand)}
    (ht : Respects I J 0 target Operand.Within) (hv : Respects I J 0 value Operand.Within) :
    Respects I J 0 (assignment target value) Filled := by
  refine .bind ht fun t n₁ _ hw => .bind (inv.toTarget hw) fun dst n₂ _ hdst =>
    .bind hv.later fun v n₃ hn₃ _ => ?_
  cases v with
  | none => exact inv.throw rfl
  | some v => exact .bind (inv.store dst v) fun _ n₄ hn₄ _ => .pure fun n hn => .box (by omega)

/-- Handing over a term lists it and calls its fragment; the value is then on the stack. -/
theorem handOver (ht : Visits scope run t) (hd : t.isDirect scope = false) (hl : t.isLoaded = false) :
    Respects I J k (handOver t) (Answers t) := by
  unfold Lowering.handOver
  split
  · exact inv.throw rfl
  · next context =>
    have handed : HandsOver scope run t := ⟨ht, hd, hl, context⟩
    cases hf : t.detachment with
    | error e => exact fun d hd _ => inv.lost handed hf hd
    | ok f =>
      have called : Respects I J k (do
          modify fun d : Draft => { d with handovers := d.handovers ++ [⟨t, .ok f⟩] }
          Lowering.emit (.call f.root) : LowerM Unit) fun _ _ => True :=
        fun d hd _ => ⟨inv.call handed hf hd, Nat.le_refl _, trivial⟩
      have value : ∀ n, Respects I J n (if t.context = .scalar then (do
          return some (.box (← Lowering.emitBox .pop)))
          else return none : LowerM (Option Operand)) (Answers t) := by
        intro n
        split
        · exact .bind (inv.emitFetch (.inr rfl)) fun b n' _ hb =>
            .pure fun n hn => (Filled.box (Nat.lt_of_lt_of_le hb hn)).answers
        · next scalar =>
          exact .pure fun _ _ => ⟨fun _ hb => (by cases hb), fun h => absurd h scalar⟩
      have both := Respects.bind called fun _ n _ _ => value n
      simpa only [bind_assoc] using both

/-- **A term keeps to the invariant** wherever the lowering of the run gets to it. -/
theorem term (t : Term) (ht : Visits scope run t) :
    Respects I J 0 (term scope t) (Answers t) := by
  have filled : ∀ {t : Term} {x : LowerM (Option Operand)}, Respects I J 0 x Filled →
      Respects I J 0 x (Answers t) := fun h => h.weaken fun _ _ hv => hv.answers
  have within : ∀ {t : Term} {x : LowerM (Option Operand)}, Respects I J 0 x (Answers t) →
      Respects I J 0 x Operand.Within := fun h => h.weaken fun _ _ hv => hv.1
  fun_induction Lowering.term scope t with
  | case1 a c => exact filled (inv.constant c)
  | case2 a n => exact filled (inv.variableBox ht rfl false)
  | case3 a n => exact filled (inv.variableBox ht rfl true)
  | case4 a c b l r t hc f hf ihl ihr =>
    have direct : t.isDirect scope = true := by simp [t, Term.isDirect, hc, hf]
    exact filled (inv.binary f _ (within (ihl (.operand ht direct (by simp [Term.kids]))))
      (within (ihr (.operand ht direct (by simp [Term.kids])))))
  | case5 a b l r t hc hf ihl ihr =>
    have direct : t.isDirect scope = true := by simp [t, Term.isDirect, hc]
    exact filled (inv.assignment (within (ihl (.operand ht direct (by simp [Term.kids]))))
      (within (ihr (.operand ht direct (by simp [Term.kids])))))
  | case6 a c b l r t hc hf hassign =>
    exact inv.handOver ht (by simp [t, Term.isDirect, hf, hassign]) rfl
  | case7 a c b l r t hc => exact inv.handOver ht (by simp [t, Term.isDirect, hc]) rfl
  | case8 a c b k t hc ih =>
    have direct : t.isDirect scope = true := by simpa [t, Term.isDirect] using hc
    exact filled (inv.negation (within (ih (.operand ht direct (by simp [Term.kids])))))
  | case9 a c b k t hc => exact inv.handOver ht (by simpa [t, Term.isDirect] using hc) rfl
  | case10 t h₁ h₂ h₃ h₄ h₅ =>
    refine inv.handOver ht ?_ ?_
    · unfold Term.isDirect
      split
      · exact absurd rfl (h₄ _ _ _ _ _)
      · exact absurd rfl (h₅ _ _ _ _)
      · rfl
    · unfold Term.isLoaded
      split
      · exact absurd rfl (h₁ _ _)
      · exact absurd rfl (h₂ _ _)
      · exact absurd rfl (h₃ _ _)
      · rfl

theorem pushValue {v : Operand} (ht : Parts run t) (hf : t.isFrame = false)
    (hv : Operand.Within (some v) k) : Respects I J k (pushValue t v) fun _ _ => True := by
  unfold Lowering.pushValue
  split
  · next e he => exact inv.throw (isDefect_of_destination he)
  · next b hdest => exact inv.emitPush (hv b (congrArg some (operand_of_destination hdest)))
  · next slot hdest =>
    obtain ⟨o, ho, htarg⟩ := targ_of_destination hdest
    exact .bind (inv.emitPad (.result ht hf ho htarg)) fun b n _ hb =>
      .bind (inv.store b v) fun _ n' hn' _ => inv.emitPush (Nat.lt_of_lt_of_le hb hn')
  · exact .bind (inv.emitFetch (.inl rfl)) fun b n _ hb =>
      .bind (inv.store b v) fun _ n' hn' _ => inv.emitPush (Nat.lt_of_lt_of_le hb hn')

theorem deliver {v : Option Operand} (ht : Parts run t) (hf : t.isFrame = false)
    (hv : Answers t v k) : Respects I J k (deliver t v) fun _ _ => True := by
  unfold Lowering.deliver
  split
  · exact inv.throw rfl
  · exact inv.throw rfl
  · exact .pure fun _ _ => trivial
  · exact .pure fun _ _ => trivial
  · next scalar =>
    cases v with
    | none => exact absurd rfl (hv.2 scalar)
    | some v => exact inv.pushValue ht hf hv.1

end Steps

mutual

theorem root (inv : Invariant scope run I J) : ∀ t : Term, Parts run t →
    Respects I J 0 (root scope t) fun _ _ => True
  | .statement _ t, ht => inv.root t (ht.part rfl (by simp [Term.kids]))
  | .sequence _ ts, ht => inv.roots ts fun t hk => ht.part rfl hk
  | .leaf _ _, ht => .bind (inv.term _ (.exit ht rfl)) fun _ _ _ hv => inv.deliver ht rfl hv
  | .op _ _ _ _, ht => .bind (inv.term _ (.exit ht rfl)) fun _ _ _ hv => inv.deliver ht rfl hv
  | .control _ _ _, ht => .bind (inv.term _ (.exit ht rfl)) fun _ _ _ hv => inv.deliver ht rfl hv

/-- **The lowering of a run keeps to an invariant.**  The members are lowered one after the other,
each with the boxes of those before it. -/
theorem roots (inv : Invariant scope run I J) : ∀ ts : List Term, (∀ t ∈ ts, Parts run t) →
    Respects I J 0 (roots scope ts) fun _ _ => True
  | [], _ => .pure fun _ _ => trivial
  | t :: ts, h => .bind (inv.root t (h t (by simp))) fun _ _ _ _ =>
      (inv.roots ts fun u hu => h u (by simp [hu])).later

end

/-- What holds of the code and the handovers of a run. -/
theorem of_codeOf {code : List Instr} (inv : Invariant scope run I J) (start : I {})
    (h : codeOf scope run = .ok code) :
    ∃ d : Draft, I d ∧ d.code = code ∧ d.handovers = handoversOf scope run := by
  have left := inv.roots run (fun t ht => .member ht) {} start (Nat.le_refl _)
  unfold codeOf at h
  unfold handoversOf
  cases hr : Lowering.roots scope run {} with
  | error e d =>
    rw [hr] at h
    cases h
  | ok u d =>
    rw [hr] at h left
    cases h
    exact ⟨d, left.1, rfl, rfl⟩

/-- What holds of the diagnosis and the handovers of a run that has no code. -/
theorem of_refused {e : Diagnosis} (inv : Invariant scope run I J) (start : I {})
    (h : codeOf scope run = .error e) : ∃ d : Draft, J e d ∧ d.handovers = handoversOf scope run := by
  have left := inv.roots run (fun t ht => .member ht) {} start (Nat.le_refl _)
  unfold codeOf at h
  unfold handoversOf
  cases hr : Lowering.roots scope run {} with
  | error e d =>
    rw [hr] at h left
    cases h
    exact ⟨d, left, rfl⟩
  | ok u d =>
    rw [hr] at h
    cases h

end Invariant

end Lowering

end Graft
