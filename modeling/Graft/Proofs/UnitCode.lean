import Graft.Proofs.Interpretation
import Graft.Proofs.Lowered

/-! # The code of a unit

The code that a term is lowered to has the meaning of its tree (`Lowers.realizes`), if the
call-backs have the meanings of what was handed over.

The proof is by induction over `Lowers`, with one lemma for each kind of instruction and one for two
operands and what is done with them (`Realizes.operands`).  Operands are in registers or on the
machine's pad; `Operand.Stands` says when one of them stands for a place of the meaning, and it has
to last until the operand is used, while the code of the other runs.  Registers only grow, so that
part is easy; boxes are kept by the layout, as they are in interpretation.

A unit does not stop where a call-back has faulted.  The rest of its code runs on values that
mean nothing, and what it stores stays stored.  `Drifts` says how far the variables may then be
from what they should be: a variable is as it was at the fault, once declarations after the fault
are undone, unless an assignment that had not been executed by then may store to it
(`Term.AssignsTo`).

Where such an assignment stores to is known from its left operand, if there is code for that.  If
the left operand is handed over, the unit takes its box from the stack, and after a fault that is
whatever was left there: the box of an operand that waited for another when the fault arose, or
one that an inner unit has put there after the fault.  So `Drifts` also keeps an account of the
stack, and `Late` one of the box that code yields after a fault.  If it was the right operand that
halted, the left one had come to its end, and its box is one that it can yield.

Code is therefore followed in two modes.  Before a fault it realizes the meaning; from the first
fault on it drifts, and nothing is said of values any more, only of which variables may be stored
to and what the stack holds.  `Tracks` has both and the step from the one to the other, and
`Realizes` has a clause for each.
-/

namespace Graft

open HostTree

/-! ### Registers -/

namespace Machine.Registers

/-- As many registers are in use as were counted. -/
structure Sized (r : Registers) (u : Usage) : Prop where
  boxes : r.boxes.size = u.boxes
  floats : r.floats.size = u.floats

/-- Registers in use stay as they are. -/
structure Grows (r r' : Registers) : Prop where
  boxes : r.boxes.size ≤ r'.boxes.size
  floats : r.floats.size ≤ r'.floats.size
  box : ∀ i < r.boxes.size, r'.box i = r.box i
  float : ∀ i < r.floats.size, r'.float i = r.float i

variable {r r' r'' : Registers} {u : Usage}

theorem Grows.refl (r : Registers) : r.Grows r :=
  ⟨Nat.le_refl _, Nat.le_refl _, fun _ _ => rfl, fun _ _ => rfl⟩

theorem Grows.trans (h : r.Grows r') (h' : r'.Grows r'') : r.Grows r'' where
  boxes := Nat.le_trans h.boxes h'.boxes
  floats := Nat.le_trans h.floats h'.floats
  box i hi := (h'.box i (Nat.lt_of_lt_of_le hi h.boxes)).trans (h.box i hi)
  float i hi := (h'.float i (Nat.lt_of_lt_of_le hi h.floats)).trans (h.float i hi)

theorem box_withBox (b : Ref) : (r.withBox b).box r.boxes.size = b := by
  simp [withBox, box]

theorem float_withFloat (x : Float) : (r.withFloat x).float r.floats.size = x := by
  simp [withFloat, float]

theorem grows_withBox (b : Ref) : r.Grows (r.withBox b) := by
  refine ⟨by simp [withBox], Nat.le_refl _, fun i hi => ?_, fun _ _ => rfl⟩
  simp only [withBox, box, Array.getElem?_push, if_neg (Nat.ne_of_lt hi)]

theorem grows_withFloat (x : Float) : r.Grows (r.withFloat x) := by
  refine ⟨Nat.le_refl _, by simp [withFloat], fun _ _ => rfl, fun i hi => ?_⟩
  simp only [withFloat, float, Array.getElem?_push, if_neg (Nat.ne_of_lt hi)]

theorem Sized.withBox (h : r.Sized u) (b : Ref) : (r.withBox b).Sized u.box :=
  ⟨by simp [Registers.withBox, Usage.box, h.boxes], h.floats⟩

theorem Sized.withFloat (h : r.Sized u) (x : Float) : (r.withFloat x).Sized u.float :=
  ⟨h.boxes, by simp [Registers.withFloat, Usage.float, h.floats]⟩

end Machine.Registers

open Machine

/-! ### Operands -/

namespace Operand

variable {L : Layout} {ts ts' : List Slot} {lo lo' : Nat} {m m' : Machine} {r r' : Registers}
  {u : Usage} {σ : Store} {p q : Place} {v w : Operand} {callBack : OpId → MachineM Unit}

/-- The value of an operand. -/
def scalar (r : Registers) (m : Machine) : Operand → Scalar
  | float i => .num (r.float i)
  | int i => .int i
  | uint w => .uint w
  | box b => m.read (r.box b)

/-- **What an operand stands for.** -/
inductive Stands (L : Layout) (ts : List Slot) (lo : Nat) (m : Machine) (r : Registers) :
    Operand → Place → Prop where
  | float {i : Nat} : i < r.floats.size → Stands L ts lo m r (.float i) (.value (.num (r.float i)))
  | int (i : Int64) : Stands L ts lo m r (.int i) (.value (.int i))
  | uint (w : UInt64) : Stands L ts lo m r (.uint w) (.value (.uint w))
  | box {b : Nat} {p : Place} : b < r.boxes.size → Means L ts lo m (r.box b) p →
      Stands L ts lo m r (.box b) p

namespace Stands

theorem mono (h : Stands L ts lo m r v p) (hts : ts ⊆ ts') (hlo : lo' ≤ lo) :
    Stands L ts' lo' m r v p := by
  cases h with
  | float hi => exact .float hi
  | int i => exact .int i
  | uint w => exact .uint w
  | box hb hm => exact .box hb (hm.mono hts hlo)

/-- An operand is left alone by code with other slots. -/
theorem keep (h : Stands L ts lo m r v p) (hk : Keeps L ts' m m') (hd : ts.Disjoint ts')
    (hr : r.Grows r') : Stands L ts lo m' r' v p := by
  cases h with
  | float hi =>
    rw [← hr.float _ hi]
    exact .float (Nat.lt_of_lt_of_le hi hr.floats)
  | int i => exact .int i
  | uint w => exact .uint w
  | box hb hm =>
    refine .box (Nat.lt_of_lt_of_le hb hr.boxes) ?_
    rw [hr.box _ hb]
    exact hm.keep hk hd

theorem scalar_eq (h : Stands L ts lo m r v p) (hh : Holds L σ m) : v.scalar r m = p.read σ := by
  cases h with
  | float hi => rfl
  | int i => rfl
  | uint w => rfl
  | box hb hm => exact hm.read hh

theorem scalar_grows (h : Stands L ts lo m r v p) (hr : r.Grows r') :
    v.scalar r' m = v.scalar r m := by
  cases h with
  | float hi => exact congrArg Scalar.num (hr.float _ hi)
  | int i => rfl
  | uint w => rfl
  | box hb hm => exact congrArg m.read (hr.box _ hb)

end Stands

/-- An operand is made a double. -/
theorem performAll_load (callBack : OpId → MachineM Unit) (v : Operand) (hr : r.Sized u) (m : Machine) :
    ∃ r', performAll callBack v.load r m = .ok r' m ∧ r.Grows r' ∧ r'.Sized (v.loaded u) ∧
      r'.float (v.register u) = (v.scalar r m).toNum := by
  have pushed : ∀ x, (r.withFloat x).float u.floats = x := fun x => by
    rw [← hr.floats]
    exact Registers.float_withFloat x
  cases v with
  | float i => exact ⟨r, rfl, .refl r, hr, rfl⟩
  | int i => exact ⟨_, rfl, Registers.grows_withFloat _, hr.withFloat _, pushed _⟩
  | uint w => exact ⟨_, rfl, Registers.grows_withFloat _, hr.withFloat _, pushed _⟩
  | box b => exact ⟨_, rfl, Registers.grows_withFloat _, hr.withFloat _, pushed _⟩

/-- The register that the double is in is in use. -/
theorem Stands.register_lt (h : Stands L ts lo m r v p) (hr : r.Sized u)
    (hr' : r'.Sized (v.loaded u)) : v.register u < r'.floats.size := by
  cases h with
  | float hi => rw [show r'.floats.size = r.floats.size from hr'.floats.trans hr.floats.symm]; exact hi
  | int i => rw [hr'.floats]; exact Nat.lt_succ_self _
  | uint w => rw [hr'.floats]; exact Nat.lt_succ_self _
  | box hb => rw [hr'.floats]; exact Nat.lt_succ_self _

/-- An operation on two operands. -/
theorem performAll_combine (callBack : OpId → MachineM Unit) (op : FloatOp) (v w : Operand)
    (hr : r.Sized u) (m : Machine) :
    ∃ r', performAll callBack (v.load ++ (w.load ++
        [.combine op (v.register u) (w.register (v.loaded u))])) r m = .ok r' m ∧ r.Grows r' ∧
      r'.Sized (w.loaded (v.loaded u)).float ∧
      ∀ {L ts lo p q}, v.Stands L ts lo m r p → w.Stands L ts lo m r q →
        r'.float (w.loaded (v.loaded u)).floats =
          op.apply (v.scalar r m).toNum (w.scalar r m).toNum := by
  obtain ⟨r₁, left, grows₁, sized₁, value₁⟩ := performAll_load callBack v hr m
  obtain ⟨r₂, right, grows₂, sized₂, value₂⟩ := performAll_load callBack w sized₁ m
  refine ⟨r₂.withFloat (op.apply (r₂.float (v.register u)) (r₂.float (w.register (v.loaded u)))), ?_,
    (grows₁.trans grows₂).trans (Registers.grows_withFloat _), sized₂.withFloat _, fun hv hw => ?_⟩
  · rw [performAll_append, Effect.bind_ok left, performAll_append, Effect.bind_ok right]
    rfl
  · rw [← sized₂.floats, Registers.float_withFloat, value₂,
      grows₂.float _ (hv.register_lt hr sized₁),
      value₁, hw.scalar_grows grows₁]

/-- The opposite of an operand. -/
theorem performAll_negate (callBack : OpId → MachineM Unit) (v : Operand) (hr : r.Sized u)
    (m : Machine) :
    ∃ r', performAll callBack (v.load ++ [.negate (v.register u)]) r m = .ok r' m ∧ r.Grows r' ∧
      r'.Sized (v.loaded u).float ∧ r'.float (v.loaded u).floats = -(v.scalar r m).toNum := by
  obtain ⟨r₁, load, grows, sized, value⟩ := performAll_load callBack v hr m
  refine ⟨r₁.withFloat (-(r₁.float (v.register u))), ?_,
    grows.trans (Registers.grows_withFloat _), sized.withFloat _, ?_⟩
  · rw [performAll_append, Effect.bind_ok load]
    rfl
  · rw [← sized.floats, Registers.float_withFloat, value]

/-- An operand is stored in a box, if there is one. -/
theorem perform_store (v : Operand) (b : Nat) (r : Registers) (m : Machine) :
    perform r (v.store b) m = .ok r m ∨
      perform r (v.store b) m = .ok r (m.write (r.box b) (v.scalar r m)) := by
  cases v with
  | float i => exact .inr rfl
  | int i => exact .inr rfl
  | uint w => exact .inr rfl
  | box c =>
    by_cases hc : r.box c = .null
    · exact .inl (congrArg (EStateM.Result.ok r) (if_pos hc))
    · exact .inr (congrArg (EStateM.Result.ok r) (if_neg hc))

theorem Stands.perform_store (h : Stands L ts lo m r v p) (b : Nat) :
    perform r (v.store b) m = .ok r (m.write (r.box b) (v.scalar r m)) := by
  cases h with
  | float hi => rfl
  | int i => rfl
  | uint w => rfl
  | box hb hm => exact congrArg (EStateM.Result.ok r) (if_neg hm.ne_null)

end Operand

/-! ### After a fault -/

/-- **A unit for the first term has code for the second**: the compiler takes all terms from the one
down to the other. -/
inductive Term.Coded (scope : Scope) : Term → Term → Prop where
  | self {t : Term} : t.isCompilable scope = true → Coded scope t t
  | kid {t k w : Term} : t.isCompilable scope = true → k ∈ t.kids → Coded scope k w →
      Coded scope t w

/-- **The box that code for the term yields is that of the variable in the slot**: the term is the
variable, or it has code for an assignment to it. -/
inductive Term.Targets (scope : Scope) : Term → Slot → Prop where
  | lexical {a : Attributes} {d : DeclId} {v : Declaration} :
      scope.get? d = some v → Targets scope (.leaf a (.lexical d)) v.slot
  | declaration {a : Attributes} {d : DeclId} {v : Declaration} :
      scope.get? d = some v → Targets scope (.leaf a (.declaration d)) v.slot
  | assigned {a : Attributes} {c : Operator} {b : Bool} {l r : Term} {s : Slot} :
      (Term.op a c b [l, r]).isCompilable scope = true → c = .assign ∨ b = true →
      Targets scope l s → Targets scope (.op a c b [l, r]) s

namespace Term.Targets

variable {scope : Scope} {a : Attributes} {d : DeclId} {v : Declaration} {t l r : Term} {s : Slot}

theorem lexical_iff (hd : scope.get? d = some v) :
    (Term.leaf a (.lexical d)).Targets scope s ↔ s = v.slot := by
  constructor
  · rintro ⟨hd'⟩
    cases hd.symm.trans hd'
    rfl
  · rintro rfl
    exact .lexical hd

theorem declaration_iff (hd : scope.get? d = some v) :
    (Term.leaf a (.declaration d)).Targets scope s ↔ s = v.slot := by
  constructor
  · rintro (_ | ⟨hd'⟩)
    cases hd.symm.trans hd'
    rfl
  · rintro rfl
    exact .declaration hd

theorem left {c : Operator} {b : Bool} (h : (Term.op a c b [l, r]).Targets scope s) :
    l.Targets scope s := by
  obtain _ | _ | ⟨-, -, hl⟩ := h
  exact hl

theorem isCompilable (h : t.Targets scope s) : t.isCompilable scope = true := by
  cases h with
  | lexical => rfl
  | declaration => rfl
  | assigned hc => exact hc

end Term.Targets

/-- **Code for the term may store to the variable in the slot** after a fault: the term assigns to
that variable, or to what is handed over for an expression.  Then the variable is one that waits;
and if the expression had come to its end, since it was the right operand that halted, it can yield
the variable. -/
def Term.AssignsTo (scope : Scope) (trace : List OpId) (waiting : Slot → Prop) (t : Term) (s : Slot) :
    Prop :=
  ∃ a c b l r, t = .op a c b [l, r] ∧ (c = .assign ∨ b = true) ∧
    (l.Targets scope s ∨
      (∀ s', ¬ l.Targets scope s') ∧ waiting s ∧ (r.Halts trace → l.CanBe scope s))

theorem Term.AssignsTo.mono {scope : Scope} {trace : List OpId} {P Q : Slot → Prop} {t : Term}
    {s : Slot} (h : t.AssignsTo scope trace P s) (hPQ : P s → Q s) : t.AssignsTo scope trace Q s := by
  obtain ⟨a, c, b, l, r, ht, hc, hs⟩ := h
  exact ⟨a, c, b, l, r, ht, hc, hs.imp_right fun h => ⟨h.1, hPQ h.2.1, h.2.2⟩⟩

/-- A unit for the term has code for the op that may store to the variable, where the store has
halted. -/
def Term.Codes (scope : Scope) (σ : Store) (t : Term) (N : HostTree) (s : Slot) : Prop :=
  ∃ w, t.Coded scope w ∧ (∃ c, Mirrors scope c w N) ∧ w.AssignsTo scope σ.done (· ∈ σ.held) s

theorem Term.Codes.of_kid {scope : Scope} {σ : Store} {t k : Term} {N : HostTree} {s : Slot}
    (h : k.Codes scope σ N s) (hc : t.isCompilable scope = true) (hk : k ∈ t.kids) :
    t.Codes scope σ N s := by
  obtain ⟨w, hw, hN⟩ := h
  exact ⟨w, .kid hc hk hw, hN⟩

theorem Place.subset_hold (p : Place) (held : List Slot) : held ⊆ p.hold held := by
  cases p with
  | var s => exact List.subset_cons_self s held
  | value v => exact List.Subset.refl _

/-- All variables on the stack wait.  Others may wait in the registers of units. -/
def Waiting (L : Layout) (held : List Slot) (st : List Ref) : Prop :=
  ∀ s, L.vars s → .pad s ∈ st → s ∈ held

theorem Waiting.accounts (L : Layout) : Accounts L (Waiting L) where
  nil := by simp [Waiting]
  push {ts lo m r p held st} hp h s hv hs := by
    rcases List.mem_cons.mp hs with rfl | below
    · cases hp with
      | var => exact List.mem_cons_self
      | slot _ hn => exact absurd hv hn
    · exact p.subset_hold held (h s hv below)

theorem Waiting.mono {L : Layout} {held held' : List Slot} {st : List Ref} (h : Waiting L held st)
    (hh : held ⊆ held') : Waiting L held' st := fun s hv hs => hh (h s hv hs)

/-- **How far the variables may be from a store**: the declarations on top of those of the store
can be undone, and then all variables have their values but those in `A`.  Of those on the stack,
the others wait. -/
structure Drifts (L : Layout) (A : Store → Slot → Prop) (σ : Store) (m : Machine) : Prop where
  size : m.pad.size = L.size
  saves : ∃ late, m.saves = late ++ σ.saves ∧
    ∀ s, L.vars s → A σ s ∨ (late.reverse.lookup s).getD (m.read (.pad s)) = σ.value s
  stack : ∀ s, L.vars s → .pad s ∈ m.stack → s ∈ σ.held ∨ A σ s

namespace Drifts

variable {L : Layout} {A : Store → Slot → Prop} {σ : Store} {m m' : Machine} {f : Fault}

theorem of_agrees (h : Agrees L σ m) (hw : Waiting L σ.held m.stack) : Drifts L A σ m :=
  ⟨h.size, ⟨[], h.saves, fun s hs => .inr (h.vars s hs)⟩, fun s hv hs => .inl (hw s hv hs)⟩

/-- Only the variables, what is saved of them and what is on the stack count. -/
theorem congr (h : Drifts L A σ m) (hp : m'.pad = m.pad) (hs : m'.saves = m.saves)
    (hst : m'.stack ⊆ m.stack) : Drifts L A σ m' := by
  obtain ⟨late, saves, values⟩ := h.saves
  refine ⟨by rw [hp]; exact h.size, ⟨late, hs.trans saves, fun s hv => ?_⟩,
    fun s hv hs => h.stack s hv (hst hs)⟩
  have same : m'.read (.pad s) = m.read (.pad s) := by simp only [Machine.read, hp]
  rw [same]
  exact values s hv

/-- A box goes to the stack, of a variable that waits or is in `A`, or of none. -/
theorem push (h : Drifts L A σ m) {r : Ref}
    (hr : ∀ s, r = .pad s → L.vars s → s ∈ σ.held ∨ A σ s) : Drifts L A σ (m.push r) := by
  refine ⟨h.size, h.saves, fun s hv hs => ?_⟩
  rcases List.mem_cons.mp hs with he | hs
  · exact hr s he.symm hv
  · exact h.stack s hv hs

/-- A store to a variable in `A`, or to no variable at all. -/
theorem write (h : Drifts L A σ m) {r : Ref} (hr : ∀ s, r = .pad s → L.vars s → A σ s)
    (v : Scalar) : Drifts L A σ (m.write r v) := by
  obtain ⟨late, saves, values⟩ := h.saves
  refine ⟨sizes_write.1.trans h.size, ⟨late, saves_write.trans saves, fun s hs => ?_⟩,
    fun s hv hs => h.stack s hv (by rwa [stack_write] at hs)⟩
  by_cases here : r = .pad s
  · exact .inl (hr s here hs)
  · rw [read_write_of_ne here]
    exact values s hs

/-- A declaration. -/
theorem clear (h : Drifts L A σ m) {s : Slot} (hs : s.index < L.size) :
    ∃ m', m.introduce? s = some m' ∧ m'.fault = m.fault ∧ Drifts L A σ m' := by
  obtain ⟨late, saves, values⟩ := h.saves
  obtain ⟨v, hv⟩ : ∃ v, m.padValue? s = some v :=
    ⟨_, Array.getElem?_eq_getElem (by rw [h.size]; exact hs)⟩
  have value : m.read (.pad s) = v := by
    rw [Machine.read, show m.pad[s.index]? = some v from hv, Option.getD_some]
  refine ⟨{ m.write (.pad s) .undefined with saves := (s, v) :: m.saves }, ?_, ?_, ?_,
    ⟨(s, v) :: late, ?_, fun t ht => ?_⟩, h.stack⟩
  · rw [introduce?, hv]
  · exact fault_write m _ _
  · exact sizes_write.1.trans h.size
  · rw [saves]
    rfl
  · refine (values t ht).imp id fun old => ?_
    -- what is saved now counts only if nothing was saved of the variable before
    rw [List.reverse_cons, List.lookup_append]
    by_cases here : t = s
    · subst here
      rw [← old, value]
      cases late.reverse.lookup t with
      | some w => rfl
      | none => simp
    · have unchanged : (m.write (.pad s) .undefined).read (.pad t) = m.read (.pad t) :=
        read_write_of_ne (fun he => here (Ref.pad.inj he).symm)
      have missed : List.lookup t [(s, v)] = none := by
        rw [List.lookup_cons, beq_eq_false_iff_ne.mpr here]
        rfl
      rw [missed, Option.or_none]
      exact (congrArg (fun x => ((late.reverse.lookup t).getD x)) unchanged).trans old

end Drifts

/-! ### Code that runs on -/

section Tracking

variable {α β γ δ : Type} {E : Store → Machine → Prop}

/-- The results of code and of a meaning: code may come to its end with a fault recorded where
the meaning halts with it.  Of the registers `F` is known then. -/
inductive Tracks (E : Store → Machine → Prop) (Q : β → Machine → α → Store → Prop)
    (F : β → Store → Prop) :
    EStateM.Result Halt Machine β → EStateM.Result Halt Store α → Prop where
  | ok {b : β} {m : Machine} {a : α} {σ : Store} : Q b m a σ → Tracks E Q F (.ok b m) (.ok a σ)
  | failed {b : β} {m : Machine} {f : Fault} {σ : Store} : m.fault = some f → E σ m → F b σ →
      Tracks E Q F (.ok b m) (.error (.fault f) σ)
  | error {h : Halt} {m : Machine} {σ : Store} : E σ m → Tracks E Q F (.error h m) (.error h σ)

variable {Q : β → Machine → α → Store → Prop} {F : β → Store → Prop}
  {Q' : δ → Machine → γ → Store → Prop} {F' : δ → Store → Prop} {m : Machine} {σ : Store}

/-- One piece of code after another: the second also runs after a fault in the first. -/
theorem Tracks.bind {x : MachineM β} {d : Meaning α} {k : β → MachineM δ} {e : α → Meaning γ}
    (h : Tracks E Q F (x m) (d σ))
    (hk : ∀ b m' a σ', d σ = .ok a σ' → Q b m' a σ' → Tracks E Q' F' (k b m') (e a σ'))
    (hf : ∀ b m' f σ', d σ = .error (.fault f) σ' → m'.fault = some f → E σ' m' → F b σ' →
      ∃ b' m'', k b m' = .ok b' m'' ∧ m''.fault = some f ∧ E σ' m'' ∧ F' b' σ') :
    Tracks E Q' F' ((x >>= k) m) ((d >>= e) σ) := by
  generalize hR : x m = R at h
  generalize hD : d σ = D at h
  cases h with
  | ok hq =>
    rw [Effect.bind_ok hR, Effect.bind_ok hD]
    exact hk _ _ _ _ hD hq
  | failed hfault he hfb =>
    obtain ⟨b', m'', hrun, hfault', he', hfb'⟩ := hf _ _ _ _ hD hfault he hfb
    rw [Effect.bind_ok hR, Effect.bind_error hD, hrun]
    exact .failed hfault' he' hfb'
  | error he =>
    rw [Effect.bind_error hR, Effect.bind_error hD]
    exact .error he

/-- Code that runs while a place waits. -/
theorem Tracks.beside {x : MachineM β} {d : Meaning α} {p : Place}
    (h : Tracks E Q F (x m) (d { σ with held := p.hold σ.held }))
    (hQ : ∀ b m' a σ', Q b m' a σ' → Q b m' a { σ' with held := σ.held }) :
    Tracks E Q F (x m) (Meaning.beside p d σ) := by
  generalize hR : x m = R at h
  generalize hD : d { σ with held := p.hold σ.held } = D at h
  cases h with
  | ok hq =>
    rw [Meaning.beside_ok hD]
    exact .ok (hQ _ _ _ _ hq)
  | failed hfault he hfb =>
    rw [Meaning.beside_error hD]
    exact .failed hfault he hfb
  | error he =>
    rw [Meaning.beside_error hD]
    exact .error he

end Tracking

/-! ### What code realizes -/

/-- What code leaves in the registers, with or without a fault.  A box that it yields is that of
the variable in `Y`, if there is one. -/
structure Settles (Y : Slot → Prop) (r r' : Registers) (u : Usage) (v : Operand) : Prop where
  grows : r.Grows r'
  sized : r'.Sized u
  inUse : ∀ b, v = .box b → b < r'.boxes.size
  box : ∀ s b, Y s → v = .box b → r'.box b = .pad s

/-- **What code for the tree leaves in the registers after a fault.**  A box that it yields is that
of the variable which the tree is, or it was left on the stack, or it has been stored to. -/
structure Late (L : Layout) (A : Store → Slot → Prop) (T : HostTree) (Y : Slot → Prop)
    (r r' : Registers) (u : Usage) (v : Operand) (σ : Store) : Prop extends Settles Y r r' u v where
  aims : ∀ s b, v = .box b → r'.box b = .pad s → L.vars s →
    T.kids = [] ∧ Y s ∨ (∀ s', ¬ Y s') ∧ s ∈ σ.held ∨ A σ s

/-- What code leaves that has come to its end. -/
structure Yields (L : Layout) (T : HostTree) (Y : Slot → Prop) (m m' : Machine) (r r' : Registers)
    (u : Usage) (v : Operand) (σ : Store) (p : Place) : Prop extends Settles Y r r' u v where
  stack : m'.stack = m.stack
  holds : Holds L σ m'
  keeps : Keeps L T.targets m m'
  stands : v.Stands L T.targets m.temps.size m' r' p

theorem Yields.held {L : Layout} {T : HostTree} {Y : Slot → Prop} {m m' : Machine} {r r' : Registers}
    {u : Usage} {v : Operand} {σ : Store} {p : Place} (h : Yields L T Y m m' r r' u v σ p)
    (held : List Slot) : Yields L T Y m m' r r' u v { σ with held } p :=
  { h with holds := h.holds.held held }

/-- **The code has the meaning of the tree**, and after a fault it does not do more harm than the
assignments in the tree can do that have code: `O` has them, with the variables they may store
to. -/
structure Realizes (L : Layout) (A : Store → Slot → Prop) (O : Store → HostTree → Slot → Prop)
    (callBack : OpId → MachineM Unit) (T : HostTree) (Y : Slot → Prop) (u : Usage) (code : List Instr)
    (v : Operand) (u' : Usage) : Prop where
  tracks : ∀ m σ r, Holds L σ m → Waiting L σ.held m.stack → σ.done.Disjoint T.ids → r.Sized u →
    Tracks (Drifts L A) (fun r' m' p σ' => Yields L T Y m m' r r' u' v σ' p)
      (fun r' σ' => Late L A T Y r r' u' v σ') (performAll callBack code r m) (T.meaning σ)
  late : ∀ m σ r f, m.fault = some f → Drifts L A σ m → r.Sized u → ¬ T.Halts σ.done →
    (∀ N ∈ T.subtrees, ∀ s, O σ N s → A σ s) →
    ∃ r' m', performAll callBack code r m = .ok r' m' ∧ m'.fault = some f ∧ Drifts L A σ m' ∧
      Late L A T Y r r' u' v σ

/-- `A` has the variables that the assignments in `O` may store to after a fault in the tree: those
of assignments that have not been executed. -/
def Covers (A : Store → Slot → Prop) (O : Store → HostTree → Slot → Prop) (T : HostTree) : Prop :=
  ∀ σ N s, N ∈ T.subtrees → O σ N s → N.root ∉ σ.done → T.Halts σ.done → A σ s

theorem HostTree.Halts.of_subtree {S T : HostTree} {trace : List OpId} (h : S.Halts trace)
    (hS : S ∈ T.subtrees) : T.Halts trace :=
  let ⟨x, hx, last⟩ := h
  ⟨x, ids_subset hS hx, last⟩

/-- A run that has halted in one tree has not halted in another. -/
theorem HostTree.Halts.apart {S T : HostTree} {trace : List OpId} (h : S.Halts trace)
    (hd : S.ids.Disjoint T.ids) : ¬ T.Halts trace := by
  obtain ⟨x, hx, last⟩ := h
  rintro ⟨y, hy, last'⟩
  cases last.symm.trans last'
  exact hd hx hy

namespace Covers

variable {A : Store → Slot → Prop} {O : Store → HostTree → Slot → Prop} {S T : HostTree}

theorem subtree (h : Covers A O T) (hS : S ∈ T.subtrees) : Covers A O S :=
  fun σ N s hN ho hr halts => h σ N s (subtrees_trans hN hS) ho hr (halts.of_subtree hS)

/-- A part of the tree has halted that an assignment does not belong to. -/
theorem of_halt (h : Covers A O T) (hS : S ∈ T.subtrees) {σ σ' : Store} {e : Halt}
    (he : S.meaning σ = .error e σ') {N : HostTree} (hN : N ∈ T.subtrees) (hout : N.root ∉ S.ids)
    (hd : N.root ∉ σ.done) (s : Slot) (ho : O σ' N s) : A σ' s := by
  have before : σ.done.Disjoint [N.root] := by simpa using hd
  have outside : S.ids.Disjoint [N.root] := by simpa using hout
  obtain ⟨done, x, hx, last⟩ := halts_within he before outside
  exact h σ' N s hN ho (by simpa using done) ⟨x, ids_subset hS hx, last⟩

end Covers

section Code

variable {L : Layout} {A : Store → Slot → Prop} {O : Store → HostTree → Slot → Prop}
  {Y Yl Yr : Slot → Prop} {callBack : OpId → MachineM Unit} {id : OpId} {f : Face} {l r T : HostTree}
  {u u₁ u₂ : Usage}
  {code code' : List Instr} {v w : Operand}

theorem Settles.of_float {r r' : Registers} (hv : ∀ b, v ≠ .box b) (hg : r.Grows r')
    (hs : r'.Sized u) : Settles Y r r' u v :=
  ⟨hg, hs, fun b hb => absurd hb (hv b), fun _ b _ hb => absurd hb (hv b)⟩

theorem Late.of_float {r r' : Registers} {σ : Store} (hv : ∀ b, v ≠ .box b) (hg : r.Grows r')
    (hs : r'.Sized u) : Late L A T Y r r' u v σ :=
  ⟨.of_float hv hg hs, fun _ b hb => absurd hb (hv b)⟩

/-- Code that only fills registers. -/
theorem Realizes.of_pure (hv : ∀ b, v ≠ .box b)
    (h : ∀ m r, r.Sized u → ∃ r', performAll callBack code r m = .ok r' m ∧ r.Grows r' ∧ r'.Sized u₁ ∧
      ∃ p, (∀ σ, T.meaning σ = .ok p (σ.note T.root)) ∧ v.Stands L T.targets m.temps.size m r' p) :
    Realizes L A O callBack T Y u code v u₁ where
  tracks m σ r hh _ hd hr := by
    obtain ⟨r', hrun, grows, sized, p, hp, stands⟩ := h m r hr
    rw [hrun, hp]
    exact .ok ⟨.of_float hv grows sized, rfl, hh.note _, .refl _ _ _, stands⟩
  late m σ r f hf hdrift hr _ _ := by
    obtain ⟨r', hrun, grows, sized, -⟩ := h m r hr
    exact ⟨r', m, hrun, hf, hdrift, .of_float hv grows sized⟩

theorem realizes_double (x : Float) :
    Realizes L A O callBack (node id ⟨.const (.num x), none, false⟩ []) Y u [.const x]
      (.float u.floats) u.float := by
  refine .of_pure (fun _ => Operand.noConfusion) fun m r hr =>
    ⟨r.withFloat x, rfl, Registers.grows_withFloat x,
      hr.withFloat x, .value (.num x), fun _ => rfl, ?_⟩
  have value : (r.withFloat x).float u.floats = x := by
    rw [← hr.floats]
    exact Registers.float_withFloat x
  have stands : Operand.Stands L (node id ⟨.const (.num x), none, false⟩ []).targets m.temps.size m
      (r.withFloat x) (.float u.floats) (.value (.num ((r.withFloat x).float u.floats))) :=
    .float (by rw [(hr.withFloat x).floats]; exact Nat.lt_succ_self _)
  rwa [value] at stands

theorem realizes_int (i : Int64) :
    Realizes L A O callBack (node id ⟨.const (.int i), none, false⟩ []) Y u [] (.int i) u :=
  .of_pure (fun _ => Operand.noConfusion) fun _ r hr => ⟨r, rfl, .refl r, hr, _, fun _ => rfl, .int i⟩

theorem realizes_uint (w : UInt64) :
    Realizes L A O callBack (node id ⟨.const (.uint w), none, false⟩ []) Y u [] (.uint w) u :=
  .of_pure (fun _ => Operand.noConfusion) fun _ r hr => ⟨r, rfl, .refl r, hr, _, fun _ => rfl, .uint w⟩

theorem Machine.perform_pad {m : Machine} {s : Slot} (r : Registers) (h : s.index < m.pad.size) :
    perform r (.pad s) m = .ok (r.withBox (.pad s)) m := by
  simp only [perform]
  rw [Effect.get_bind, padRef?, if_pos h]
  rfl

theorem Machine.perform_clear {m m' : Machine} {s : Slot} (r : Registers)
    (h : m.introduce? s = some m') : perform r (.clear s) m = .ok r m' := by
  simp only [perform]
  rw [Effect.get_bind, h]
  rfl

/-- The box of a variable that is in place. -/
theorem performAll_pad {m : Machine} {s : Slot} (callBack : OpId → MachineM Unit) (r : Registers)
    (h : s.index < m.pad.size) :
    performAll callBack [.pad s] r m = .ok (r.withBox (.pad s)) m := by
  simp only [performAll]
  rw [Effect.bind_ok (perform_pad r h)]
  rfl

theorem Machine.Registers.Sized.box_withBox {r : Registers} (hr : r.Sized u) (x : Ref) :
    u.boxes < (r.withBox x).boxes.size ∧ (r.withBox x).box u.boxes = x := by
  constructor
  · rw [(hr.withBox x).boxes]
    exact Nat.lt_succ_self _
  · rw [← hr.boxes]
    exact Registers.box_withBox x

theorem settles_pad {s : Slot} {r : Registers} (hr : r.Sized u) (hY : ∀ s', Y s' ↔ s' = s) :
    Settles Y r (r.withBox (.pad s)) u.box (.box u.boxes) := by
  obtain ⟨inUse, box⟩ := hr.box_withBox (.pad s)
  refine ⟨Registers.grows_withBox _, hr.withBox _, fun b hb => ?_, fun s' b hs hb => ?_⟩
  · cases hb
    exact inUse
  · obtain rfl := (hY s').mp hs
    cases hb
    exact box

theorem late_pad {s : Slot} {new : Bool} {r : Registers} {σ : Store} (hr : r.Sized u)
    (hY : ∀ s', Y s' ↔ s' = s) :
    Late L A (node id ⟨.lexical s new, none, false⟩ []) Y r (r.withBox (.pad s)) u.box (.box u.boxes)
      σ := by
  refine ⟨settles_pad hr hY, fun s' b hb hs _ => .inl ⟨rfl, (hY s').mpr ?_⟩⟩
  cases hb
  exact (Ref.pad.inj ((hr.box_withBox _).2.symm.trans hs)).symm

theorem yields_pad {s : Slot} {new : Bool} {m m' : Machine} {σ : Store} {r : Registers}
    (hr : r.Sized u) (hY : ∀ s', Y s' ↔ s' = s) (hv : L.vars s) (hi : s.index < L.size)
    (hst : m'.stack = m.stack) (hh : Holds L σ m')
    (hk : Keeps L (node id ⟨.lexical s new, none, false⟩ []).targets m m') :
    Yields L (node id ⟨.lexical s new, none, false⟩ []) Y m m' r (r.withBox (.pad s)) u.box
      (.box u.boxes) σ (.var s) := by
  obtain ⟨inUse, box⟩ := hr.box_withBox (.pad s)
  refine ⟨settles_pad hr hY, hst, hh, hk, .box inUse ?_⟩
  rw [box]
  exact .var hv hi

theorem realizes_lexical {s : Slot} (hs : L.Suits (node id ⟨.lexical s false, none, false⟩ []))
    (hY : ∀ s', Y s' ↔ s' = s) :
    Realizes L A O callBack (node id ⟨.lexical s false, none, false⟩ []) Y u [.pad s] (.box u.boxes)
      u.box := by
  obtain ⟨isVar, inside⟩ := hs.lexicals s (by simp [lexicals, subtrees, subtreesAll])
  constructor
  · intro m σ r hh _ hd hr
    rw [performAll_pad callBack r (by rw [hh.size]; exact inside)]
    exact .ok (yields_pad hr hY isVar inside rfl (hh.note id) (.refl _ _ _))
  · intro m σ r f hf hdrift hr _ _
    exact ⟨_, m, performAll_pad callBack r (by rw [hdrift.size]; exact inside), hf, hdrift,
      late_pad hr hY⟩

theorem realizes_declaration {s : Slot} (hs : L.Suits (node id ⟨.lexical s true, none, false⟩ []))
    (hY : ∀ s', Y s' ↔ s' = s) :
    Realizes L A O callBack (node id ⟨.lexical s true, none, false⟩ []) Y u [.clear s, .pad s]
      (.box u.boxes) u.box := by
  obtain ⟨isVar, inside⟩ := hs.lexicals s (by simp [lexicals, subtrees, subtreesAll])
  have cleared : ∀ {m m' : Machine} {r : Registers}, m.introduce? s = some m' → m'.pad.size = L.size →
      performAll callBack [.clear s, .pad s] r m = .ok (r.withBox (.pad s)) m' := by
    intro m m' r hm' size
    simp only [performAll]
    rw [Effect.bind_ok (perform_clear r hm')]
    exact performAll_pad callBack r (by rw [size]; exact inside)
  constructor
  · intro m σ r hh _ hd hr
    obtain ⟨m', hm', hst, holds, keeps⟩ :=
      (hh.note id).introduce isVar inside (node id ⟨.lexical s true, none, false⟩ []).targets
    rw [cleared hm' holds.size]
    exact .ok (yields_pad hr hY isVar inside hst holds keeps)
  · intro m σ r f hf hdrift hr _ _
    obtain ⟨m', hm', fault, drifts⟩ := hdrift.clear inside
    exact ⟨_, m', cleared hm' drifts.size, fault.trans hf, drifts, late_pad hr hY⟩

/-- **Where an assignment to the first of two operands may go after a fault**: to the variable in
`Y`, or if there is none to one that waits.  If the second operand has halted, the first has not, so
it is one that the first can yield. -/
def MayStore (Y : Slot → Prop) (l r : HostTree) (σ : Store) (s : Slot) : Prop :=
  Y s ∨ (∀ s', ¬ Y s') ∧ s ∈ σ.held ∧ (r.Halts σ.done → l.CanBe s)

/-- The same, said of the terms that the operands were read as. -/
theorem MayStore.mirrored {scope : Scope} {c c' : Context} {t t' : Term} {σ : Store} {s : Slot}
    (h : MayStore Y l r σ s) (hl : Mirrors scope c t l) (hr : Mirrors scope c' t' r) :
    Y s ∨ (∀ s', ¬ Y s') ∧ s ∈ σ.held ∧ (t'.Halts σ.done → t.CanBe scope s) :=
  h.imp_right fun h => ⟨h.1, h.2.1, fun halts => hl.canBe (h.2.2 (hr.halts halts))⟩

/-- The box of the first operand is one that an assignment may go to, or has been stored to. -/
structure Aims (L : Layout) (A : Store → Slot → Prop) (Y : Slot → Prop) (l r : HostTree)
    (rs : Registers) (v : Operand) (σ : Store) : Prop where
  inUse : ∀ b, v = .box b → b < rs.boxes.size
  box : ∀ s b, v = .box b → rs.box b = .pad s → L.vars s → MayStore Y l r σ s ∨ A σ s

theorem Aims.grows {rs rs' : Registers} {σ : Store} (h : Aims L A Y l r rs v σ) (hr : rs.Grows rs') :
    Aims L A Y l r rs' v σ where
  inUse b hb := Nat.lt_of_lt_of_le (h.inUse b hb) hr.boxes
  box s b hb hs := h.box s b hb ((hr.box b (h.inUse b hb)).symm.trans hs)

/-- What an assignment stores to through the operand. -/
theorem Aims.stored {rs : Registers} {σ : Store} (h : Aims L A Y l r rs v σ)
    (hA : ∀ s, MayStore Y l r σ s → A σ s) :
    ∀ s b, v = .box b → rs.box b = .pad s → L.vars s → A σ s :=
  fun s b hb hs hv => (h.box s b hb hs hv).elim (hA s) id

/-- The operand itself was late. -/
theorem Late.operand {rs rs' : Registers} {σ : Store} (h : Late L A l Y rs rs' u v σ)
    (hr : ¬ r.Halts σ.done) : Aims L A Y l r rs' v σ where
  inUse := h.inUse
  box s b hb hs hv := by
    rcases h.aims s b hb hs hv with leaf | held | stored
    · exact .inl (.inl leaf.2)
    · exact .inl (.inr ⟨held.1, held.2, fun halts => absurd halts hr⟩)
    · exact .inr stored

/-- The operand was there before the fault, and has waited since. -/
theorem Yields.operand {m m' : Machine} {rs rs' : Registers} {σ₀ σ σ' : Store} {p : Place}
    (h : Yields L l Y m m' rs rs' u v σ p) (hm : l.meaning σ₀ = .ok p σ)
    (hp : p.hold σ.held ⊆ σ'.held) : Aims L A Y l r rs' v σ' where
  inUse := h.inUse
  box s b hb hs hv := by
    by_cases hY : ∃ s', Y s'
    · obtain ⟨s', hs'⟩ := hY
      obtain rfl : s' = s := Ref.pad.inj ((h.box s' b hs' hb).symm.trans hs)
      exact .inl (.inl hs')
    · -- a box that is a variable's stands for the variable
      obtain rfl : p = .var s := by
        have stands := h.stands
        subst hb
        cases stands with
        | box _ means =>
          rw [hs] at means
          cases means with
          | var => rfl
          | slot _ hn => exact absurd hv hn
      exact .inl (.inr ⟨not_exists.mp hY, hp List.mem_cons_self, fun _ => ⟨σ₀, σ, hm⟩⟩)

/-- **Code for what an op does with its two operands.** -/
structure Finishes (L : Layout) (A : Store → Slot → Prop) (O : Store → HostTree → Slot → Prop)
    (callBack : OpId → MachineM Unit) (T l r : HostTree) (Yl : Slot → Prop) (v w : Operand) (u : Usage)
    (tail : List Instr) (v' : Operand) (u' : Usage) (c : Place → Place → Meaning Place) : Prop where
  ok : ∀ m m' σ r p q, m'.stack = m.stack → Holds L σ m' → Keeps L T.targets m m' → r.Sized u →
    v.Stands L T.targets m.temps.size m' r p → w.Stands L T.targets m.temps.size m' r q →
    ∃ r' m'' p' σ', performAll callBack tail r m' = .ok r' m'' ∧ c p q σ = .ok p' σ' ∧ r.Grows r' ∧
      r'.Sized u' ∧ m''.stack = m.stack ∧ Holds L σ' m'' ∧ Keeps L T.targets m m'' ∧
      v'.Stands L T.targets m.temps.size m'' r' p'
  late : ∀ m σ rs e, m.fault = some e → Drifts L A σ m → rs.Sized u → Aims L A Yl l r rs v σ →
    (∀ s, O σ T s → A σ s) →
    ∃ rs' m', performAll callBack tail rs m = .ok rs' m' ∧ m'.fault = some e ∧ Drifts L A σ m' ∧
      rs.Grows rs' ∧ rs'.Sized u' ∧
      ∀ s b, v' = .box b → rs'.box b = .pad s → L.vars s → A σ s

/-- What the code for an op leaves, after that for its operands. -/
theorem Settles.after {r r₁ r₂ r₃ : Registers} {v' : Operand} {u₃ : Usage} (h : Settles Yl r r₁ u v)
    (h₂ : r₁.Grows r₂) (h₃ : r₂.Grows r₃) (hs : r₃.Sized u₃)
    (hY : ∀ b, v' = .box b → v = .box b ∧ ∀ s, Y s → Yl s) : Settles Y r r₃ u₃ v' := by
  have grows := h₂.trans h₃
  refine ⟨h.grows.trans grows, hs, fun b hb => ?_, fun s b hs hb => ?_⟩
  · exact Nat.lt_of_lt_of_le (h.inUse b (hY b hb).1) grows.boxes
  · obtain ⟨hb, hY⟩ := hY b hb
    exact (grows.box b (h.inUse b hb)).trans (h.box s b (hY s hs) hb)

/-- After a fault, what it yields has been stored to. -/
theorem Settles.late {r r' : Registers} {σ : Store} (h : Settles Y r r' u v)
    (hA : ∀ s b, v = .box b → r'.box b = .pad s → L.vars s → A σ s) : Late L A T Y r r' u v σ :=
  ⟨h, fun s b hb hs hv => .inr (.inr (hA s b hb hs hv))⟩

section Operands

variable {tail : List Instr} {v' : Operand} {u₃ : Usage} {c : Place → Place → Meaning Place}
  (hl : Realizes L A O callBack l Yl u code v u₁) (hr : Realizes L A O callBack r Yr u₁ code' w u₂)
  (ht : Finishes L A O callBack (node id f [l, r]) l r Yl v w u₂ tail v' u₃ c)
  (hY : ∀ b, v' = .box b → v = .box b ∧ ∀ s, Y s → Yl s)

include hl hr ht hY

/-- Two operands and the op, all after a fault. -/
theorem Realizes.late_operands {m : Machine} {σ : Store} {r₀ : Registers} {e : Fault}
    (hf : m.fault = some e) (hdrift : Drifts L A σ m) (hr₀ : r₀.Sized u)
    (hlast : ¬ (node id f [l, r]).Halts σ.done)
    (hlater : ∀ N ∈ (node id f [l, r]).subtrees, ∀ s, O σ N s → A σ s) :
    ∃ r' m', performAll callBack (code ++ (code' ++ tail)) r₀ m = .ok r' m' ∧ m'.fault = some e ∧
      Drifts L A σ m' ∧ Late L A (node id f [l, r]) Y r₀ r' u₃ v' σ := by
  have below : ∀ k ∈ [l, r], ∀ N ∈ k.subtrees, ∀ s, O σ N s → A σ s := fun k hk N hN =>
    hlater N (subtrees_trans hN (subtrees_of_kid (t := node id f [l, r]) hk))
  have elsewhere : ∀ k ∈ [l, r], ¬ k.Halts σ.done := fun k hk halts =>
    hlast (halts.of_subtree (subtrees_of_kid hk))
  obtain ⟨r₁, m₁, hrun₁, hf₁, drift₁, late₁⟩ :=
    hl.late m σ r₀ e hf hdrift hr₀ (elsewhere l (by simp)) (below l (by simp))
  obtain ⟨r₂, m₂, hrun₂, hf₂, drift₂, late₂⟩ :=
    hr.late m₁ σ r₁ e hf₁ drift₁ late₁.sized (elsewhere r (by simp)) (below r (by simp))
  obtain ⟨r₃, m₃, hrun₃, hf₃, drift₃, grows, sized, stored⟩ := ht.late m₂ σ r₂ e hf₂ drift₂ late₂.sized
    ((late₁.operand (elsewhere r (by simp))).grows late₂.grows) (hlater _ (mem_subtrees_self _))
  refine ⟨r₃, m₃, ?_, hf₃, drift₃, (late₁.after late₂.grows grows sized hY).late stored⟩
  rw [performAll_append, Effect.bind_ok hrun₁, performAll_append, Effect.bind_ok hrun₂, hrun₃]

/-- **Two operands, and code for what is done with them.** -/
theorem Realizes.operands (hs : L.Suits (node id f [l, r])) (hA : Covers A O (node id f [l, r]))
    (hc : (node id f [l, r]).meaning =
      (do let p ← l.meaning; let q ← Meaning.beside p r.meaning; c p q)) :
    Realizes L A O callBack (node id f [l, r]) Y u (code ++ (code' ++ tail)) v' u₃ := by
  refine ⟨fun m σ r₀ hh hw hd hr₀ => ?_, fun m σ r₀ e => hl.late_operands hr ht hY⟩
  have left : l.targets ⊆ (node id f [l, r]).targets := targets_kid List.mem_cons_self
  have right : r.targets ⊆ (node id f [l, r]).targets := targets_kid (by simp)
  have inLeft : l ∈ (node id f [l, r]).subtrees := subtrees_of_kid (by simp)
  have inRight : r ∈ (node id f [l, r]).subtrees := subtrees_of_kid (by simp)
  have apart : ∀ N ∈ r.subtrees, N.root ∉ l.ids := fun N hN hx =>
    hs.ids_apart (by simp) hx (mem_ids.mpr ⟨N, hN, rfl⟩)
  have top : ∀ k ∈ [l, r], id ∉ k.ids := fun k hk hx =>
    (nodup_kids hs.ids).1 (ids_subset_idsAll hk hx)
  have notDone : ∀ N ∈ (node id f [l, r]).subtrees, N.root ∉ σ.done := fun N hN hx =>
    hd hx (mem_ids.mpr ⟨N, hN, rfl⟩)
  rw [performAll_append, hc]
  refine (hl.tracks m σ r₀ hh hw (Layout.Suits.done_kid hd (by simp)) hr₀).bind ?_ ?_
  · intro r₁ m₁ p σ₁ hp first
    have waiting : Waiting L (p.hold σ₁.held) m₁.stack := by
      rw [first.stack, l.retains_meaning.ok hp]
      exact hw.mono (p.subset_hold _)
    have undone : σ₁.done.Disjoint r.ids := hs.done_next hd hp (by simp)
    rw [performAll_append]
    refine (Tracks.beside (hr.tracks m₁ { σ₁ with held := p.hold σ₁.held } r₁ (first.holds.held _)
      waiting undone first.sized) fun _ _ _ _ second => second.held _).bind ?_ ?_
    · intro r₂ m₂ q σ₂ hq second
      have hv := (first.stands.keep second.keeps hs.apart second.grows).mono left (Nat.le_refl _)
      have hw := second.stands.mono right first.keeps.size
      obtain ⟨r₃, m₃, p', σ₃, hrun, hmeans, grows, sized, stack, holds, keeps, stands⟩ :=
        ht.ok m m₂ σ₂ r₂ p q (second.stack.trans first.stack) second.holds
          ((first.keeps.mono left).trans (second.keeps.mono right)) second.sized hv hw
      rw [hrun, hmeans]
      exact .ok ⟨first.after second.grows grows sized hY, stack, holds, keeps, stands⟩
    · -- the second operand has faulted: only the op itself is late
      intro r₂ m₂ e σ₂ hq hf hdrift late
      have own : σ₁.done.Disjoint [id] := done_disjoint hp
        (by simpa using notDone (node id f [l, r]) (mem_subtrees_self _))
        (by simpa using top l (by simp))
      have hq := Meaning.beside_eq_error hq
      have waited : p.hold σ₁.held ⊆ σ₂.held := r.retains_meaning.error hq
      obtain ⟨r₃, m₃, hrun, hf₃, drift₃, grows, sized, stored⟩ := ht.late m₂ σ₂ r₂ e hf hdrift
        late.sized ((first.operand hp waited).grows late.grows)
        (hA.of_halt inRight hq (mem_subtrees_self _) (top r (by simp)) (by simpa using own))
      exact ⟨r₃, m₃, hrun, hf₃, drift₃, (first.after late.grows grows sized hY).late stored⟩
  · -- the first operand has faulted: the second is late too
    intro r₁ m₁ e σ₁ hp hf hdrift late₁
    have later : ∀ N ∈ (node id f [l, r]).subtrees, N.root ∉ l.ids → ∀ s, O σ₁ N s → A σ₁ s :=
      fun N hN hout => hA.of_halt inLeft hp hN hout (notDone N hN)
    have elsewhere : ¬ r.Halts σ₁.done := (halts_of_error hp).apart (hs.ids_apart (by simp))
    obtain ⟨r₂, m₂, hrun₂, hf₂, drift₂, late₂⟩ := hr.late m₁ σ₁ r₁ e hf hdrift late₁.sized elsewhere
      fun N hN => later N (subtrees_trans hN inRight) (apart N hN)
    obtain ⟨r₃, m₃, hrun₃, hf₃, drift₃, grows, sized, stored⟩ := ht.late m₂ σ₁ r₂ e hf₂ drift₂
      late₂.sized ((late₁.operand elsewhere).grows late₂.grows)
      (later _ (mem_subtrees_self _) (top l (by simp)))
    refine ⟨r₃, m₃, ?_, hf₃, drift₃, (late₁.after late₂.grows grows sized hY).late stored⟩
    rw [performAll_append, Effect.bind_ok hrun₂, hrun₃]

end Operands

/-- An operation whose result stays in a register. -/
theorem finishes_binary {op : FloatOp} {s : Slot} :
    Finishes L A O callBack (node id ⟨.arith (.float op), some s, false⟩ [l, r]) l r Yl v w u
      (v.load ++ (w.load ++ [.combine op (v.register u) (w.register (v.loaded u))]))
      (.float (w.loaded (v.loaded u)).floats) (w.loaded (v.loaded u)).float
      (fun p q => do
        let σ ← Meaning.execute id
        let x ← (Arithmetic.float op).meaning (p.read σ).toNum (q.read σ).toNum
        if false then p.write (.num x) else return .value (.num x)) := by
  constructor
  · intro m m' σ r p q hst hh hk hr hv hw
    obtain ⟨r', hrun, grows, sized, value⟩ := Operand.performAll_combine callBack op v w hr m'
    refine ⟨r', m', _, _, hrun, rfl, grows, sized, hst, hh.note id, hk, ?_⟩
    rw [← hv.scalar_eq (hh.note id), ← hw.scalar_eq (hh.note id), ← value hv hw]
    exact .float (by rw [sized.floats]; exact Nat.lt_succ_self _)
  · intro m σ r e hf hdrift hr _ _
    obtain ⟨r', hrun, grows, sized, -⟩ := Operand.performAll_combine callBack op v w hr m
    exact ⟨r', m, hrun, hf, hdrift, grows, sized, fun _ _ hb => by cases hb⟩

/-- An operation whose result goes to the left operand. -/
theorem finishes_assigning {op : FloatOp} {b : Nat}
    (hO : ∀ σ s, MayStore Yl l r σ s → O σ (node id ⟨.arith (.float op), none, true⟩ [l, r]) s) :
    Finishes L A O callBack (node id ⟨.arith (.float op), none, true⟩ [l, r]) l r Yl (.box b) w u
      (.number b false :: (w.load ++
        [.combine op u.floats (w.register u.float), .storeNum b (w.loaded u.float).floats]))
      (.box b) (w.loaded u.float).float
      (fun p q => do
        let σ ← Meaning.execute id
        let x ← (Arithmetic.float op).meaning (p.read σ).toNum (q.read σ).toNum
        if true then p.write (.num x) else return .value (.num x)) := by
  have run : ∀ {m : Machine} {r : Registers}, r.Sized u → ∃ r' x,
      performAll callBack (.number b false :: (w.load ++ [.combine op u.floats (w.register u.float),
        .storeNum b (w.loaded u.float).floats])) r m = .ok r' (m.write (r'.box b) (.num x)) ∧
      r.Grows r' ∧ r'.Sized (w.loaded u.float).float ∧
      ∀ {L ts lo p q}, (Operand.box b).Stands L ts lo m r p → w.Stands L ts lo m r q →
        x = op.apply ((Operand.box b).scalar r m).toNum (w.scalar r m).toNum := by
    intro m r hr
    obtain ⟨r', hrun, grows, sized, value⟩ :=
      Operand.performAll_combine callBack op (.box b) w hr m
    refine ⟨r', r'.float (w.loaded u.float).floats, ?_, grows, sized, value⟩
    have parts : Instr.number b false :: (w.load ++ [.combine op u.floats (w.register u.float),
        .storeNum b (w.loaded u.float).floats]) = ((Operand.box b).load ++ (w.load ++
        [.combine op u.floats (w.register u.float)])) ++ [.storeNum b (w.loaded u.float).floats] := by
      simp [Operand.load]
    have hrun : performAll callBack ((Operand.box b).load ++
        (w.load ++ [.combine op u.floats (w.register u.float)])) r m = .ok r' m := hrun
    rw [parts, performAll_append, Effect.bind_ok hrun]
    rfl
  constructor
  · intro m m' σ r p q hst hh hk hr hv hw
    obtain ⟨r', x, hrun, grows, sized, value⟩ := run hr
    have value := value hv hw
    rw [hv.scalar_eq (hh.note id), hw.scalar_eq (hh.note id)] at value
    obtain ⟨hb, hp⟩ : b < r.boxes.size ∧ Means L _ m.temps.size m' (r.box b) p := by
      cases hv with
      | box hb hp => exact ⟨hb, hp⟩
    obtain ⟨p', σ', hwrite, holds, means⟩ := hp.write (hh.note id) (.num x)
    rw [value] at hwrite
    rw [grows.box b hb] at hrun
    refine ⟨r', _, p', σ', hrun, hwrite, grows, sized, stack_write.trans hst, holds,
      hp.keeps_write hk _, .box (Nat.lt_of_lt_of_le hb grows.boxes) ?_⟩
    rw [grows.box b hb]
    exact means
  · intro m σ r e hf hdrift hr aims hA
    obtain ⟨r', x, hrun, grows, sized, -⟩ := run hr
    have stored := (aims.grows grows).stored fun s hs => hA s (hO σ s hs)
    exact ⟨r', _, hrun, (fault_write m _ _).trans hf, hdrift.write (fun s => stored s b rfl) _, grows,
      sized, stored⟩

/-- A value is stored in the left operand. -/
theorem finishes_assign {b : Nat}
    (hO : ∀ σ s, MayStore Yl l r σ s → O σ (node id ⟨.assign, none, false⟩ [l, r]) s) :
    Finishes L A O callBack (node id ⟨.assign, none, false⟩ [l, r]) l r Yl (.box b) w u [w.store b] (.box b) u
      (fun p q => do
        let σ ← Meaning.execute id
        p.write (q.read σ)) := by
  have run : ∀ {r : Registers} {m m' : Machine}, perform r (w.store b) m = .ok r m' →
      performAll callBack [w.store b] r m = .ok r m' := by
    intro r m m' h
    have single : performAll callBack [w.store b] r = (do
        performAll callBack [] (← perform r (w.store b))) := by cases w <;> rfl
    rw [single, Effect.bind_ok h]
    rfl
  constructor
  · intro m m' σ r p q hst hh hk hr hv hw
    obtain ⟨hb, hp⟩ : b < r.boxes.size ∧ Means L _ m.temps.size m' (r.box b) p := by
      cases hv with
      | box hb hp => exact ⟨hb, hp⟩
    obtain ⟨p', σ', hwrite, holds, means⟩ := hp.write (hh.note id) (w.scalar r m')
    refine ⟨r, _, p', σ', run (hw.perform_store b), ?_, .refl r, hr, stack_write.trans hst, holds,
      hp.keeps_write hk _, .box hb means⟩
    rw [Meaning.execute_bind, ← hw.scalar_eq (hh.note id)]
    exact hwrite
  · intro m σ r e hf hdrift hr aims hA
    have stored := aims.stored fun s hs => hA s (hO σ s hs)
    rcases w.perform_store b r m with h | h
    · exact ⟨r, m, run h, hf, hdrift, .refl r, hr, stored⟩
    · exact ⟨r, _, run h, (fault_write m _ _).trans hf, hdrift.write (fun s => stored s b rfl) _,
        .refl r, hr, stored⟩

theorem realizes_negation {s : Slot} (h : Realizes L A O callBack l Yl u code v u₁) :
    Realizes L A O callBack (node id ⟨.negate, some s, false⟩ [l]) Y u
      (code ++ (v.load ++ [.negate (v.register u₁)])) (.float (v.loaded u₁).floats)
      (v.loaded u₁).float := by
  have below : l.targets ⊆ (node id ⟨.negate, some s, false⟩ [l]).targets :=
    targets_kid List.mem_cons_self
  have noBox : ∀ b, Operand.float (v.loaded u₁).floats ≠ .box b := fun _ => Operand.noConfusion
  constructor
  · intro m σ r₀ hh hw hd hr₀
    rw [performAll_append]
    refine (h.tracks m σ r₀ hh hw (Layout.Suits.done_kid hd (by simp)) hr₀).bind ?_ ?_
    · intro r₁ m₁ p σ₁ hp operand
      obtain ⟨r₂, hrun, grows, sized, value⟩ :=
        Operand.performAll_negate callBack v operand.sized m₁
      rw [hrun]
      refine .ok ⟨.of_float noBox (operand.grows.trans grows) sized, operand.stack,
        operand.holds.note id, operand.keeps.mono below, ?_⟩
      rw [operand.stands.scalar_eq (operand.holds.note id)] at value
      rw [← value]
      exact .float (by rw [sized.floats]; exact Nat.lt_succ_self _)
    · intro r₁ m₁ e σ₁ hp hf hdrift operand
      obtain ⟨r₂, hrun, grows, sized, -⟩ := Operand.performAll_negate callBack v operand.sized m₁
      exact ⟨r₂, m₁, hrun, hf, hdrift, .of_float noBox (operand.grows.trans grows) sized⟩
  · intro m σ r₀ e hf hdrift hr₀ hlast hlater
    have kid : l ∈ (node id ⟨.negate, some s, false⟩ [l]).subtrees := subtrees_of_kid (by simp)
    obtain ⟨r₁, m₁, hrun₁, hf₁, drift₁, operand⟩ := h.late m σ r₀ e hf hdrift hr₀
      (fun halts => hlast (halts.of_subtree kid)) fun N hN => hlater N (subtrees_trans hN kid)
    obtain ⟨r₂, hrun₂, grows, sized, -⟩ := Operand.performAll_negate callBack v operand.sized m₁
    refine ⟨r₂, m₁, ?_, hf₁, drift₁, .of_float noBox (operand.grows.trans grows) sized⟩
    rw [performAll_append, Effect.bind_ok hrun₁, hrun₂]

end Code

/-! ### Call-backs -/

section CallBacks

variable {L : Layout} {A : Store → Slot → Prop} {O : Store → HostTree → Slot → Prop}
  {Y : Slot → Prop} {callBack : OpId → MachineM Unit} {T k : HostTree} {m : Machine} {σ : Store}

theorem Machine.above_eq {x : MachineM Unit} (h : m.fault = none) :
    above x m = (do x; modify fun m' : Machine => m'.leave m.enter.1) m.enter.2 := by
  have on : unlessFailed x m.enter.2 = x m.enter.2 := by
    unfold unlessFailed
    rw [Effect.get_bind, if_neg (by simp [enter, h])]
  show (unlessFailed x >>= _) m.enter.2 = _
  cases hx : x m.enter.2 with
  | ok a m' =>
    rw [Effect.bind_ok (on.trans hx), Effect.bind_ok hx]
    rfl
  | error e m' => rw [Effect.bind_error (on.trans hx), Effect.bind_error hx]

/-- After a fault a call-back does nothing. -/
theorem Machine.above_of_fault {x : MachineM Unit} {f : Fault} (h : m.fault = some f) :
    above x m = .ok () m := by
  have off : unlessFailed x m.enter.2 = .ok () m.enter.2 := by
    unfold unlessFailed
    rw [Effect.get_bind, if_pos (by simp [enter, h])]
    rfl
  show (unlessFailed x >>= _) m.enter.2 = _
  rw [Effect.bind_ok off]
  rfl

/-- A fragment above floors of its own leaves what it would leave without them. -/
theorem Leaves.leave {m' : Machine} {ts : List Slot} {x : Ref} {p : Place}
    (h : Leaves L ts m.enter.2 m' σ x p) (hf : m.stackFloor ≤ m.stack.length) :
    Leaves L ts m (m'.leave m.enter.1) σ x p where
  stack := h.stack
  holds := by
    refine ⟨⟨h.holds.size, h.holds.vars, h.holds.saves⟩, h.holds.fault, ?_⟩
    show m.stackFloor ≤ m'.stack.length
    rw [h.stack]
    exact Nat.le_succ_of_le hf
  keeps := ⟨rfl, rfl, h.keeps.pad, h.keeps.size, h.keeps.temps⟩
  means := by
    cases h.means with
    | var hv hi => exact .var hv hi
    | slot hs hv hi => exact .slot hs hv hi
    | temp hl hi => exact .temp hl hi

/-- **A call-back has the meaning of the fragment that it runs.** -/
theorem tracks_above (hk : Computes L (Waiting L) (Drifts L A) T k.run.erase) (hh : Holds L σ m)
    (hw : Waiting L σ.held m.stack) (hd : σ.done.Disjoint T.ids) :
    Tracks (Drifts L A) (fun _ m' p σ' => ∃ x, Leaves L T.targets m m' σ' x p) (fun _ _ => True)
      (above (Traced.settle k.run).erase m) (T.meaning σ) := by
  have entered : Holds L σ m.enter.2 :=
    ⟨⟨hh.size, hh.vars, hh.saves⟩, hh.fault, Nat.le_refl _⟩
  have mimics := hk m.enter.2 σ entered hw hd
  have steady := steady_run k m.enter.2 hh.fault
  rw [above_eq hh.fault]
  rcases hrun : k.run m.enter.2 with ⟨l, R⟩
  have run : k.run.erase m.enter.2 = R := congrArg Prod.snd hrun
  rw [run] at mimics steady
  generalize T.meaning σ = D at mimics
  cases mimics with
  | @ok _ m' _ _ hq =>
    obtain ⟨x, leaves⟩ := hq
    have settled : (Traced.settle k.run).erase m.enter.2 = .ok () m' :=
      congrArg Prod.snd (Traced.settle_of_ok hrun)
    rw [Effect.bind_ok settled]
    exact .ok ⟨x, leaves.leave hh.floor⟩
  | @error h m' _ he =>
    cases h with
    | fault f =>
      have settled : (Traced.settle k.run).erase m.enter.2 = .ok () (m'.fail f) :=
        congrArg Prod.snd (Traced.settle_of_fault hrun)
      rw [Effect.bind_ok settled]
      exact .failed (steady.2 f rfl) (he.congr rfl rfl (List.Subset.refl _)) trivial
    | overflow =>
      have settled : (Traced.settle k.run).erase m.enter.2 = .error .overflow m' := by
        show (Traced.settle k.run m.enter.2).2 = _
        simp only [Traced.settle, hrun]
      rw [Effect.bind_error settled]
      exact .error he
    | outOfFuel => exact absurd rfl steady.1

theorem Machine.perform_pop {x : Ref} {st : List Ref} (r : Registers) (hst : m.stack = x :: st)
    (hf : m.stackFloor ≤ st.length) :
    perform r .pop m = .ok (r.withBox x) { m with stack := st } := by
  simp only [perform]
  rw [Effect.get_bind]
  simp only [pop?, top?_eq hst hf, hst]
  rfl

/-- After a fault a box that was left on the stack is taken, or a fresh one. -/
theorem Machine.perform_pop_of_fault {f : Fault} (r : Registers) (h : m.fault = some f) :
    ∃ x m', perform r .pop m = .ok (r.withBox x) m' ∧ m'.pad = m.pad ∧ m'.saves = m.saves ∧
      m'.stack ⊆ m.stack ∧ m'.fault = some f ∧ ∀ s, x = .pad s → .pad s ∈ m.stack := by
  simp only [perform]
  rw [Effect.get_bind]
  unfold pop?
  cases htop : m.top? with
  | some x =>
    have head : m.stack.head? = some x := by
      unfold top? at htop
      split at htop
      · cases htop
      · exact htop
    exact ⟨x, _, rfl, rfl, rfl, fun _ => List.mem_of_mem_tail, h, fun s hs => hs ▸ List.mem_of_head? head⟩
  | none =>
    exact ⟨_, _, rfl, rfl, rfl, List.Subset.refl _, by simp [fail, h], fun s hs => by cases hs⟩

/-- **A term that is handed over.** -/
theorem realizes_handed {u : Usage} (hY : ∀ s, ¬ Y s)
    (hcall : callBack T.root = above (Traced.settle k.run).erase)
    (hk : Computes L (Waiting L) (Drifts L A) T k.run.erase) :
    Realizes L A O callBack T Y u [.call T.root, .pop] (.box u.boxes) u.box := by
  have code : ∀ r, performAll callBack [.call T.root, .pop] r = (do
      above (Traced.settle k.run).erase
      performAll callBack [] (← perform r .pop)) := fun r => by
    simp only [performAll, hcall]
  have settles : ∀ {r : Registers} {x : Ref}, r.Sized u →
      Settles Y r (r.withBox x) u.box (.box u.boxes) := fun hr =>
    ⟨Registers.grows_withBox _, hr.withBox _, fun b hb => by cases hb; exact (hr.box_withBox _).1,
      fun s _ hs => absurd hs (hY s)⟩
  have late : ∀ {r : Registers} {x : Ref} {m : Machine} {σ : Store}, r.Sized u → Drifts L A σ m →
      (∀ s, x = .pad s → .pad s ∈ m.stack) →
      Late L A T Y r (r.withBox x) u.box (.box u.boxes) σ := by
    refine fun hr hdrift left => ⟨settles hr, fun s b hb hs hv => .inr ?_⟩
    cases hb
    rw [(hr.box_withBox _).2] at hs
    exact (hdrift.stack s hv (left s hs)).imp_left fun held => ⟨hY, held⟩
  constructor
  · intro m σ r hh hw hd hr
    have whole : T.meaning = T.meaning >>= pure := (bind_pure _).symm
    rw [code, whole]
    refine (tracks_above hk hh hw hd).bind ?_ ?_
    · rintro - m' p σ' - ⟨x, leaves⟩
      have floor : m'.stackFloor ≤ m.stack.length := by rw [leaves.keeps.stackFloor]; exact hh.floor
      rw [Effect.bind_ok (perform_pop r leaves.stack floor)]
      refine .ok ⟨settles hr, rfl, leaves.holds.stack floor, leaves.keeps.stack, .box ?_ ?_⟩
      · exact (hr.box_withBox x).1
      · rw [(hr.box_withBox x).2]
        exact leaves.means.stack
    · rintro - m' f σ' - hf hdrift -
      obtain ⟨x, m'', hpop, hpad, hsaves, hst, hfault, left⟩ := perform_pop_of_fault r hf
      refine ⟨r.withBox x, m'', ?_, hfault, hdrift.congr hpad hsaves hst, late hr hdrift left⟩
      rw [Effect.bind_ok hpop]
      rfl
  · intro m σ r f hf hdrift hr _ _
    obtain ⟨x, m'', hpop, hpad, hsaves, hst, hfault, left⟩ := perform_pop_of_fault r hf
    refine ⟨r.withBox x, m'', ?_, hfault, hdrift.congr hpad hsaves hst, late hr hdrift left⟩
    rw [code, Effect.bind_ok (above_of_fault hf), Effect.bind_ok hpop]
    rfl

/-- Call-backs have the meanings of what was handed over. -/
def CallsBack (L : Layout) (A : Store → Slot → Prop) (callBack : OpId → MachineM Unit)
    (hs : List (Term × HostTree)) : Prop :=
  ∀ q ∈ hs, ∃ k : HostTree, callBack q.2.root = above (Traced.settle k.run).erase ∧
    Computes L (Waiting L) (Drifts L A) q.2 k.run.erase

theorem CallsBack.of_append {hs hs' : List (Term × HostTree)}
    (h : CallsBack L A callBack (hs ++ hs')) :
    CallsBack L A callBack hs ∧ CallsBack L A callBack hs' := List.forall_mem_append.mp h

/-- **What is asked of a term and its tree**, so that the code of the term has the meaning of the
tree: `O` has the assignments that have code, and `A` what they may store to after a fault. -/
structure Realizable (scope : Scope) (L : Layout) (A : Store → Slot → Prop)
    (O : Store → HostTree → Slot → Prop) (t : Term) (T : HostTree) : Prop where
  mirrors : ∃ c, Mirrors scope c t T
  suits : L.Suits T
  covers : Covers A O T
  codes : ∀ σ N s, t.Codes scope σ N s → O σ N s

/-- The same holds of the operands, if there is code for the operator. -/
theorem Realizable.kids {scope : Scope} {t : Term} (h : Realizable scope L A O t T)
    (hc : t.isCompilable scope = true) : List.Forall₂ (Realizable scope L A O) t.kids T.kids := by
  obtain ⟨c, mirrors⟩ := h.mirrors
  obtain ⟨same, kids⟩ := List.forall₂_iff_zip.mp mirrors.kids
  refine List.forall₂_iff_zip.mpr ⟨same, fun {k K} mem => ?_⟩
  obtain ⟨hk, hK⟩ := List.of_mem_zip mem
  exact {
    mirrors := ⟨_, kids mem⟩
    suits := by
      cases T with
      | node id f ks => exact h.suits.kid hK
    covers := h.covers.subtree (subtrees_of_kid hK)
    codes := fun σ N s coded => h.codes σ N s (coded.of_kid hc hk) }

/-- **The code of a term has the meaning of its tree**, if call-backs have the meanings of what was
handed over.

The operands come before the instruction of their operator, so it is enough to say of each operator
what its instruction does where the registers hold the values of its operands.  The box of a left
operand may be stored to while the right one is computed, and is read after that; this is as it is
on the stack of the interpreter. -/
theorem Lowers.realizes {scope : Scope} {t : Term} {u u' : Usage} {code : List Instr}
    {hs : List (Term × HostTree)} {v : Operand} (h : Lowers scope t T u code hs v u')
    (ht : Realizable scope L A O t T) (hcall : CallsBack L A callBack hs) :
    Realizes L A O callBack T (t.Targets scope) u code v u' := by
  induction h with
  | double x => exact realizes_double x
  | int i => exact realizes_int i
  | uint w => exact realizes_uint w
  | lexical hd => exact realizes_lexical ht.suits fun s => Term.Targets.lexical_iff hd
  | declaration hd => exact realizes_declaration ht.suits fun s => Term.Targets.declaration_iff hd
  | negation hc _ ih =>
    obtain _ | ⟨operand, -⟩ := ht.kids hc
    exact realizes_negation (ih operand hcall)
  | binary hc hop _ _ ihl ihr =>
    obtain _ | ⟨left, _ | ⟨right, -⟩⟩ := ht.kids hc
    obtain ⟨calls, calls'⟩ := hcall.of_append
    exact (ihl left calls).operands (ihr right calls') finishes_binary (fun _ hb => by cases hb)
      ht.suits ht.covers rfl
  | assigning hc hop _ _ ihl ihr =>
    obtain _ | ⟨left, _ | ⟨right, -⟩⟩ := ht.kids hc
    obtain ⟨calls, calls'⟩ := hcall.of_append
    refine (ihl left calls).operands (ihr right calls') (finishes_assigning fun σ s hs => ?_)
      (fun _ hb => ⟨hb, fun _ => Term.Targets.left⟩) ht.suits ht.covers rfl
    obtain ⟨_, mirrorsl⟩ := left.mirrors
    obtain ⟨_, mirrorsr⟩ := right.mirrors
    exact ht.codes σ _ s
      ⟨_, .self hc, ht.mirrors, _, _, _, _, _, rfl, .inr rfl, hs.mirrored mirrorsl mirrorsr⟩
  | assign hc _ _ ihl ihr =>
    obtain _ | ⟨left, _ | ⟨right, -⟩⟩ := ht.kids hc
    obtain ⟨calls, calls'⟩ := hcall.of_append
    refine (ihl left calls).operands (ihr right calls') (finishes_assign fun σ s hs => ?_)
      (fun _ hb => ⟨hb, fun _ => Term.Targets.left⟩) ht.suits ht.covers rfl
    obtain ⟨_, mirrorsl⟩ := left.mirrors
    obtain ⟨_, mirrorsr⟩ := right.mirrors
    exact ht.codes σ _ s
      ⟨_, .self hc, ht.mirrors, _, _, _, _, _, rfl, .inl rfl, hs.mirrored mirrorsl mirrorsr⟩
  | @handed t T u _ hc =>
    obtain ⟨k, hroot, hk⟩ := hcall (t, T) (by simp)
    refine realizes_handed (fun s hs => ?_) hroot hk
    -- only a compilable term has a variable as its target
    have taken := hs.isCompilable
    rw [hc] at taken
    cases taken

end CallBacks

end Graft
