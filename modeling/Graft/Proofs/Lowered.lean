import Graft.Proofs.Mirror

/-! # Lowered terms

What lowering makes of a term that was read from a tree of ops.  `Lowers` lists the cases: the
code that is appended, the terms that are handed over with their trees, where the value is, and
how many registers are in use before and after.  All that is said later about the code of a unit
and about its fragments is read off these cases.

The lowering is a computation on drafts; `Lowers` has no drafts, and its cases follow the tree.
That a lowering which succeeds is one of them is proved once, by induction over the term
(`Lowering.term_lowered`), and what the computation appends to a draft, and to which one, is not
looked at again.  Registers are counted by the two numbers of a `Usage`, since code names them by
position: the code of an operand is the same wherever it stands, but for where its registers begin.

Going down from a term through operators that the compiler has code for, one meets exactly
the terms that are handed over (`Lowers.carves`).  So the fragments of a unit are those that the
edits of its batch take out of the tree, in the same order.
-/

namespace Graft

/-- The numbers of registers in use. -/
structure Usage where
  boxes : Nat
  floats : Nat

namespace Usage

def box (u : Usage) : Usage := { u with boxes := u.boxes + 1 }

def float (u : Usage) : Usage := { u with floats := u.floats + 1 }

end Usage

/-- Of the arithmetic of the host, the compiler has code for that on doubles. -/
theorem Operator.floatOp_of_catalogued {c : Operator} {a : Arithmetic} (hc : c.isCatalogued = true)
    (ha : c.arithmetic? = some a) :
    ∃ op, c.floatOp? = some op ∧ a = .float op ∧ c.traits.assigning = true := by
  cases c <;> cases hc <;> cases ha <;> exact ⟨_, rfl, rfl, rfl⟩

namespace Operand

/-- The code that makes a value a double. -/
def load : Operand → List Instr
  | float _ => []
  | int i => [.const i.toFloat]
  | uint u => [.const u.toFloat]
  | box b => [.number b false]

/-- The register of the double. -/
def register (u : Usage) : Operand → Nat
  | float r => r
  | _ => u.floats

/-- The registers in use when the value is a double. -/
def loaded (u : Usage) : Operand → Usage
  | float _ => u
  | _ => u.float

/-- The instruction that stores a value. -/
def store (target : Nat) : Operand → Instr
  | float r => .storeNum target r
  | int i => .storeInt target i
  | uint u => .storeUInt target u
  | box b => .copy target b

end Operand

open HostTree

/-- **What lowering makes of a term.** -/
inductive Lowers (scope : Scope) : Term → HostTree → Usage → List Instr → List (Term × HostTree) →
    Operand → Usage → Prop where
  | double {a : Attributes} {id : OpId} {u : Usage} (x : Float) :
      Lowers scope (.leaf a (.constant (.double x))) (node id ⟨.const (.num x), none, false⟩ []) u
        [.const x] [] (.float u.floats) u.float
  | int {a : Attributes} {id : OpId} {u : Usage} (i : Int64) :
      Lowers scope (.leaf a (.constant (.int i))) (node id ⟨.const (.int i), none, false⟩ []) u
        [] [] (.int i) u
  | uint {a : Attributes} {id : OpId} {u : Usage} (w : UInt64) :
      Lowers scope (.leaf a (.constant (.uint w))) (node id ⟨.const (.uint w), none, false⟩ []) u
        [] [] (.uint w) u
  | lexical {a : Attributes} {id : OpId} {u : Usage} {d : DeclId} {v : Declaration} :
      scope.get? d = some v →
      Lowers scope (.leaf a (.lexical d)) (node id ⟨.lexical v.slot false, none, false⟩ []) u
        [.pad v.slot] [] (.box u.boxes) u.box
  | declaration {a : Attributes} {id : OpId} {u : Usage} {d : DeclId} {v : Declaration} :
      scope.get? d = some v →
      Lowers scope (.leaf a (.declaration d)) (node id ⟨.lexical v.slot true, none, false⟩ []) u
        [.clear v.slot, .pad v.slot] [] (.box u.boxes) u.box
  | negation {a : Attributes} {id : OpId} {s : Slot} {u u₁ : Usage} {t : Term} {T : HostTree}
      {code : List Instr} {hs : List (Term × HostTree)} {v : Operand} :
      (Term.op a .negate false [t]).isCompilable scope = true → Lowers scope t T u code hs v u₁ →
      Lowers scope (.op a .negate false [t]) (node id ⟨.negate, some s, false⟩ [T]) u
        (code ++ (v.load ++ [.negate (v.register u₁)])) hs (.float (v.loaded u₁).floats)
        (v.loaded u₁).float
  | binary {a : Attributes} {id : OpId} {s : Slot} {op : FloatOp} {c : Operator} {u u₁ u₂ : Usage}
      {l r : Term} {L R : HostTree} {code code' : List Instr} {hs hs' : List (Term × HostTree)}
      {v w : Operand} :
      (Term.op a c false [l, r]).isCompilable scope = true → c.floatOp? = some op →
      Lowers scope l L u code hs v u₁ → Lowers scope r R u₁ code' hs' w u₂ →
      Lowers scope (.op a c false [l, r]) (node id ⟨.arith (.float op), some s, false⟩ [L, R]) u
        (code ++ (code' ++ (v.load ++ (w.load ++
          [.combine op (v.register u₂) (w.register (v.loaded u₂))])))) (hs ++ hs')
        (.float (w.loaded (v.loaded u₂)).floats) (w.loaded (v.loaded u₂)).float
  | assigning {a : Attributes} {id : OpId} {op : FloatOp} {c : Operator} {u u₁ u₂ : Usage}
      {l r : Term} {L R : HostTree} {code code' : List Instr} {hs hs' : List (Term × HostTree)}
      {b : Nat} {w : Operand} :
      (Term.op a c true [l, r]).isCompilable scope = true → c.floatOp? = some op →
      Lowers scope l L u code hs (.box b) u₁ → Lowers scope r R u₁ code' hs' w u₂ →
      Lowers scope (.op a c true [l, r]) (node id ⟨.arith (.float op), none, true⟩ [L, R]) u
        (code ++ (code' ++ (.number b false :: (w.load ++
          [.combine op u₂.floats (w.register u₂.float), .storeNum b (w.loaded u₂.float).floats]))))
        (hs ++ hs') (.box b) (w.loaded u₂.float).float
  | assign {a : Attributes} {id : OpId} {u u₁ u₂ : Usage} {l r : Term} {L R : HostTree}
      {code code' : List Instr} {hs hs' : List (Term × HostTree)} {b : Nat} {w : Operand} :
      (Term.op a .assign false [l, r]).isCompilable scope = true →
      Lowers scope l L u code hs (.box b) u₁ → Lowers scope r R u₁ code' hs' w u₂ →
      Lowers scope (.op a .assign false [l, r]) (node id ⟨.assign, none, false⟩ [L, R]) u
        (code ++ (code' ++ [w.store b])) (hs ++ hs') (.box b) u₂
  | handed {t : Term} {T : HostTree} {u : Usage} :
      Mirrors scope .scalar t T → t.isCompilable scope = false →
      Lowers scope t T u [.call T.root, .pop] [(t, T)] (.box u.boxes) u.box

namespace Lowers

variable {scope : Scope} {t : Term} {T : HostTree} {u u' : Usage} {code : List Instr}
  {hs : List (Term × HostTree)} {v : Operand}

/-- What is handed over was read from ops, and there is no code for it. -/
theorem handed_mirrors (h : Lowers scope t T u code hs v u') :
    ∀ p ∈ hs, Mirrors scope .scalar p.1 p.2 ∧ p.1.isCompilable scope = false := by
  induction h with
  | double => simp
  | int => simp
  | uint => simp
  | lexical => simp
  | declaration => simp
  | negation _ _ ih => exact ih
  | binary _ _ _ _ ihl ihr => exact fun p hp => (List.mem_append.mp hp).elim (ihl p) (ihr p)
  | assigning _ _ _ _ ihl ihr => exact fun p hp => (List.mem_append.mp hp).elim (ihl p) (ihr p)
  | assign _ _ _ ihl ihr => exact fun p hp => (List.mem_append.mp hp).elim (ihl p) (ihr p)
  | handed ht hc => simpa using ⟨ht, hc⟩

/-- **What is handed over are the trees met going down from the op.** -/
theorem carves (h : Lowers scope t T u code hs v u') :
    Carves [T] (hs.map Prod.snd) ∧
      (t.isCompilable scope = true → Carves T.kids (hs.map Prod.snd)) := by
  -- with code of its own the op is left as a stem
  have stem : ∀ {T : HostTree} {fs : List HostTree}, Carves T.kids fs → Carves [T] fs := by
    intro T fs h
    cases T with
    | node id f ks =>
      have whole : Carves [node id f ks] (fs ++ []) := .stem h .nil
      rwa [List.append_nil] at whole
  induction h with
  | double => exact ⟨stem .nil, fun _ => .nil⟩
  | int => exact ⟨stem .nil, fun _ => .nil⟩
  | uint => exact ⟨stem .nil, fun _ => .nil⟩
  | lexical => exact ⟨stem .nil, fun _ => .nil⟩
  | declaration => exact ⟨stem .nil, fun _ => .nil⟩
  | negation _ _ ih => exact ⟨stem ih.1, fun _ => ih.1⟩
  | binary _ _ _ _ ihl ihr =>
    rw [List.map_append]
    have both := ihl.1.append ihr.1
    exact ⟨stem both, fun _ => both⟩
  | assigning _ _ _ _ ihl ihr =>
    rw [List.map_append]
    have both := ihl.1.append ihr.1
    exact ⟨stem both, fun _ => both⟩
  | assign _ _ _ ihl ihr =>
    rw [List.map_append]
    have both := ihl.1.append ihr.1
    exact ⟨stem both, fun _ => both⟩
  | handed ht hc => exact ⟨.whole .nil, fun h => by simp [hc] at h⟩

end Lowers

/-! ### What a draft grows by -/

namespace Draft

def usage (d : Draft) : Usage := ⟨d.boxes, d.floats⟩

/-- The code and the terms that have been added to a draft. -/
structure Grows (d : Draft) (code : List Instr) (hs : List (Term × HostTree)) (d' : Draft) : Prop where
  code : d'.code = d.code ++ code
  handovers : d'.handovers = d.handovers ++ hs.map fun h => ⟨h.1, h.1.detachment⟩

theorem Grows.refl (d : Draft) : Grows d [] [] d := ⟨by simp, by simp⟩

theorem Grows.trans {d d₁ d₂ : Draft} {code code' : List Instr} {hs hs' : List (Term × HostTree)}
    (h : Grows d code hs d₁) (h' : Grows d₁ code' hs' d₂) : Grows d (code ++ code') (hs ++ hs') d₂ :=
  ⟨by rw [h'.code, h.code, List.append_assoc],
    by rw [h'.handovers, h.handovers, List.map_append, List.append_assoc]⟩

/-- Code is added, and no term. -/
theorem Grows.emit {d d₁ d₂ : Draft} {code code' : List Instr} {hs : List (Term × HostTree)}
    (h : Grows d code hs d₁) (h' : Grows d₁ code' [] d₂) : Grows d (code ++ code') hs d₂ := by
  simpa using h.trans h'

end Draft

namespace Lowering

variable {scope : Scope} {d d' : Draft}

theorem emit_eq_ok {i : Instr} {x : Unit} (h : emit i d = .ok x d') :
    d.Grows [i] [] d' ∧ d'.usage = d.usage := by
  cases h
  exact ⟨⟨rfl, by simp⟩, rfl⟩

theorem emitBox_eq_ok {i : Instr} {r : Nat} (h : emitBox i d = .ok r d') :
    r = d.usage.boxes ∧ d.Grows [i] [] d' ∧ d'.usage = d.usage.box := by
  cases h
  exact ⟨rfl, ⟨rfl, by simp⟩, rfl⟩

theorem emitFloat_eq_ok {i : Instr} {r : Nat} (h : emitFloat i d = .ok r d') :
    r = d.usage.floats ∧ d.Grows [i] [] d' ∧ d'.usage = d.usage.float := by
  cases h
  exact ⟨rfl, ⟨rfl, by simp⟩, rfl⟩

theorem toFloat_eq_ok {v : Operand} {r : Nat} (h : toFloat (some v) d = .ok r d') :
    r = v.register d.usage ∧ d.Grows v.load [] d' ∧ d'.usage = v.loaded d.usage := by
  cases v with
  | float r => cases h; exact ⟨rfl, .refl d, rfl⟩
  | int i => exact emitFloat_eq_ok h
  | uint w => exact emitFloat_eq_ok h
  | box b => exact emitFloat_eq_ok h

theorem toTarget_eq_ok {v : Option Operand} {b : Nat} (h : toTarget v d = .ok b d') :
    v = some (.box b) ∧ d = d' := by
  rcases v with _ | _ | _ | _ | b
  case some.box => cases h; exact ⟨rfl, rfl⟩
  all_goals cases h

theorem store_eq_ok {b : Nat} {v : Operand} {x : Unit} (h : store b v d = .ok x d') :
    d.Grows [v.store b] [] d' ∧ d'.usage = d.usage := by
  cases v <;> exact emit_eq_ok h

/-- What lowering a term that has a value does to a draft. -/
def Lowered (scope : Scope) (t : Term) (T : HostTree) (d : Draft) (v : Option Operand)
    (d' : Draft) : Prop :=
  ∃ w code hs, v = some w ∧ Lowers scope t T d.usage code hs w d'.usage ∧ d.Grows code hs d'

theorem constant_lowered {a : Attributes} {id : OpId} {k : Constant} {v : Option Operand}
    (h : constant k d = .ok v d') :
    Lowered scope (.leaf a (.constant k)) (node id ⟨.const k.scalar, none, false⟩ []) d v d' := by
  cases k with
  | double x =>
    obtain ⟨r, d₁, hr, h⟩ := Effect.bind_eq_ok.mp h
    obtain ⟨rfl, grows, usage⟩ := emitFloat_eq_ok hr
    cases h
    exact ⟨_, _, _, rfl, usage ▸ .double x, grows⟩
  | int i => cases h; exact ⟨_, _, _, rfl, .int i, .refl d⟩
  | uint w => cases h; exact ⟨_, _, _, rfl, .uint w, .refl d⟩
  | str s => cases h
  | undefined => cases h

theorem lexical_lowered {a : Attributes} {id : OpId} {n : DeclId} {decl : Declaration}
    {v : Option Operand} (hn : scope.get? n = some decl)
    (h : variableBox scope n false d = .ok v d') :
    Lowered scope (.leaf a (.lexical n)) (node id ⟨.lexical decl.slot false, none, false⟩ []) d v
      d' := by
  unfold variableBox at h
  rw [hn] at h
  obtain ⟨_, d₁, hclear, h⟩ := Effect.bind_eq_ok.mp h
  cases hclear
  obtain ⟨r, d₂, hr, h⟩ := Effect.bind_eq_ok.mp h
  obtain ⟨rfl, grows, usage⟩ := emitBox_eq_ok hr
  cases h
  exact ⟨_, _, _, rfl, usage ▸ .lexical hn, grows⟩

theorem declaration_lowered {a : Attributes} {id : OpId} {n : DeclId} {decl : Declaration}
    {v : Option Operand} (hn : scope.get? n = some decl)
    (h : variableBox scope n true d = .ok v d') :
    Lowered scope (.leaf a (.declaration n)) (node id ⟨.lexical decl.slot true, none, false⟩ []) d v
      d' := by
  unfold variableBox at h
  rw [hn] at h
  obtain ⟨_, d₁, hclear, h⟩ := Effect.bind_eq_ok.mp h
  obtain ⟨grows₁, usage₁⟩ := emit_eq_ok hclear
  obtain ⟨r, d₂, hr, h⟩ := Effect.bind_eq_ok.mp h
  obtain ⟨rfl, grows, usage⟩ := emitBox_eq_ok hr
  cases h
  rw [usage₁] at usage ⊢
  exact ⟨_, _, _, rfl, usage ▸ .declaration hn, grows₁.emit grows⟩

theorem negation_lowered {a : Attributes} {id : OpId} {s : Slot} {t : Term} {T : HostTree}
    {v : Option Operand} (hc : (Term.op a .negate false [t]).isCompilable scope = true)
    (ht : ∀ d v d', term scope t d = .ok v d' → Lowered scope t T d v d')
    (h : negation (term scope t) d = .ok v d') :
    Lowered scope (.op a .negate false [t]) (node id ⟨.negate, some s, false⟩ [T]) d v d' := by
  obtain ⟨_, d₁, hterm, h⟩ := Effect.bind_eq_ok.mp h
  obtain ⟨w, code, hs, rfl, lowers, grows⟩ := ht _ _ _ hterm
  obtain ⟨x, d₂, hx, h⟩ := Effect.bind_eq_ok.mp h
  obtain ⟨rfl, grows₁, usage₁⟩ := toFloat_eq_ok hx
  obtain ⟨z, d₃, hz, h⟩ := Effect.bind_eq_ok.mp h
  obtain ⟨rfl, grows₂, usage₂⟩ := emitFloat_eq_ok hz
  cases h
  rw [usage₁] at usage₂ ⊢
  exact ⟨_, _, _, rfl, usage₂ ▸ .negation hc lowers, grows.emit (grows₁.emit grows₂)⟩

section Binary

variable {a : Attributes} {id : OpId} {l r : Term} {L R : HostTree} {v : Option Operand}

theorem binary_lowered {s : Slot} {op : FloatOp} {c : Operator}
    (ht : (Term.op a c false [l, r]).isCompilable scope = true) (hc : c.floatOp? = some op)
    (hl : ∀ d v d', term scope l d = .ok v d' → Lowered scope l L d v d')
    (hr : ∀ d v d', term scope r d = .ok v d' → Lowered scope r R d v d')
    (h : binary op false (term scope l) (term scope r) d = .ok v d') :
    Lowered scope (.op a c false [l, r]) (node id ⟨.arith (.float op), some s, false⟩ [L, R]) d v
      d' := by
  obtain ⟨_, d₁, hleft, h⟩ := Effect.bind_eq_ok.mp h
  obtain ⟨v₁, code, hs, rfl, left, grows⟩ := hl _ _ _ hleft
  obtain ⟨_, d₂, hright, h⟩ := Effect.bind_eq_ok.mp h
  obtain ⟨v₂, code', hs', rfl, right, grows'⟩ := hr _ _ _ hright
  obtain ⟨x, d₃, hx, h⟩ := Effect.bind_eq_ok.mp h
  obtain ⟨rfl, grows₁, usage₁⟩ := toFloat_eq_ok hx
  obtain ⟨y, d₄, hy, h⟩ := Effect.bind_eq_ok.mp h
  obtain ⟨rfl, grows₂, usage₂⟩ := toFloat_eq_ok hy
  obtain ⟨z, d₅, hz, h⟩ := Effect.bind_eq_ok.mp h
  obtain ⟨rfl, grows₃, usage₃⟩ := emitFloat_eq_ok hz
  cases h
  rw [usage₁] at usage₂ grows₃
  rw [usage₂] at usage₃ ⊢
  exact ⟨_, _, _, rfl, usage₃ ▸ .binary ht hc left right,
    grows.trans (grows'.emit (grows₁.emit (grows₂.emit grows₃)))⟩

theorem assigning_lowered {op : FloatOp} {c : Operator}
    (ht : (Term.op a c true [l, r]).isCompilable scope = true) (hc : c.floatOp? = some op)
    (hl : ∀ d v d', term scope l d = .ok v d' → Lowered scope l L d v d')
    (hr : ∀ d v d', term scope r d = .ok v d' → Lowered scope r R d v d')
    (h : binary op true (term scope l) (term scope r) d = .ok v d') :
    Lowered scope (.op a c true [l, r]) (node id ⟨.arith (.float op), none, true⟩ [L, R]) d v
      d' := by
  obtain ⟨_, d₁, hleft, h⟩ := Effect.bind_eq_ok.mp h
  obtain ⟨v₁, code, hs, rfl, left, grows⟩ := hl _ _ _ hleft
  obtain ⟨_, d₂, hright, h⟩ := Effect.bind_eq_ok.mp h
  obtain ⟨v₂, code', hs', rfl, right, grows'⟩ := hr _ _ _ hright
  obtain ⟨x, d₃, hx, h⟩ := Effect.bind_eq_ok.mp h
  obtain ⟨rfl, grows₁, usage₁⟩ := toFloat_eq_ok hx
  obtain ⟨y, d₄, hy, h⟩ := Effect.bind_eq_ok.mp h
  obtain ⟨rfl, grows₂, usage₂⟩ := toFloat_eq_ok hy
  obtain ⟨z, d₅, hz, h⟩ := Effect.bind_eq_ok.mp h
  obtain ⟨rfl, grows₃, usage₃⟩ := emitFloat_eq_ok hz
  obtain ⟨b, d₆, hb, hrest⟩ := Effect.bind_eq_ok.mp h
  obtain ⟨hbox, rfl⟩ := toTarget_eq_ok hb
  obtain rfl := Option.some.inj hbox
  obtain ⟨_, d₇, hstore, hrest⟩ := Effect.bind_eq_ok.mp hrest
  obtain ⟨grows₄, usage₄⟩ := emit_eq_ok hstore
  cases hrest
  rw [usage₁] at usage₂ grows₃
  rw [usage₂] at usage₃ grows₄
  rw [usage₃] at usage₄
  exact ⟨_, _, _, rfl, usage₄ ▸ .assigning ht hc left right,
    grows.trans (grows'.emit (grows₁.emit (grows₂.emit (grows₃.emit grows₄))))⟩

theorem assignment_lowered (ht : (Term.op a .assign false [l, r]).isCompilable scope = true)
    (hl : ∀ d v d', term scope l d = .ok v d' → Lowered scope l L d v d')
    (hr : ∀ d v d', term scope r d = .ok v d' → Lowered scope r R d v d')
    (h : assignment (term scope l) (term scope r) d = .ok v d') :
    Lowered scope (.op a .assign false [l, r]) (node id ⟨.assign, none, false⟩ [L, R]) d v d' := by
  obtain ⟨_, d₁, hleft, h⟩ := Effect.bind_eq_ok.mp h
  obtain ⟨v₁, code, hs, rfl, left, grows⟩ := hl _ _ _ hleft
  obtain ⟨b, d₂, hb, hrest⟩ := Effect.bind_eq_ok.mp h
  obtain ⟨hbox, rfl⟩ := toTarget_eq_ok hb
  obtain rfl := Option.some.inj hbox
  obtain ⟨_, d₃, hright, hrest⟩ := Effect.bind_eq_ok.mp hrest
  obtain ⟨v₂, code', hs', rfl, right, grows'⟩ := hr _ _ _ hright
  obtain ⟨_, d₄, hstore, hrest⟩ := Effect.bind_eq_ok.mp hrest
  obtain ⟨grows₁, usage₁⟩ := store_eq_ok hstore
  cases hrest
  exact ⟨_, _, _, rfl, usage₁ ▸ .assign ht left right, grows.trans (grows'.emit grows₁)⟩

end Binary

theorem handOver_lowered {t : Term} {T : HostTree} {v : Option Operand}
    (ht : Mirrors scope .scalar t T) (hc : t.isCompilable scope = false)
    (h : handOver t d = .ok v d') : Lowered scope t T d v d' := by
  unfold handOver at h
  rw [if_neg (by rw [ht.context]; simp), Effect.modify_bind, ht.detachment] at h
  dsimp only at h
  rw [if_pos ht.context] at h
  obtain ⟨_, d₁, hcall, h⟩ := Effect.bind_eq_ok.mp h
  obtain ⟨grows, usage⟩ := emit_eq_ok hcall
  obtain ⟨r, d₂, hr, h⟩ := Effect.bind_eq_ok.mp h
  obtain ⟨rfl, grows', usage'⟩ := emitBox_eq_ok hr
  cases h
  rw [usage] at usage' ⊢
  have noted : d.Grows [] [(t, T)] { d with handovers := d.handovers ++ [⟨t, .ok ⟨T.root, T.exits⟩⟩] } :=
    ⟨by simp, by simp [ht.detachment]⟩
  exact ⟨_, _, _, rfl, usage' ▸ .handed ht hc, noted.trans (grows.emit grows')⟩

theorem catalogued {a : Attributes} {c : Operator} {b : Bool} {ts : List Term}
    (h : (Term.op a c b ts).isCompilable scope = true) : c.isCatalogued = true := by
  simp only [Term.isCompilable, Bool.and_eq_true] at h
  exact h.1.1

/-- **Every term that was read from ops and lowered is one of the cases.**

By induction on how the term was read, with the two ways to treat an operator: there is code for it,
and its operands have been lowered before; or it is handed over, and then its value has to be
wanted. -/
theorem term_lowered {c : Context} {t : Term} {T : HostTree} {v : Option Operand}
    (ht : Mirrors scope c t T) (hc : c = .scalar ∨ t.isCompilable scope = true)
    (h : term scope t d = .ok v d') : Lowered scope t T d v d' := by
  induction ht generalizing d v d' with
  | constant k => exact constant_lowered h
  | lexical hn => exact lexical_lowered hn h
  | declaration hn => exact declaration_lowered hn h
  | @negation c ty id t T s ht ih =>
    rw [term] at h
    split at h
    · next hcomp =>
      exact negation_lowered (by simpa using hcomp) (fun _ _ _ h => ih (.inl rfl) h) h
    · next hn =>
      have hn : (Term.op ⟨some ⟨id, T.start, some s⟩, c, ty⟩ .negate false [t]).isCompilable scope
          = false := by simpa using hn
      obtain rfl := hc.resolve_right (by simp [hn])
      exact handOver_lowered (.negation s ht) hn h
  | @binary c ty id code b f l r L R hf hl hr ihl ihr =>
    have left : ∀ d v d', term scope l d = .ok v d' → Lowered scope l L d v d' :=
      fun _ _ _ h => ihl (.inl rfl) h
    have right : ∀ d v d', term scope r d = .ok v d' → Lowered scope r R d v d' :=
      fun _ _ _ h => ihr (.inl rfl) h
    rw [term] at h
    split at h
    · next hcomp =>
      cases hf with
      | plain s ha =>
        obtain ⟨op, hop, rfl, hassigns⟩ := Operator.floatOp_of_catalogued (catalogued hcomp) ha
        rw [hop, Term.isAssigning, Bool.false_and] at h
        exact binary_lowered hcomp hop left right h
      | assigning ha =>
        obtain ⟨op, hop, rfl, hassigns⟩ := Operator.floatOp_of_catalogued (catalogued hcomp) ha
        rw [hop, Term.isAssigning, hassigns, Bool.true_and] at h
        exact assigning_lowered hcomp hop left right h
      | assign => exact assignment_lowered hcomp left right h
      | and => simp [Term.isCompilable, Operator.isCatalogued] at hcomp
      | or => simp [Term.isCompilable, Operator.isCatalogued] at hcomp
    · next hn =>
      obtain rfl := hc.resolve_right hn
      exact handOver_lowered (.binary hf hl hr) (Bool.not_eq_true _ ▸ hn) h
  | @ternary c ty id t y n T Y N ht hy hn =>
    have refused : (Term.op ⟨some ⟨id, T.start, none⟩, c, ty⟩ .ternary false [t, y, n]).isCompilable
        scope = false := by simp [Term.isCompilable, Operator.isCatalogued]
    rw [term.eq_def] at h
    obtain rfl := hc.resolve_right (by simp [refused])
    exact handOver_lowered (.ternary ht hy hn) refused h

/-- **The value of an operator goes to the slot of its op**, or it is the box that the op has
stored to. -/
theorem destination_lowers {c : Context} {t : Term} {T : HostTree} {u u' : Usage} {code : List Instr}
    {hs : List (Term × HostTree)} {v : Operand} (h : Lowers scope t T u code hs v u')
    (ht : Mirrors scope c t T) (hc : t.isCompilable scope = true) (hk : T.kids ≠ []) :
    (∃ s, T.face.targ = some s ∧ destination t v = .ok (.pad s)) ∨
      ∃ b, T.face.targ = none ∧ v = .box b ∧ destination t v = .ok (.itself b) := by
  have targ : t.origin.bind Origin.targ = T.face.targ := by rw [ht.origin]; rfl
  cases h with
  | double => exact absurd rfl hk
  | int => exact absurd rfl hk
  | uint => exact absurd rfl hk
  | lexical => exact absurd rfl hk
  | declaration => exact absurd rfl hk
  | @negation a id s =>
    have slot : a.origin.bind Origin.targ = some s := targ
    refine .inl ⟨s, rfl, ?_⟩
    simp [destination, slot, Operator.kind]
  | @binary a id s op c _ _ _ _ _ _ _ _ _ _ _ _ _ _ hop =>
    have slot : a.origin.bind Origin.targ = some s := targ
    refine .inl ⟨s, rfl, ?_⟩
    clear targ
    cases c <;> cases hop <;> simp [destination, slot, Operator.kind]
  | @assigning a id op c _ _ _ _ _ _ _ _ _ _ _ b _ _ hop =>
    have slot : a.origin.bind Origin.targ = none := targ
    refine .inr ⟨b, rfl, rfl, ?_⟩
    clear targ
    cases c <;> cases hop <;> simp [destination, slot, Operator.kind]
  | assign => exact .inr ⟨_, rfl, rfl, rfl⟩
  | handed _ hn => simp [hn] at hc

end Lowering

/-! ### Runs -/

/-- The code that leaves a value on the stack, in the box of a slot or in its own. -/
def delivery (targ : Option Slot) (v : Operand) (u : Usage) : List Instr :=
  match targ, v with
  | some s, v => [.pad s, v.store u.boxes, .push u.boxes]
  | none, .box b => [.push b]
  | none, _ => []

/-- What lowering makes of the statements of a run. -/
inductive LowersAll (scope : Scope) : List Statement → Usage → List Instr →
    List (Term × HostTree) → Usage → Prop where
  | nil {u : Usage} : LowersAll scope [] u [] [] u
  | cons {s : Statement} {ss : List Statement} {u u₁ u₂ : Usage} {code code' : List Instr}
      {hs hs' : List (Term × HostTree)} {v : Operand} :
      Lowers scope s.expr s.tree u code hs v u₁ → LowersAll scope ss u₁ code' hs' u₂ →
      LowersAll scope (s :: ss) u (code ++ code') (hs ++ hs') u₂

namespace Lowering

variable {scope : Scope} {d d' : Draft}

theorem root_eq {c : Context} {t : Term} {T : HostTree} (h : Mirrors scope c t T) :
    root scope t = term scope t >>= deliver t := by
  cases h <;> rfl

/-- A single operator, wanted for its value. -/
theorem root_lowered {t : Term} {T : HostTree} {x : Unit} (ht : Mirrors scope .scalar t T)
    (hc : t.isCompilable scope = true) (hk : T.kids ≠ []) (h : root scope t d = .ok x d') :
    ∃ v u' code hs, Lowers scope t T d.usage code hs v u' ∧
      d.Grows (code ++ delivery T.face.targ v u') hs d' := by
  rw [root_eq ht] at h
  obtain ⟨_, d₁, hterm, h⟩ := Effect.bind_eq_ok.mp h
  obtain ⟨v, code, hs, rfl, lowers, grows⟩ := term_lowered ht (.inl rfl) hterm
  refine ⟨v, d₁.usage, code, hs, lowers, ?_⟩
  simp only [deliver, ht.context] at h
  unfold pushValue at h
  rcases destination_lowers lowers ht hc hk with ⟨s, hs, hdest⟩ | ⟨b, hb, rfl, hdest⟩
  · rw [hdest] at h
    obtain ⟨b, d₂, hb, h⟩ := Effect.bind_eq_ok.mp h
    obtain ⟨rfl, grows₁, usage₁⟩ := emitBox_eq_ok hb
    obtain ⟨_, d₃, hstore, h⟩ := Effect.bind_eq_ok.mp h
    obtain ⟨grows₂, -⟩ := store_eq_ok hstore
    obtain ⟨grows₃, -⟩ := emit_eq_ok h
    rw [hs]
    exact grows.emit (grows₁.emit (grows₂.emit grows₃))
  · rw [hdest] at h
    obtain ⟨grows₁, -⟩ := emit_eq_ok h
    rw [hb]
    exact grows.emit grows₁

/-- Statements of a run. -/
theorem roots_lowered {ss : List Statement} {x : Unit}
    (hm : ∀ s ∈ ss, Mirrors scope .void s.expr s.tree ∧ s.expr.isCompilable scope = true)
    (h : roots scope (ss.map Statement.term) d = .ok x d') :
    ∃ code hs, LowersAll scope ss d.usage code hs d'.usage ∧ d.Grows code hs d' := by
  induction ss generalizing d with
  | nil =>
    cases h
    exact ⟨[], [], .nil, .refl _⟩
  | cons s ss ih =>
    obtain ⟨mirrors, compilable⟩ := hm s (by simp)
    obtain ⟨_, d₁, hroot, hrest⟩ := Effect.bind_eq_ok.mp h
    have hroot : root scope s.expr d = .ok _ d₁ := hroot
    rw [root_eq mirrors] at hroot
    obtain ⟨_, d₂, hterm, hdeliver⟩ := Effect.bind_eq_ok.mp hroot
    simp only [deliver, mirrors.context] at hdeliver
    cases hdeliver
    obtain ⟨v, code, hs, rfl, lowers, grows⟩ := term_lowered mirrors (.inr compilable) hterm
    obtain ⟨code', hs', lowersAll, grows'⟩ := ih (fun s hs => hm s (by simp [hs])) hrest
    exact ⟨_, _, .cons lowers lowersAll, grows.trans grows'⟩

theorem codeOf_eq_ok {run : List Term} {code : List Instr} (h : codeOf scope run = .ok code) :
    ∃ d, roots scope run {} = .ok ⟨⟩ d ∧ d.code = code ∧ handoversOf scope run = d.handovers := by
  unfold codeOf at h
  unfold handoversOf
  cases hr : roots scope run {} with
  | ok _ d =>
    rw [hr] at h
    cases h
    exact ⟨d, rfl, rfl, rfl⟩
  | error e d =>
    rw [hr] at h
    cases h

/-- **The code of an operator**, and what it hands over. -/
theorem codeOf_single {t : Term} {T : HostTree} {code : List Instr} (ht : Mirrors scope .scalar t T)
    (hc : t.isCompilable scope = true) (hk : T.kids ≠ []) (h : codeOf scope [t] = .ok code) :
    ∃ v u main hs, Lowers scope t T ⟨0, 0⟩ main hs v u ∧ code = main ++ delivery T.face.targ v u ∧
      handoversOf scope [t] = hs.map fun q => ⟨q.1, q.1.detachment⟩ := by
  obtain ⟨d, hroots, rfl, hhand⟩ := codeOf_eq_ok h
  obtain ⟨_, d₁, hroot, hnil⟩ := Effect.bind_eq_ok.mp hroots
  cases hnil
  obtain ⟨v, u, main, hs, lowers, grows⟩ := root_lowered ht hc hk hroot
  exact ⟨v, u, main, hs, lowers, by simpa using grows.code, hhand.trans (by simpa using grows.handovers)⟩

/-- **The code of statements**, and what they hand over. -/
theorem codeOf_statements {ss : List Statement} {code : List Instr}
    (hm : ∀ s ∈ ss, Mirrors scope .void s.expr s.tree ∧ s.expr.isCompilable scope = true)
    (h : codeOf scope (ss.map Statement.term) = .ok code) :
    ∃ hs u, LowersAll scope ss ⟨0, 0⟩ code hs u ∧
      handoversOf scope (ss.map Statement.term) = hs.map fun q => ⟨q.1, q.1.detachment⟩ := by
  obtain ⟨d, hroots, rfl, hhand⟩ := codeOf_eq_ok h
  obtain ⟨code, hs, lowers, grows⟩ := roots_lowered hm hroots
  have hcode : d.code = code := by simpa using grows.code
  exact ⟨hs, d.usage, hcode ▸ lowers, hhand.trans (by simpa using grows.handovers)⟩

end Lowering

end Graft
