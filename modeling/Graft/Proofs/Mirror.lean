import Graft.Compiler
import Graft.Proofs.Fragments

/-! # Mirrored programs

A program that the compiler is given was read from a graph, and its terms say which ops they
came from.  `Mirrors` is this relation between a term and a tree of ops: the same constants,
variables and operators, every origin naming the root of the tree, its start and the slot that
the root writes to.  `MirrorsProgram` adds programs of statements, with a marker before each.

`Assembled` says how the graphs come about: ops are added one by one, each taking some of the
trees that are there as its kids.

The compiler never looks at the graph.  All that it knows of ops it has from the origins, and it
names them in its edits; so whatever is proved of edits that are applied to a graph rests on this
relation.  It is inductive over the term and the tree together, and the proofs of what it says, of
exits, starts and shapes, are inductions of the same form.  Contexts are part of it: below the top
every term is wanted for its value, as its op is.
-/

namespace Graft

/-- The value of a literal. -/
def Constant.scalar : Constant → Scalar
  | double x => .num x
  | int i => .int i
  | uint u => .uint u
  | str s => .str s
  | undefined => .undefined

/-- The arithmetic of the host for an operator. -/
def Operator.arithmetic? : Operator → Option Arithmetic
  | modulo => some .modulo
  | c => c.floatOp?.map .float

open HostTree

/-- The ops for operators with two operands, by operator and whether it assigns. -/
inductive BinaryFace : Operator → Bool → Face → Prop where
  /-- The result goes to a slot of its own. -/
  | plain {c : Operator} {a : Arithmetic} (s : Slot) :
      c.arithmetic? = some a → BinaryFace c false ⟨.arith a, some s, false⟩
  /-- The result goes to the left operand. -/
  | assigning {c : Operator} {a : Arithmetic} :
      c.arithmetic? = some a → BinaryFace c true ⟨.arith a, none, true⟩
  | assign : BinaryFace .assign false ⟨.assign, none, false⟩
  | and : BinaryFace .boolAnd false ⟨.and, none, false⟩
  | or : BinaryFace .boolOr false ⟨.or, none, false⟩

/-- **The term was read from the tree of ops**; its context is `c`, and that of all terms below
it is scalar. -/
inductive Mirrors (scope : Scope) : Context → Term → HostTree → Prop where
  | constant {c : Context} {ty : Option ValueType} {id : OpId} (k : Constant) :
      Mirrors scope c (.leaf ⟨some ⟨id, id, none⟩, c, ty⟩ (.constant k))
        (node id ⟨.const k.scalar, none, false⟩ [])
  | lexical {c : Context} {ty : Option ValueType} {id : OpId} {d : DeclId} {v : Declaration} :
      scope.get? d = some v →
      Mirrors scope c (.leaf ⟨some ⟨id, id, none⟩, c, ty⟩ (.lexical d))
        (node id ⟨.lexical v.slot false, none, false⟩ [])
  | declaration {c : Context} {ty : Option ValueType} {id : OpId} {d : DeclId} {v : Declaration} :
      scope.get? d = some v →
      Mirrors scope c (.leaf ⟨some ⟨id, id, none⟩, c, ty⟩ (.declaration d))
        (node id ⟨.lexical v.slot true, none, false⟩ [])
  | negation {c : Context} {ty : Option ValueType} {id : OpId} {t : Term} {T : HostTree} (s : Slot) :
      Mirrors scope .scalar t T →
      Mirrors scope c (.op ⟨some ⟨id, T.start, some s⟩, c, ty⟩ .negate false [t])
        (node id ⟨.negate, some s, false⟩ [T])
  | binary {c : Context} {ty : Option ValueType} {id : OpId} {code : Operator} {b : Bool} {f : Face}
      {l r : Term} {L R : HostTree} :
      BinaryFace code b f → Mirrors scope .scalar l L → Mirrors scope .scalar r R →
      Mirrors scope c (.op ⟨some ⟨id, L.start, f.targ⟩, c, ty⟩ code b [l, r]) (node id f [L, R])
  | ternary {c : Context} {ty : Option ValueType} {id : OpId} {t y n : Term} {T Y N : HostTree} :
      Mirrors scope .scalar t T → Mirrors scope .scalar y Y → Mirrors scope .scalar n N →
      Mirrors scope c (.op ⟨some ⟨id, T.start, none⟩, c, ty⟩ .ternary false [t, y, n])
        (node id ⟨.cond, none, false⟩ [T, Y, N])

/-- A statement of a program: the marker before it, its expression, and the ops of that. -/
structure Statement where
  attrs : Attributes
  marker : OpId
  expr : Term
  tree : HostTree

namespace Statement

/-- The statement as a term; its origin is the marker. -/
def term (s : Statement) : Term :=
  .statement { s.attrs with origin := some ⟨s.marker, s.marker, none⟩ } s.expr

/-- The op before the statement. -/
def mark (s : Statement) : HostTree := node s.marker ⟨.mark, none, false⟩ []

/-- The ops of the statement: the marker and those of the expression. -/
def row (s : Statement) : List HostTree := [s.mark, s.tree]

end Statement

/-- The ops of statements under a list. -/
def statementTree (id : OpId) (ss : List Statement) : HostTree :=
  node id ⟨.statements, none, false⟩ (ss.flatMap Statement.row)

/-- Statements as a term. -/
def statementTerm (a : Attributes) (id : OpId) (ss : List Statement) : Term :=
  .sequence { a with origin := some ⟨id, (statementTree id ss).start, none⟩ } (ss.map Statement.term)

/-- **The program was read from the tree of ops**: an expression for its value, or statements
under a list. -/
inductive MirrorsProgram (scope : Scope) : Term → HostTree → Prop where
  | expression {t : Term} {T : HostTree} : Mirrors scope .scalar t T → MirrorsProgram scope t T
  | statements {a : Attributes} {id : OpId} {ss : List Statement} :
      ss ≠ [] → (∀ s ∈ ss, Mirrors scope .void s.expr s.tree) →
      MirrorsProgram scope (statementTerm a id ss) (statementTree id ss)

/-- **A graph is assembled op by op** from an empty one; the trees are those that no op has
taken yet. -/
inductive Assembled (owner : OwnerId) : Graph → List HostTree → Prop where
  | empty : Assembled owner { owner } []
  | add {g : Graph} {ts ks rest : List HostTree} (f : Face) :
      Assembled owner g ts → ts.Perm (ks ++ rest) → f.kind.shape ≠ .unit →
      Assembled owner
        (g.add { kind := f.kind, kids := ks.map root, targ := f.targ, stacked := f.stacked }).2
        (node ⟨g.size⟩ f ks :: rest)

/-! ### What mirroring says of a term -/

theorem exists_of_forall₂ {α β : Type} {R : α → β → Prop} {as : List α} {bs : List β}
    (h : List.Forall₂ R as bs) {b : β} (hb : b ∈ bs) : ∃ a ∈ as, R a b := by
  induction h with
  | nil => cases hb
  | cons hab _ ih =>
    rcases List.mem_cons.mp hb with rfl | hb
    · exact ⟨_, List.mem_cons_self, hab⟩
    · obtain ⟨a, mem, hab⟩ := ih hb
      exact ⟨a, List.mem_cons_of_mem _ mem, hab⟩

namespace Mirrors

variable {scope : Scope} {c : Context} {t : Term} {T : HostTree}

theorem origin (h : Mirrors scope c t T) : t.origin = some ⟨T.root, T.start, T.face.targ⟩ := by
  cases h with
  | constant => rw [start_leaf]; rfl
  | lexical => rw [start_leaf]; rfl
  | declaration => rw [start_leaf]; rfl
  | negation s h => rw [start_cons (by simp [OpKind.shape])]; rfl
  | binary hf hl hr =>
    rw [start_cons (by cases hf <;> simp [OpKind.shape])]
    rfl
  | ternary => rw [start_cons (by simp [OpKind.shape])]; rfl

theorem context (h : Mirrors scope c t T) : t.context = c := by
  cases h <;> rfl

/-- The parts mirror the kids. -/
theorem kids (h : Mirrors scope c t T) : List.Forall₂ (Mirrors scope .scalar) t.kids T.kids := by
  cases h with
  | constant => exact .nil
  | lexical => exact .nil
  | declaration => exact .nil
  | negation s h => exact .cons h .nil
  | binary _ hl hr => exact .cons hl (.cons hr .nil)
  | ternary ht hy hn => exact .cons ht (.cons hy (.cons hn .nil))

theorem kid (h : Mirrors scope c t T) {k : HostTree} (hk : k ∈ T.kids) :
    ∃ u ∈ t.kids, Mirrors scope .scalar u k :=
  exists_of_forall₂ h.kids hk

theorem part (h : Mirrors scope c t T) {u : Term} (hu : u ∈ t.kids) :
    ∃ k ∈ T.kids, Mirrors scope .scalar u k :=
  exists_of_forall₂ h.kids.flip hu

/-- **No unit and no list of statements is in the tree.** -/
theorem shape (h : Mirrors scope c t T) :
    ∀ s ∈ T.subtrees, s.shape ≠ .unit ∧ s.shape ≠ .listed := by
  induction h with
  | constant => simp [subtrees, subtreesAll, HostTree.shape, OpKind.shape]
  | lexical => simp [subtrees, subtreesAll, HostTree.shape, OpKind.shape]
  | declaration => simp [subtrees, subtreesAll, HostTree.shape, OpKind.shape]
  | negation s _ ih =>
    intro u hu
    rcases mem_subtrees_iff.mp hu with rfl | ⟨k, hk, huk⟩
    · simp [HostTree.shape, OpKind.shape]
    · obtain rfl := List.mem_singleton.mp hk
      exact ih u huk
  | binary hf _ _ ihl ihr =>
    intro u hu
    rcases mem_subtrees_iff.mp hu with rfl | ⟨k, hk, huk⟩
    · cases hf <;> simp [HostTree.shape, OpKind.shape]
    · simp only [kids_node, List.mem_cons, List.not_mem_nil, or_false] at hk
      rcases hk with rfl | rfl
      · exact ihl u huk
      · exact ihr u huk
  | ternary _ _ _ iht ihy ihn =>
    intro u hu
    rcases mem_subtrees_iff.mp hu with rfl | ⟨k, hk, huk⟩
    · simp [HostTree.shape, OpKind.shape]
    · simp only [kids_node, List.mem_cons, List.not_mem_nil, or_false] at hk
      rcases hk with rfl | rfl | rfl
      · exact iht u huk
      · exact ihy u huk
      · exact ihn u huk

theorem listless (h : Mirrors scope c t T) : Listless T := fun s hs => (h.shape s hs).2

theorem hostRoot (h : Mirrors scope c t T) : t.hostRoot = .ok T.root := by
  rw [Term.hostRoot, h.origin]

/-- **The exits of a term are those of its tree.** -/
theorem exitOps (h : Mirrors scope c t T) : t.exitOps = .ok T.exits := by
  induction h with
  | constant => rfl
  | lexical => rfl
  | declaration => rfl
  | negation => rfl
  | @binary c ty id code b f l r L R hf hl hr ihl ihr =>
    have single : ∀ {a}, code.arithmetic? = some a →
        (Term.op ⟨some ⟨id, L.start, f.targ⟩, c, ty⟩ code b [l, r]).exitOps = .ok [id] := by
      intro a ha
      cases code <;> first | rfl | cases ha
    cases hf with
    | plain s ha => exact single ha
    | assigning ha => exact single ha
    | assign => rfl
    | and =>
      rw [exits_short rfl, Term.exitOps, ihr]
      rfl
    | or =>
      rw [exits_short rfl, Term.exitOps, ihr]
      rfl
  | @ternary c ty id t y n T Y N ht hy hn iht ihy ihn =>
    rw [exits_choice rfl, Term.exitOps, ihy, ihn]
    rfl

theorem detachment (h : Mirrors scope c t T) : t.detachment = .ok ⟨T.root, T.exits⟩ := by
  rw [Term.detachment, h.hostRoot, h.exitOps]
  rfl

theorem spanFirst (h : Mirrors scope c t T) : t.spanFirst = some T.start := by
  have origin := h.origin
  cases h <;> simp [Term.spanFirst, origin]

theorem spanLast (h : Mirrors scope c t T) : t.spanLast = some T.root := by
  have origin := h.origin
  cases h <;> simp [Term.spanLast, origin]

/-- **An op for which there is code, and a leaf, come after their kids.** -/
theorem plain (h : Mirrors scope c t T) (hc : t.isCompilable scope = true) : T.shape = .plain := by
  cases h with
  | constant => rfl
  | lexical => rfl
  | declaration => rfl
  | negation => rfl
  | binary hf hl hr =>
    cases hf with
    | plain => rfl
    | assigning => rfl
    | assign => rfl
    | and => simp [Term.isCompilable, Operator.isCatalogued] at hc
    | or => simp [Term.isCompilable, Operator.isCatalogued] at hc
  | ternary => simp [Term.isCompilable, Operator.isCatalogued] at hc

end Mirrors

end Graft
