import Graft.Context
import Graft.Operator
import Graft.Scope

/-! # Semantic terms

A program as the compiler sees it: operators over constants and variables, put
together to statements and sequences of statements, and control flow around them.
Every term remembers the host instructions that it was read from (its *origin*)
and the context in which it is evaluated.

Leaves have no parts.  Loops and blocks matter to the compiler only through their
parts, so one constructor holds them all, its parts in the order of evaluation;
`Term.whileLoop`, `Term.forLoop` and their kin build them from named parts.
-/

namespace Graft

/-- The host instructions that a term was read from. -/
structure Origin where
  /-- The instruction at the root of the subtree; it is executed last. -/
  root : OpId
  /-- The instruction of the subtree that is executed first. -/
  start : OpId
  /-- The pad slot that the root writes its result to. -/
  targ : Option Slot := none
deriving DecidableEq, Repr

/-- A literal value. -/
inductive Constant where
  | double (value : Float)
  | int (value : Int64)
  | uint (value : UInt64)
  | str (text : String)
  | undefined
deriving Repr

def Constant.type : Constant → ValueType
  | double _ => .double
  | int _ => .int
  | uint _ => .unsigned
  | str _ | undefined => .scalar

/-- What every term carries. -/
structure Attributes where
  origin : Option Origin := none
  context : Context := .unresolved
  /-- A type that was resolved for the term itself. -/
  type : Option ValueType := none
deriving DecidableEq, Repr

/-- A term without parts. -/
inductive Leaf where
  | constant (value : Constant)
  /-- The use of a variable. -/
  | lexical (decl : DeclId)
  /-- The declaration of a variable, which clears it. -/
  | declaration (decl : DeclId)
  | global (name : String)
  /-- A host fragment without a meaning of its own here. -/
  | hostTree
deriving Repr

/-- The forms of control flow. -/
inductive Control where
  | whileLoop
  /-- A loop that tests after its body. -/
  | doWhile
  | forLoop
  | foreach
  | block
  | map
  | grep
deriving DecidableEq, Repr

/-- A semantic term. -/
inductive Term where
  | leaf (attrs : Attributes) (leaf : Leaf)
  /-- An operator applied to operands; `assigning` asks for the form `x op= y`. -/
  | op (attrs : Attributes) (code : Operator) (assigning : Bool) (operands : List Term)
  /-- A statement; its origin is the marker before it. -/
  | statement (attrs : Attributes) (body : Term)
  | sequence (attrs : Attributes) (statements : List Term)
  /-- Control flow, its parts in the order of evaluation. -/
  | control (attrs : Attributes) (form : Control) (parts : List Term)
deriving Repr

namespace Term

/-! ### Building terms -/

def whileLoop (attrs : Attributes) (condition body : Term) : Term :=
  control attrs .whileLoop [condition, body]

def doWhile (attrs : Attributes) (body condition : Term) : Term :=
  control attrs .doWhile [body, condition]

def forLoop (attrs : Attributes) (init condition step : Option Term) (body : Term) : Term :=
  control attrs .forLoop (init.toList ++ condition.toList ++ [body] ++ step.toList)

def foreach (attrs : Attributes) (item list body : Term) : Term :=
  control attrs .foreach [item, list, body]

def block (attrs : Attributes) (body : Term) : Term := control attrs .block [body]

def map (attrs : Attributes) (list body : Term) : Term := control attrs .map [list, body]

def grep (attrs : Attributes) (list body : Term) : Term := control attrs .grep [list, body]

/-! ### Parts -/

def attrs : Term → Attributes
  | leaf a _ | op a _ _ _ | statement a _ | sequence a _ | control a _ _ => a

def withAttrs (a : Attributes) : Term → Term
  | leaf _ l => leaf a l
  | op _ c b ts => op a c b ts
  | statement _ t => statement a t
  | sequence _ ts => sequence a ts
  | control _ f ts => control a f ts

def context (t : Term) : Context := t.attrs.context

def origin (t : Term) : Option Origin := t.attrs.origin

def isLeaf : Term → Bool
  | leaf _ _ => true
  | _ => false

/-- The direct parts, in the order of evaluation. -/
def kids : Term → List Term
  | leaf _ _ => []
  | op _ _ _ ts => ts
  | statement _ t => [t]
  | sequence _ ts => ts
  | control _ _ ts => ts

/-- An operator application that stores its result in its first operand: asked for,
and known to the operator. -/
def isAssigning : Term → Bool
  | op _ c b _ => b && c.traits.assigning
  | _ => false

/-! ### Types -/

/-- The variable that the term names. -/
def decl? : Term → Option DeclId
  | leaf _ (.lexical d) | leaf _ (.declaration d) => some d
  | _ => none

/-- The type of the term's value: variables have that of their declaration, constants
that of the literal. -/
def type (scope : Scope) : Term → ValueType
  | leaf _ (.constant c) => c.type
  | leaf _ (.lexical d) | leaf _ (.declaration d) => scope.typeOf d
  | t => t.attrs.type.getD .any

/-- Record a resolved type.  A variable's type is that of its declaration, so it is
recorded there. -/
def setType (scope : Scope) (type : ValueType) (t : Term) : Term × Scope :=
  match t.decl? with
  | some d => (t, scope.setType d type)
  | none => (t.withAttrs { t.attrs with type := some type }, scope)

/-! ### Spans -/

mutual

/-- The first host instruction of the term's region.  Markers do not belong to it. -/
def spanFirst : Term → Option OpId
  | statement _ t => t.spanFirst
  | sequence _ ts => spanFirstOf ts
  | t => t.origin.map Origin.start

/-- The first host instruction of the first term's region. -/
def spanFirstOf : List Term → Option OpId
  | [] => none
  | t :: _ => t.spanFirst

end

mutual

/-- The last host instruction of the term's region, in the order of execution. -/
def spanLast : Term → Option OpId
  | statement _ t => t.spanLast
  | sequence _ ts => spanLastOf ts
  | t => t.origin.map Origin.root

/-- The last host instruction of the last term's region. -/
def spanLastOf : List Term → Option OpId
  | [] => none
  | [t] => t.spanLast
  | _ :: ts => spanLastOf ts

end

/-! ### Size and order -/

mutual

/-- The term and all terms below it, a term before its parts. -/
def preorder : Term → List Term
  | leaf a l => [leaf a l]
  | op a c b ts => op a c b ts :: preorders ts
  | statement a t => statement a t :: t.preorder
  | sequence a ts => sequence a ts :: preorders ts
  | control a f ts => control a f ts :: preorders ts

/-- The pre-orders of a list of terms, one after the other. -/
def preorders : List Term → List Term
  | [] => []
  | t :: ts => t.preorder ++ preorders ts

end

theorem preorders_append (ts us : List Term) :
    preorders (ts ++ us) = preorders ts ++ preorders us := by
  induction ts with
  | nil => rfl
  | cons t ts ih => simp [preorders, ih]

theorem preorder_eq (t : Term) : t.preorder = t :: preorders t.kids := by
  cases t <;> simp [preorder, preorders, kids]

theorem mem_preorder_self (t : Term) : t ∈ t.preorder := by
  simp [preorder_eq t]

/-- The number of terms in a list, those below them included. -/
def weight (ts : List Term) : Nat := (preorders ts).length

theorem weight_kids_lt (t : Term) : weight t.kids < t.preorder.length := by
  simp [weight, preorder_eq t]

mutual

/-- **Induction over parts.** What holds of a term whenever it holds of its parts holds
of every term. -/
theorem induction {motive : Term → Prop}
    (step : ∀ t : Term, (∀ k ∈ t.kids, motive k) → motive t) : ∀ t : Term, motive t
  | leaf _ _ => step _ (by simp [kids])
  | op _ _ _ ts => step _ (induction_kids step ts)
  | statement _ t => step _ (by simpa [kids] using induction step t)
  | sequence _ ts => step _ (induction_kids step ts)
  | control _ _ ts => step _ (induction_kids step ts)

theorem induction_kids {motive : Term → Prop}
    (step : ∀ t : Term, (∀ k ∈ t.kids, motive k) → motive t) :
    ∀ ts : List Term, ∀ k ∈ ts, motive k
  | [] => by simp
  | t :: ts => by
    have head := induction step t
    have tail := induction_kids step ts
    intro k hk
    rcases List.mem_cons.mp hk with h | h
    · exact h ▸ head
    · exact tail k h

end

theorem mem_preorders {t : Term} {ts : List Term} :
    t ∈ preorders ts ↔ ∃ r ∈ ts, t ∈ r.preorder := by
  induction ts with
  | nil => simp [preorders]
  | cons r ts ih => simp [preorders, ih]

theorem mem_preorder_of_kid {k t : Term} (h : k ∈ t.kids) : k ∈ t.preorder := by
  rw [preorder_eq t, List.mem_cons, mem_preorders]
  exact .inr ⟨k, h, mem_preorder_self k⟩

/-- What is below a term is below what the term is below. -/
theorem preorder_trans {t u v : Term} (ht : t ∈ u.preorder) (hu : u ∈ v.preorder) :
    t ∈ v.preorder := by
  induction v using induction with
  | step v ih =>
    rw [preorder_eq v, List.mem_cons, mem_preorders] at hu
    rcases hu with rfl | ⟨k, hk, hu⟩
    · exact ht
    · rw [preorder_eq v, List.mem_cons, mem_preorders]
      exact .inr ⟨k, hk, ih k hk hu⟩

/-- What is below the parts of a term that is below others is below these. -/
theorem mem_preorders_below {t u : Term} {ts : List Term} (ht : t ∈ preorders ts)
    (hu : u ∈ preorders t.kids) : u ∈ preorders ts := by
  obtain ⟨r, hr, hin⟩ := mem_preorders.mp ht
  refine mem_preorders.mpr ⟨r, hr, preorder_trans ?_ hin⟩
  rw [preorder_eq]
  exact List.mem_cons_of_mem _ hu

theorem mem_preorders_of_kid {k t : Term} {ts : List Term} (hk : k ∈ t.kids) (ht : t ∈ preorders ts) :
    k ∈ preorders ts :=
  mem_preorders_below ht (mem_preorders.mpr ⟨k, hk, mem_preorder_self k⟩)

/-- A term below others has no more terms below it than they have. -/
theorem length_preorder_le_of_mem {ts : List Term} {t : Term} (h : t ∈ preorders ts) :
    t.preorder.length ≤ weight ts := by
  have single : ∀ u : Term, ∀ t ∈ u.preorder, t.preorder.length ≤ u.preorder.length := by
    intro u
    induction u using induction with
    | step u ih =>
      intro t ht
      rw [preorder_eq u] at ht ⊢
      rcases List.mem_cons.mp ht with rfl | ht
      · exact Nat.le_of_eq (congrArg List.length (preorder_eq t))
      · have below : ∀ ks : List Term, (∀ k ∈ ks, k ∈ u.kids) → t ∈ preorders ks →
            t.preorder.length ≤ (preorders ks).length := by
          intro ks
          induction ks with
          | nil => intro _ h; simp [preorders] at h
          | cons k ks ihk =>
            intro hks h
            simp only [preorders, List.mem_append, List.length_append] at h ⊢
            rcases h with h | h
            · have := ih k (hks k (by simp)) t h; omega
            · have := ihk (fun j hj => hks j (by simp [hj])) h; omega
        have := below u.kids (fun _ h => h) ht
        simp only [List.length_cons]; omega
  induction ts with
  | nil => simp [preorders] at h
  | cons u ts ih =>
    simp only [weight, preorders, List.mem_append, List.length_append] at h ih ⊢
    rcases h with h | h
    · have := single u t h; omega
    · have := ih h; omega

end Term

end Graft
