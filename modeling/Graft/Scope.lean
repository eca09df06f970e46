import Graft.Ident
import Graft.ValueType

/-! # Scopes

The variables of a program, in the order of their declaration.  Types may be
revised after the declaration, one variable at a time or by annotations, which
speak of slots: an annotation reaches every variable that lives in its slot.
-/

namespace Graft

/-- A declared variable. -/
structure Declaration where
  name : String
  slot : Slot
  type : ValueType
deriving DecidableEq, Repr

/-- The declared variables; a declaration's name is its position. -/
structure Scope where
  declarations : Array Declaration := #[]
deriving DecidableEq, Repr

/-- Types by slot; of two annotations of a slot the later holds. -/
structure Annotations where
  entries : List (Slot × ValueType) := []
deriving DecidableEq, Repr

namespace Annotations

def get? (a : Annotations) (slot : Slot) : Option ValueType := a.entries.lookup slot

def insert (a : Annotations) (slot : Slot) (type : ValueType) : Annotations :=
  ⟨(slot, type) :: a.entries.filter fun e => e.1 ≠ slot⟩

/-- Annotate a slot with the type that a text names. -/
def annotate (a : Annotations) (slot : Slot) (text : String) :
    Except TypeError (ValueType × Annotations) := do
  let type ← ValueType.parse text
  return (type, a.insert slot type)

/-- The number of annotated slots. -/
def size (a : Annotations) : Nat := a.entries.length

theorem get?_insert (a : Annotations) (slot other : Slot) (type : ValueType) :
    (a.insert slot type).get? other = if other = slot then some type else a.get? other := by
  unfold get? insert
  split
  · next h => subst h; simp
  · next h =>
    have hb : (other == slot) = false := by simpa using h
    rw [List.lookup_cons, hb]
    induction a.entries with
    | nil => rfl
    | cons e es ih =>
      obtain ⟨s, t⟩ := e
      by_cases hs : s = slot
      · subst hs
        simpa [List.lookup_cons, hb] using ih
      · by_cases ho : other = s
        · subst ho; simp [hs]
        · have : (other == s) = false := by simpa using ho
          simpa [hs, List.lookup_cons, this] using ih

end Annotations

namespace Scope

def size (s : Scope) : Nat := s.declarations.size

def get? (s : Scope) (d : DeclId) : Option Declaration := s.declarations[d.index]?

/-- Declare a variable and name it. -/
def declare (s : Scope) (name : String) (slot : Slot) (type : ValueType) : DeclId × Scope :=
  (⟨s.size⟩, ⟨s.declarations.push ⟨name, slot, type⟩⟩)

/-- The declared type; nothing is known of a variable that is not declared. -/
def typeOf (s : Scope) (d : DeclId) : ValueType :=
  match s.get? d with
  | some v => v.type
  | none => .any

/-- Revise the type of a variable, if it is declared. -/
def setType (s : Scope) (d : DeclId) (type : ValueType) : Scope :=
  ⟨s.declarations.modify d.index fun v => { v with type }⟩

/-- Revise the types of all variables in annotated slots. -/
def applyAnnotations (s : Scope) (a : Annotations) : Scope :=
  ⟨s.declarations.map fun v => { v with type := (a.get? v.slot).getD v.type }⟩

@[simp]
theorem size_declare (s : Scope) (name : String) (slot : Slot) (type : ValueType) :
    (s.declare name slot type).2.size = s.size + 1 := by
  simp [declare, size]

@[simp]
theorem size_setType (s : Scope) (d : DeclId) (type : ValueType) :
    (s.setType d type).size = s.size := by
  simp [setType, size]

end Scope

end Graft
