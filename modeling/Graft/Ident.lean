/-! # Identifiers

Ops, pad slots, owners and declarations are named by small numbers.  Each kind
of name is a type of its own, so that a slot cannot be taken for an op.

An op may be absent where one is optional (the last op of a program has no
successor).  In an instruction word the absence is written as the largest
32-bit number, `OpId.noneWord`; `OpId.ofWord` and `OpId.toWord` convert.
-/

namespace Graft

/-- The name of an op: its position in the graph's arena. -/
structure OpId where
  index : Nat
deriving DecidableEq, Repr, Inhabited

/-- The name of a pad slot: its position in the pad. -/
structure Slot where
  index : Nat
deriving DecidableEq, Repr, Inhabited

/-- The name of the code that a graph, and every edit of it, belongs to. -/
structure OwnerId where
  index : Nat
deriving DecidableEq, Repr, Inhabited

/-- The name of a variable declaration: its position in the scope. -/
structure DeclId where
  index : Nat
deriving DecidableEq, Repr, Inhabited

namespace OpId

/-- The word that stands for "no op". -/
def noneWord : Nat := 4294967295

/-- The op that a word names, if it names one. -/
def ofWord (w : Nat) : Option OpId :=
  if w = noneWord then none else some ⟨w⟩

/-- The word for an optional op. -/
def toWord : Option OpId → Nat
  | some id => id.index
  | none => noneWord

/-- The text of an op's name in diagnoses. -/
def text (id : OpId) : String := "op#" ++ toString id.index

/-- A word read as an op and written again is the same word. -/
@[simp]
theorem toWord_ofWord (w : Nat) : toWord (ofWord w) = w := by
  unfold ofWord
  split
  · next h => exact h.symm
  · rfl

end OpId

/-- The text of a slot's name in diagnoses and outlines. -/
def Slot.text (slot : Slot) : String := "pad[" ++ toString slot.index ++ "]"

/-- The text of an owner's name in diagnoses. -/
def OwnerId.text (owner : OwnerId) : String := "code#" ++ toString owner.index

end Graft
