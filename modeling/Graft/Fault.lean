import Graft.Ident

/-! # Faults

What can go wrong when a graph is linked, edited or run.
-/

namespace Graft

inductive Fault where
  /-- No op has this name. -/
  | unknownOp (id : OpId)
  /-- An edit was made for other code than the graph's. -/
  | ownerMismatch (expected found : OwnerId)
  /-- The two ops do not bound a range of siblings. -/
  | notContiguous (first last : OpId)
  /-- An op found too few operands above the stack's floor. -/
  | stackUnderflow (id : OpId)
  /-- The pad has no such slot. -/
  | badSlot (slot : Slot)
  /-- The op cannot be executed as it stands. -/
  | notExecutable (id : OpId)
  /-- The graph has no op to start from. -/
  | notLinked
  /-- A remainder by zero. -/
  | illegalModulus
deriving DecidableEq, Repr

/-- The wording of a fault. -/
def Fault.message : Fault → String
  | unknownOp id => "unknown op " ++ id.text
  | ownerMismatch expected found =>
    "edit for " ++ found.text ++ " applied to graph of " ++ expected.text
  | notContiguous first last =>
    first.text ++ ".." ++ last.text ++ " is not a contiguous sibling range"
  | stackUnderflow id => "stack underflow at " ++ id.text
  | badSlot slot => "pad slot " ++ slot.text ++ " out of range"
  | notExecutable id => "op " ++ id.text ++ " cannot be executed here"
  | notLinked => "graph has no entry op; call link() first"
  | illegalModulus => "Illegal modulus zero"

end Graft
