/-! # Contexts

A term is evaluated for nothing, for one value, for a list, or for whatever its
caller wants; until an earlier pass has decided, its context is unresolved.
Contexts have one-byte codes, and an unknown code means unresolved.
-/

namespace Graft

/-- What the surroundings of a term want from it. -/
inductive Context where
  | unresolved
  | void
  | scalar
  | list
  | caller
deriving DecidableEq, Repr, Inhabited

namespace Context

/-- The byte that encodes a context. -/
def code : Context → Nat
  | unresolved => 0
  | void => 1
  | scalar => 2
  | list => 3
  | caller => 4

/-- The context of a byte; bytes that encode none are unresolved. -/
def ofCode : Nat → Context
  | 1 => void
  | 2 => scalar
  | 3 => list
  | 4 => caller
  | _ => unresolved

/-- The name of a context in outlines. -/
def name : Context → String
  | unresolved => "unresolved"
  | void => "void"
  | scalar => "scalar"
  | list => "list"
  | caller => "caller"

/-- The name of a context as a diagnosis begins with it. -/
def title : Context → String
  | unresolved => "Unresolved"
  | void => "Void"
  | scalar => "Scalar"
  | list => "List"
  | caller => "Caller-determined"

@[simp]
theorem ofCode_code (c : Context) : ofCode c.code = c := by
  cases c <;> rfl

end Context

end Graft
