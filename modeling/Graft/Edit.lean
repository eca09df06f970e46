import Graft.CompiledUnit

/-! # Edits

The compiler does not touch a graph.  It answers with a list of edits, which are
applied in order; a later edit may name ops that an earlier one has replaced.
-/

namespace Graft

/-- What an edit does. -/
inductive Change where
  /-- Put a unit in the place of the siblings from the one that holds `first` to `last`.
  The replaced ops are dead afterwards, or only detached if `keep` is set. -/
  | replace (first last : OpId) (unit : CompiledUnit) (keep : Bool)
  /-- Take `root` out of its parent's list and cut the successors of `exits`, so that a
  run from its first op stops at its end. -/
  | detach (root : OpId) (keep : Bool) (exits : List OpId)
deriving Repr

/-- A change of the graph of some owner. -/
structure Edit where
  owner : OwnerId
  change : Change
deriving Repr

/-- The unit that an edit puts in. -/
def Edit.unit? (e : Edit) : Option CompiledUnit :=
  match e.change with
  | .replace _ _ unit _ => some unit
  | .detach .. => none

/-- Does the edit detach a fragment? -/
def Edit.isDetach (e : Edit) : Bool :=
  match e.change with
  | .replace .. => false
  | .detach .. => true

end Graft
