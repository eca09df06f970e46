import Graft.Graph.Basic

/-! # Linking

Execution links follow from structure.  The kids of an op are executed from left to
right and then the op itself.  A list of statements is only its kids.  `and` and `or`
come after their left kid and may go on with the right one; a conditional comes after
its condition and goes on with one of its branches.

An op is linked with the op to continue with, and the answer is the first op of its
subtree.  Kids are linked from the last to the first, since a kid continues with the
first op of the one after it.  Where linking fails, the links made so far stay.
-/

namespace Graft

/-- A change of a graph that may fail half-way. -/
abbrev GraphM := EStateM Fault Graph

namespace Graph

/-- The op of that name, or the fault that there is none. -/
def find (id : OpId) : GraphM Op := do
  match (← get).op? id with
  | some op => return op
  | none => throw (.unknownOp id)

/-- Change an op that must exist. -/
def change (id : OpId) (f : Op → Op) : GraphM Unit := do
  discard (find id)
  modify fun g => g.update id f

/-- Link the subtree of `id`, at most so many levels deep, to continue at `cont`; the
answer is its first op. -/
def linkWithin : Nat → OpId → Option OpId → GraphM OpId
  | 0, id, _ => throw (.notExecutable id)
  | n + 1, id, cont => do
    let op ← find id
    match op.kind with
    | .statements =>
      change id fun o => { o with next := cont }
      let first ← op.kids.foldrM (fun kid c => some <$> linkWithin n kid c) cont
      return if op.kids.isEmpty then id else first.getD id
    | .and | .or =>
      match op.kids with
      | [left, right] =>
        let other ← linkWithin n right cont
        change id fun o => { o with next := cont, other := some other }
        linkWithin n left (some id)
      | _ => throw (.notExecutable id)
    | .cond =>
      match op.kids with
      | [condition, yes, no] =>
        let other ← linkWithin n yes cont
        let next ← linkWithin n no cont
        change id fun o => { o with next := some next, other := some other }
        linkWithin n condition (some id)
      | _ => throw (.notExecutable id)
    | .native _ =>
      change id fun o => { o with next := cont }
      return id
    | _ =>
      change id fun o => { o with next := cont }
      op.kids.foldrM (fun kid c => linkWithin n kid (some c)) id

/-- Make `root` the root of the graph and link its subtree; the answer is the op that a
run starts with.  Where kids are acyclic, one level more than there are ops is
enough; a subtree that is deeper contains itself and cannot be executed. -/
def link (root : OpId) : GraphM OpId := do
  discard (find root)
  let entry ← linkWithin ((← get).size + 1) root none
  modify fun g => { g with root := some root, entry := some entry }
  return entry

end Graph

end Graft
