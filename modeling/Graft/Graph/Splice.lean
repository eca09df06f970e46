import Graft.Edit
import Graft.Graph.Link

/-! # Splicing

Applying edits to a graph.  A replacement appends the op of the compiled unit, puts it
in the place of a range of siblings, and turns every link that led to the first op of
the range to it.  A detachment takes a fragment out of its parent's list and cuts the
successors of its exits.

Edits name ops as they were when the compiler saw them; both ends of a range, and
fragments and exits, are resolved to the ops that stand there now.  Where an edit
fails, what it has done so far stays.
-/

namespace Graft

namespace Graph

/-- Set the state of `id` and of everything below it, at most so many levels deep. -/
def markWithin (state : OpState) : Nat → Graph → OpId → Graph
  | 0, g, _ => g
  | n + 1, g, id =>
    match g.op? id with
    | some op => op.kids.foldl (markWithin state n) (g.update id fun o => { o with state })
    | none => g

/-- Set the state of a whole subtree. -/
def mark (g : Graph) (state : OpState) (root : OpId) : Graph :=
  markWithin state g.size g root

/-- The ancestor of `id`, or `id` itself, whose parent is `parent`, at most so many levels
up; `fault` if there is none. -/
def childWithin (parent : Option OpId) (fault : Fault) : Nat → OpId → GraphM OpId
  | 0, _ => throw fault
  | n + 1, id => do
    let op ← find id
    if op.parent = parent then return id
    else match op.parent with
      | some up => childWithin parent fault n up
      | none => throw fault

/-- Append an op that no list of kids holds yet. -/
def append (op : Op) : GraphM OpId := do
  let g ← get
  set { g with ops := g.ops.push op }
  return ⟨g.size⟩

/-- Put `new` in the place of the siblings from `top` to `last`; the answer is what was
there. -/
def exchange (parent : Option OpId) (top last new : OpId) (fault : Fault) :
    GraphM (List OpId) := do
  match parent with
  | some p =>
    let kids := (← find p).kids
    match kids.idxOf? top, kids.idxOf? last with
    | some i, some j =>
      if i ≤ j then
        change p fun o => { o with kids := kids.take i ++ new :: kids.drop (j + 1) }
        return (kids.take (j + 1)).drop i
      else throw fault
    | _, _ => throw fault
  | none =>
    if top = last then
      modify fun g => { g with root := if g.root = some last then some new else g.root }
      return [last]
    else throw fault

/-- Give a unit's op one of its fragments. -/
def adopt (new fragment : OpId) : GraphM Unit := do
  let f := (← get).resolve fragment
  change f fun o => { o with parent := some new }
  change new fun o => { o with kids := o.kids ++ [f] }

/-- The same link, unless it leads to `old`. -/
def redirect (old new : OpId) (link : Option OpId) : Option OpId :=
  if link = some old then some new else link

/-- Turn the links of all ops that are not dead, and the entry, from `old` to `new`; the
op `new` itself keeps its links. -/
def redirectLinks (old new : OpId) (g : Graph) : Graph :=
  { g with
    ops := g.ops.mapIdx fun i op =>
      if i = new.index || op.state == .dead then op
      else { op with next := redirect old new op.next, other := redirect old new op.other }
    entry := redirect old new g.entry }

/-- Name `new` as what stands where `id` stood. -/
def bequeath (new : OpId) (g : Graph) (id : OpId) : Graph :=
  g.update id fun o => { o with heir := some new }

/-- Put a unit in the place of the siblings from the one that holds `first` to `last`; the
answer is the unit's op. -/
def replace (first last : OpId) (unit : CompiledUnit) (keep : Bool) : GraphM OpId := do
  let front := (← get).resolve first
  let last := (← get).resolve last
  let fault := Fault.notContiguous first last
  let lastOp ← find last
  let top ← childWithin lastOp.parent fault ((← get).size + 1) first
  let new ← append { kind := .native unit, next := lastOp.next, parent := lastOp.parent }
  let removed ← exchange lastOp.parent top last new fault
  let state := if keep then OpState.detached else .dead
  modify fun g => removed.foldl (fun g r => g.mark state r) g
  unit.fragments.forM (adopt new)
  modify (redirectLinks front new)
  modify fun g => [first, last, front].foldl (bequeath new) g
  return new

/-- Cut the successor of an exit. -/
def cut (exit : OpId) : GraphM Unit := do
  change ((← get).resolve exit) fun o => { o with next := none }

/-- Take `id` out of its parent's list. -/
def disown (parent : Option OpId) (id : OpId) : GraphM Unit :=
  match parent with
  | some p => change p fun o => { o with kids := o.kids.filter fun k => k ≠ id }
  | none => return ()

/-- Mark what is taken out: one that is kept is only marked at its root. -/
def retire (keep : Bool) (root : OpId) : GraphM Unit :=
  if keep then change root fun o => { o with state := .detached }
  else modify fun g => g.mark .dead root

/-- Take a fragment out of the tree. -/
def detach (root : OpId) (keep : Bool) (exits : List OpId) : GraphM Unit := do
  let root := (← get).resolve root
  disown (← find root).parent root
  modify fun g => { g with root := if g.root = some root then none else g.root }
  retire keep root
  exits.forM cut

/-- Apply one edit; the answer is the op of the unit that it put in. -/
def applyEdit (e : Edit) : GraphM (Option OpId) := do
  let owner := (← get).owner
  if e.owner ≠ owner then throw (.ownerMismatch owner e.owner)
  else match e.change with
    | .replace first last unit keep => some <$> replace first last unit keep
    | .detach root keep exits => do
      detach root keep exits
      return none

/-- Apply edits in order; the answer is the ops of the units that were put in.  The edits
before one that fails stay applied. -/
def applyEdits (edits : List Edit) : GraphM (List OpId) := do
  return (← edits.mapM applyEdit).filterMap id

end Graph

end Graft
