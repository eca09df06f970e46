import Graft.Compiler
import Graft.Graph.Splice
import Graft.Machine.Dispatch

/-! # Sessions

Everything that belongs to one piece of code: its graph, the variables it declares,
the compiler at work on it, the edits that wait to be applied, and the machine that
runs it.  An operation that fails leaves the session as far as it has come.
-/

namespace Graft

structure Session where
  graph : Graph
  scope : Scope := {}
  annotations : Annotations := {}
  compiler : Compiler := {}
  /-- Edits that wait to be applied, in order. -/
  pending : List Edit := []
  machine : Machine := .ofSize 0

namespace Session

/-- The session of an empty graph. -/
def ofOwner (owner : OwnerId) : Session := { graph := { owner } }

variable (s : Session)

/-- Carry out a change of the graph. -/
def onGraph {α : Type} (x : GraphM α) : Except Fault α × Session :=
  match x s.graph with
  | .ok a graph => (.ok a, { s with graph })
  | .error f graph => (.error f, { s with graph })

/-- Add an op. -/
def add (op : Op) : OpId × Session :=
  let (id, graph) := s.graph.add op
  (id, { s with graph })

/-- Link the graph below a root. -/
def link (root : OpId) : Except Fault OpId × Session := s.onGraph (Graph.link root)

/-- Let an edit wait. -/
def edit (e : Edit) : Session := { s with pending := s.pending ++ [e] }

/-- Apply the waiting edits; none waits any longer, also if one fails. -/
def apply : Except Fault (List OpId) × Session :=
  { s with pending := [] }.onGraph (Graph.applyEdits s.pending)

/-- Compile a program; the edits wait. -/
def compile (owner : OwnerId) (roots : List Term) : Except Diagnosis (List Edit) × Session :=
  match s.compiler.compile s.scope owner roots with
  | (.ok edits, compiler) => (.ok edits, { s with compiler, pending := s.pending ++ edits })
  | (.error e, compiler) => (.error e, { s with compiler })

/-- Run the graph on the session's machine, within a bound and with an empty log. -/
def run (fuel : Nat) : Except Halt Unit × Session :=
  match Machine.run s.graph fuel { s.machine with log := [] } with
  | .ok _ machine => (.ok (), { s with machine })
  | .error h machine => (.error h, { s with machine })

end Session

end Graft
