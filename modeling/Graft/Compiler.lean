import Graft.Edit
import Graft.Lowering.Handovers

/-! # The compiler

A program is cut into regions, and each run of terms that is taken becomes a unit and
a batch of edits.  For every term that the unit hands over, the batch first compiles
what is below the term, then detaches the term's fragment; its last edit puts the unit
in the place of the run.

Units are numbered as they are begun, so a unit has a smaller number than those that
are compiled inside it, and a run that is refused uses up its number.  A refused run
ends the compilation if it is strict; otherwise the run stays with the interpreter.
-/

namespace Graft

/-- How much the code generator tries to improve its code. -/
inductive Effort where
  | none
  | speed
  | speedAndSize
deriving DecidableEq, Repr

instance : Inhabited Effort := ⟨.speed⟩

def Effort.name : Effort → String
  | none => "none"
  | speed => "speed"
  | speedAndSize => "speed_and_size"

structure Options where
  effort : Effort
  /-- Check the generated code. -/
  verify : Bool
  /-- List the generated code. -/
  listing : Bool
  /-- A refused run ends the compilation. -/
  strict : Bool
deriving DecidableEq, Repr

namespace Options

def release : Options := ⟨.speed, false, false, true⟩

def debug : Options := ⟨.none, true, true, true⟩

/-- The same options, but refused runs are left to the interpreter. -/
def lenient (o : Options) : Options := { o with strict := false }

instance : Inhabited Options := ⟨release⟩

end Options

/-- A compiler with the number of the next unit. -/
structure Compiler where
  options : Options := default
  nextUnit : Nat := 0
deriving DecidableEq, Repr

/-- What one compilation is about. -/
structure Job where
  scope : Scope
  owner : OwnerId
  strict : Bool

/-- A step of a compilation.  Its state is the number of the next unit, which is kept
when the step fails. -/
abbrev CompileM := EStateM Diagnosis Nat

namespace Job

variable (job : Job)

/-- The name of a unit. -/
def unitName (n : Nat) : String := "opjit_unit_" ++ toString n

/-- The number of a new unit. -/
def newUnit : CompileM Nat := modifyGet fun n => (n, n + 1)

/-- An answer that may be a diagnosis. -/
def ofExcept {α : Type} : Except Diagnosis α → CompileM α
  | .ok a => return a
  | .error e => throw e

/-- The host instructions of a run: from the first one of its first term to the last one
of its last. -/
def span (run : List Term) : Except Diagnosis (OpId × OpId) :=
  match run.head?, run.getLast? with
  | some head, some tail =>
    match head.spanFirst, tail.spanLast with
    | some first, some last => .ok (first, last)
    | none, _ => .error (.missingOrigin head.describe)
    | some _, none => .error (.missingOrigin tail.describe)
  | _, _ => .error .emptyRun

def replaceEdit (first last : OpId) (unit : CompiledUnit) : Edit :=
  ⟨job.owner, .replace first last unit false⟩

def detachEdit (d : Detachment) : Edit := ⟨job.owner, .detach d.root true d.exits⟩

/-- The edits for one term that a unit hands over, with the root of its fragment;
`below` compiles what is below the term. -/
def handoverEdits (h : Handover) (below : CompileM (List Edit)) : CompileM (OpId × List Edit) := do
  let nested ← below
  let d ← ofExcept h.detachment
  return (d.root, nested ++ [job.detachEdit d])

/-- Compile a run to a batch of edits; `below` compiles what is below a term that is
handed over.

The run is lowered first, and what it hands over is compiled after that, in the same
order; doing both in one pass is the same (`OnePass.solves_iff`).  There it is said too
what is taken for granted here: the engine that makes a function of the code does not
refuse it. -/
def compileRun (run : List Term)
    (below : (h : Handover) → h ∈ Lowering.handoversOf job.scope run → CompileM (List Edit)) :
    CompileM (List Edit) := do
  let (first, last) ← ofExcept (span run)
  let n ← newUnit
  let parts ← (Lowering.handoversOf job.scope run).attach.mapM fun h =>
    job.handoverEdits h.1 (below h.1 h.2)
  let code ← ofExcept (Lowering.codeOf job.scope run)
  return (parts.flatMap Prod.snd) ++
    [job.replaceEdit first last ⟨unitName n, code, parts.map Prod.fst⟩]

/-- The edits of a run, or none if it is refused and the job is not strict. -/
def tolerate {ε : Type} (x : EStateM ε Nat (List Edit)) : EStateM ε Nat (List Edit) := fun n =>
  match x n with
  | .ok edits n => .ok edits n
  | .error e n => if job.strict then .error e n else .ok [] n

/-- Compile the runs of a list of terms, each with all that is below it. -/
def compileTerms (roots : List Term) : CompileM (List Edit) := do
  let batches ← (Region.partition job.scope roots).attach.mapM fun
    | ⟨.interpreted _, _⟩ => return []
    | ⟨.compiled run, _hrun⟩ =>
      job.tolerate (job.compileRun run fun h _hh => compileTerms h.term.kids)
  return batches.flatten
termination_by Term.weight roots
decreasing_by
  rw [Region.partition_eq_ofTerms] at _hrun
  exact Nat.lt_of_lt_of_le (Term.weight_kids_lt _) (Term.length_preorder_le_of_mem
    (Region.mem_preorders_of_mem_run _ _hrun (Lowering.term_mem_preorders_of_mem_handoversOf _hh)))

end Job

/-- Compile a program: the edits that put the units in their places, or why there are
none, and the compiler with the numbers that were used up. -/
def Compiler.compile (c : Compiler) (scope : Scope) (owner : OwnerId) (roots : List Term) :
    Except Diagnosis (List Edit) × Compiler :=
  match Job.compileTerms ⟨scope, owner, c.options.strict⟩ roots c.nextUnit with
  | .ok edits n => (.ok edits, { c with nextUnit := n })
  | .error e n => (.error e, { c with nextUnit := n })

end Graft
