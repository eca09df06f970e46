import Graft.CompiledUnit
import Graft.Fault
import Graft.Scalar

/-! # Instruction graphs

The ops of one piece of code live in an arena and name each other by position.  An
op has structural links, `parent` and `kids`, and execution links: `next`, and
`other` for the branch that a conditional may take.

An op whose place a compiled unit has taken keeps a link to its *heir*, the op that
was put there.  Heirs may have heirs; `Graph.resolve` follows them to the op that
stands there now.
-/

namespace Graft

/-- What an op does when it is executed. -/
inductive OpKind where
  /-- Push a constant. -/
  | const (value : Scalar)
  /-- Push a variable; one that introduces it saves and clears it first. -/
  | lexical (slot : Slot) (intro : Bool)
  | arith (op : Arithmetic)
  | negate
  /-- Take a value and a target, copy, push the target. -/
  | assign
  | and
  | or
  /-- Choose between two branches. -/
  | cond
  /-- The mark between statements: clears the stack and frees temporaries. -/
  | mark
  /-- A list of statements.  Executed only if it is empty. -/
  | statements
  | stub
  /-- A compiled unit. -/
  | native (unit : CompiledUnit)
deriving Repr

inductive OpState where
  | live
  /-- Out of the tree but kept, to be run by a unit. -/
  | detached
  /-- Replaced for good. -/
  | dead
deriving DecidableEq, Repr

structure Op where
  kind : OpKind
  /-- The op to execute afterwards. -/
  next : Option OpId := none
  /-- The branch of a conditional. -/
  other : Option OpId := none
  /-- The parent when the op was last attached; a detached op keeps it. -/
  parent : Option OpId := none
  kids : List OpId := []
  /-- The pad slot for the result; without one it goes to a temporary. -/
  targ : Option Slot := none
  /-- The result goes to the left operand. -/
  stacked : Bool := false
  state : OpState := .live
  /-- The op that was put in this op's place. -/
  heir : Option OpId := none
deriving Repr

/-- The ops of one piece of code. -/
structure Graph where
  owner : OwnerId
  ops : Array Op := #[]
  root : Option OpId := none
  /-- The op that a run starts with. -/
  entry : Option OpId := none
deriving Repr

def OpKind.isNative : OpKind → Bool
  | native _ => true
  | _ => false

/-- The name of a kind; a compiled unit goes by its own name. -/
def OpKind.name : OpKind → String
  | const _ => "const"
  | lexical _ _ => "padsv"
  | arith op => op.name
  | negate => "negate"
  | assign => "sassign"
  | and => "and"
  | or => "or"
  | cond => "cond_expr"
  | mark => "nextstate"
  | statements => "lineseq"
  | stub => "stub"
  | native unit => unit.name

def Op.isNative (op : Op) : Bool := op.kind.isNative

namespace Graph

variable (g : Graph)

def size : Nat := g.ops.size

/-- The op of that name. -/
def op? (id : OpId) : Option Op := g.ops[id.index]?

/-- Change one op, if it exists. -/
def update (id : OpId) (f : Op → Op) : Graph := { g with ops := g.ops.modify id.index f }

/-- Add an op; its kids get it as their parent. -/
def add (op : Op) : OpId × Graph :=
  let id : OpId := ⟨g.size⟩
  let adopted := op.kids.foldl (fun h kid => h.update kid fun k => { k with parent := some id }) g
  (id, { adopted with ops := adopted.ops.push op })

/-- Is the op dead, or none at all? -/
def isDead (id : OpId) : Bool :=
  match g.op? id with
  | some op => op.state == .dead
  | none => true

/-- Follow at most so many heirs. -/
def resolveWithin : Nat → OpId → OpId
  | 0, id => id
  | n + 1, id =>
    match (g.op? id).bind Op.heir with
    | some heir => resolveWithin n heir
    | none => id

/-- The op that stands where `id` stood.  An heir is younger than what it replaced, so
there are fewer heirs to follow than there are ops. -/
def resolve (id : OpId) : OpId := g.resolveWithin g.size id

/-- Follow the first kids at most so many levels down. -/
def startWithin : Nat → OpId → OpId
  | 0, id => id
  | n + 1, id =>
    match g.op? id with
    | some op =>
      if op.isNative then id
      else match op.kids with
        | [] => id
        | first :: _ => startWithin n first
    | none => id

/-- The first op that is executed when the subtree of `id` is run, read off the tree as
it is now.  Where kids are acyclic, there are at most as many levels as ops. -/
def startOf (id : OpId) : OpId := g.startWithin g.size id

/-- The ops from `cur` on along `next`, at most so many. -/
def chain : Nat → Option OpId → List OpId
  | 0, _ => []
  | _, none => []
  | n + 1, some id => id :: chain n ((g.op? id).bind Op.next)

/-- The ops from the entry along `next`.  A chain that comes back to itself is cut
when it is longer than the arena. -/
def execOrder : List OpId := g.chain (g.size + 1) g.entry

end Graph

end Graft
