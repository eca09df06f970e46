import Graft.Term.Basic

/-! # Regions

Which terms the compiler takes, and how a program is cut into the pieces that it
takes and the nodes that it leaves to the interpreter.

An operator is taken if the compiler has code for it and no hidden variable can be
reached from it through such operators.  A sequence is taken as a part of a unit if
at least half of its statements are.  At the top, a sequence is cut into runs of
statements that are taken; what is not taken is looked through for pieces that are.

The cutting itself is a loop over a queue of terms and of runs that have been collected
(`Region.partition`).  A turn takes the first piece of work, gives one region and puts
what is left to do back to the front, so regions come out in the order of the text.  The
recursion over terms that the loop stands for is `Region.ofTerms`, and the two are equal
(`Region.partition_eq_ofTerms`): what a queue still has to give is the regions of its
works, one after the other, and a turn takes the first of these away.
-/

namespace Graft

namespace Term

variable (scope : Scope)

mutual

/-- Can a hidden variable be reached from the term through operators that the compiler
has code for? -/
def reachesHidden : Term → Bool
  | leaf _ (.lexical d) | leaf _ (.declaration d) => (scope.typeOf d).isHidden
  | op _ c _ ts => c.isCatalogued && reachesHiddenAny ts
  | _ => false

def reachesHiddenAny : List Term → Bool
  | [] => false
  | t :: ts => t.reachesHidden || reachesHiddenAny ts

end

mutual

/-- Does the compiler take the term?  An assignment needs a value that is taken too. -/
def isCompilable : Term → Bool
  | leaf _ (.constant _) | leaf _ (.lexical _) | leaf _ (.declaration _) => true
  | leaf _ _ => false
  | statement _ t => t.isCompilable
  | sequence _ ts => 2 * countCompilable ts ≥ ts.length
  | op a c b ts =>
    c.isCatalogued && !(op a c b ts).reachesHidden scope &&
      (c != .assign || secondCompilable ts)
  | control _ _ _ => false

/-- The number of terms that the compiler takes. -/
def countCompilable : List Term → Nat
  | [] => 0
  | t :: ts => (if t.isCompilable then 1 else 0) + countCompilable ts

/-- Is there a second term, and does the compiler take it? -/
def secondCompilable : List Term → Bool
  | _ :: t :: _ => t.isCompilable
  | _ => false

end

end Term

/-- A piece of a program, in the order of the text. -/
inductive Region where
  /-- Neighbouring terms for one unit, with all that is below them. -/
  | compiled (run : List Term)
  /-- A single node for the interpreter; what is below it is in later regions. -/
  | interpreted (node : Term)
deriving Repr

namespace Region

/-- The nodes that a region is responsible for, in pre-order. -/
def cover : Region → List Term
  | compiled run => Term.preorders run
  | interpreted node => [node]

/-- A run that has been collected, if it is not empty. -/
def close (run : List Term) : List Region := if run.isEmpty then [] else [compiled run]

variable (scope : Scope)

mutual

/-- The regions of a term. -/
def ofTerm : Term → List Region
  | .leaf a l => [interpreted (.leaf a l)]
  | .sequence a ts => interpreted (.sequence a ts) :: ofStatements [] ts
  | .op a c b ts =>
    if (Term.op a c b ts).isCompilable scope then [compiled [.op a c b ts]]
    else interpreted (.op a c b ts) :: ofTerms ts
  | .statement a t =>
    if (Term.statement a t).isCompilable scope then [compiled [.statement a t]]
    else interpreted (.statement a t) :: ofTerm t
  | .control a f ts =>
    if (Term.control a f ts).isCompilable scope then [compiled [.control a f ts]]
    else interpreted (.control a f ts) :: ofTerms ts

/-- The regions of terms, one after the other. -/
def ofTerms : List Term → List Region
  | [] => []
  | t :: ts => ofTerm t ++ ofTerms ts

/-- The regions of the statements of a sequence, after the statements in `run` have been
collected. -/
def ofStatements (run : List Term) : List Term → List Region
  | [] => close run
  | t :: ts =>
    if t.isCompilable scope then ofStatements (run ++ [t]) ts
    else close run ++ ofTerm t ++ ofStatements [] ts

end

/-! ### Cutting with a queue -/

/-- A piece of work: a term that is to be cut, or a run that has been collected. -/
inductive Work where
  | term (t : Term)
  | run (terms : List Term)
deriving Repr

namespace Work

/-- Put works to the front of a queue, the last of them first. -/
def putBack (works queue : List Work) : List Work :=
  works.reverse.foldl (fun queue w => w :: queue) queue

/-- A run that has been collected, as work, if it is not empty. -/
def flush (run : List Term) : List Work := if run.isEmpty then [] else [.run run]

/-- The works of the statements of a sequence, after those in `front` have been found and
the statements in `run` collected. -/
def collect (front : List Work) (run : List Term) : List Term → List Work
  | [] => front ++ flush run
  | t :: ts =>
    if t.isCompilable scope then collect front (run ++ [t]) ts
    else collect (front ++ flush run ++ [.term t]) [] ts

/-- One turn: the region that a piece of work gives, and the work that it leaves. -/
def turn : Work → Region × List Work
  | .run terms => (compiled terms, [])
  | .term (.leaf a l) => (interpreted (.leaf a l), [])
  | .term (.sequence a ts) => (interpreted (.sequence a ts), collect scope [] [] ts)
  | .term t =>
    if t.isCompilable scope then (compiled [t], [])
    else (interpreted t, t.kids.map .term)

/-- A bound for the turns that the works of a queue take. -/
def weight : List Work → Nat
  | [] => 0
  | .term t :: queue => t.preorder.length + weight queue
  | .run _ :: queue => 1 + weight queue

@[simp]
theorem putBack_eq (works queue : List Work) : putBack works queue = works ++ queue := by
  simp [putBack]

@[simp]
theorem weight_append (works queue : List Work) :
    weight (works ++ queue) = weight works + weight queue := by
  induction works with
  | nil => simp [weight]
  | cons w works ih => cases w <;> simp [weight, ih, Nat.add_assoc]

theorem weight_map_term (ts : List Term) : weight (ts.map .term) = Term.weight ts := by
  induction ts with
  | nil => rfl
  | cons t ts ih => simp [weight, Term.weight, Term.preorders, ih]

theorem weight_flush_le (run : List Term) : weight (flush run) ≤ run.length := by
  cases run <;> simp [flush, weight]

theorem weight_collect_le (front : List Work) (run ts : List Term) :
    weight (collect scope front run ts) ≤ weight front + run.length + Term.weight ts := by
  induction ts generalizing front run with
  | nil =>
    have flushed := weight_flush_le run
    simp only [collect, weight_append]
    omega
  | cons t ts ih =>
    have node := Term.weight_kids_lt t
    have split : Term.weight (t :: ts) = t.preorder.length + Term.weight ts := by
      simp [Term.weight, Term.preorders]
    rw [collect, split]
    split
    · have collected := ih front (run ++ [t])
      simp only [List.length_append, List.length_singleton] at collected
      omega
    · have flushed := weight_flush_le run
      have begun := ih (front ++ flush run ++ [.term t]) []
      simp only [weight_append, weight, List.length_nil] at begun
      omega

/-- What a turn leaves to do weighs less than the work itself. -/
theorem weight_turn_lt (w : Work) : weight (w.turn scope).2 < weight [w] := by
  fun_cases turn scope w with
  | case1 run => simp [weight]
  | case2 a l => simp [weight, Term.preorder]
  | case3 a ts =>
    have bound := weight_collect_le scope [] [] ts
    simp only [weight, Term.preorder, Term.weight, List.length_cons, List.length_nil] at bound ⊢
    omega
  | case4 t _ _ hc =>
    have node := Term.weight_kids_lt t
    simp only [weight]
    omega
  | case5 t _ _ hc =>
    have node := Term.weight_kids_lt t
    simp only [weight, weight_map_term]
    omega

end Work

/-- The loop: the regions that have been found, and the queue of what is left to do. -/
def partitionFrom (found : Array Region) : List Work → List Region
  | [] => found.toList
  | w :: queue =>
    partitionFrom (found.push (w.turn scope).1) (Work.putBack (w.turn scope).2 queue)
termination_by queue => Work.weight queue
decreasing_by
  have less := Work.weight_turn_lt scope w
  cases w <;> simp only [Work.putBack_eq, Work.weight_append, Work.weight] at less ⊢ <;> omega

/-- **Cut a program into regions.** -/
def partition (roots : List Term) : List Region := partitionFrom scope #[] (roots.map .term)

/-- The regions that a piece of work is cut into in the end. -/
def Work.regions : Work → List Region
  | .term t => ofTerm scope t
  | .run terms => [compiled terms]

theorem Work.regions_flush (run : List Term) :
    (flush run).flatMap (regions scope) = close run := by
  cases run <;> simp [flush, close, regions]

theorem Work.regions_map_term (ts : List Term) :
    (ts.map .term).flatMap (regions scope) = ofTerms scope ts := by
  induction ts with
  | nil => simp [ofTerms]
  | cons t ts ih => simp [ofTerms, regions, ih]

/-- Collecting runs statement by statement loses none of them, the last one included. -/
theorem Work.regions_collect (front : List Work) (run ts : List Term) :
    (Work.collect scope front run ts).flatMap (regions scope) =
      front.flatMap (regions scope) ++ ofStatements scope run ts := by
  induction ts generalizing front run with
  | nil => simp [collect, ofStatements, regions_flush]
  | cons t ts ih =>
    rw [collect, ofStatements]
    split
    · exact ih front (run ++ [t])
    · simp [ih, regions_flush, regions]

/-- **A turn gives the first of the regions of its work**, and leaves the others to do. -/
theorem Work.regions_turn (w : Work) :
    w.regions scope = (w.turn scope).1 :: (w.turn scope).2.flatMap (regions scope) := by
  fun_cases turn scope w with
  | case1 run => simp [regions]
  | case2 a l => simp [regions, ofTerm]
  | case3 a ts => simp [regions, ofTerm, regions_collect]
  | case4 t leaf seq hc => cases t <;> simp_all [regions, ofTerm]
  | case5 t leaf seq hc => cases t <;> simp_all [regions, ofTerm, regions_map_term, Term.kids]

/-- The loop gives what it has found, and then the regions of all that is in the queue. -/
theorem partitionFrom_eq (found : Array Region) (queue : List Work) :
    partitionFrom scope found queue = found.toList ++ queue.flatMap (Work.regions scope) := by
  fun_induction partitionFrom scope found queue with
  | case1 found => simp
  | case2 found w queue ih =>
    rw [ih, List.flatMap_cons, Work.regions_turn scope w]
    simp

/-- **The queue cuts a program as the recursion over its terms does.** -/
theorem partition_eq_ofTerms (roots : List Term) : partition scope roots = ofTerms scope roots := by
  rw [partition, partitionFrom_eq, Work.regions_map_term]
  rfl

/-! ### What regions cover -/

theorem flatMap_cover_close (run : List Term) : (close run).flatMap cover = Term.preorders run := by
  cases run <;> simp [close, cover, Term.preorders]

mutual

/-- **The regions of a term cover it, node by node and in order.** -/
theorem flatMap_cover_ofTerm : ∀ t : Term, (ofTerm scope t).flatMap cover = t.preorder
  | .leaf a l => by simp [ofTerm, cover, Term.preorder]
  | .sequence a ts => by
    simp [ofTerm, cover, Term.preorder, flatMap_cover_ofStatements [] ts, Term.preorders]
  | .op a c b ts => by
    have ih := flatMap_cover_ofTerms ts
    rw [ofTerm]
    split <;> simp [cover, Term.preorder, Term.preorders, ih]
  | .statement a t => by
    have ih := flatMap_cover_ofTerm t
    rw [ofTerm]
    split <;> simp [cover, Term.preorder, Term.preorders, ih]
  | .control a f ts => by
    have ih := flatMap_cover_ofTerms ts
    rw [ofTerm]
    split <;> simp [cover, Term.preorder, Term.preorders, ih]

theorem flatMap_cover_ofTerms : ∀ ts : List Term,
    (ofTerms scope ts).flatMap cover = Term.preorders ts
  | [] => by simp [ofTerms, Term.preorders]
  | t :: ts => by
    simp [ofTerms, Term.preorders, flatMap_cover_ofTerm t, flatMap_cover_ofTerms ts]

theorem flatMap_cover_ofStatements : ∀ run ts : List Term,
    (ofStatements scope run ts).flatMap cover = Term.preorders run ++ Term.preorders ts
  | run, [] => by simp [ofStatements, flatMap_cover_close, Term.preorders]
  | run, t :: ts => by
    have head := flatMap_cover_ofTerm t
    have tail := flatMap_cover_ofStatements [] ts
    have grown := flatMap_cover_ofStatements (run ++ [t]) ts
    rw [ofStatements]
    split
    · simp [grown, Term.preorders_append, Term.preorders]
    · simp [flatMap_cover_close, head, tail, Term.preorders]

end

/-- What is in a run of the regions is in the terms. -/
theorem mem_preorders_of_mem_run {roots run : List Term} (h : compiled run ∈ ofTerms scope roots)
    {t : Term} (ht : t ∈ Term.preorders run) : t ∈ Term.preorders roots := by
  rw [← flatMap_cover_ofTerms scope roots, List.mem_flatMap]
  exact ⟨_, h, ht⟩

end Region

end Graft
