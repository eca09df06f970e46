import Graft.Region
import Graft.Term.Walk

/-! # Regions cover a program once and in order

A program is cut by a loop that takes terms and runs from a queue and puts what they leave
back to its front (`Region.partition`).  The loop gives the regions that a recursion over
the terms gives (`Region.partition_eq_ofTerms`), so what the regions hold is read off the
recursion, by induction over the terms: a sequence by its statements, of which those that
have been collected wait in a run, and every other term by its parts.

`Region.flatMap_cover_ofTerms` compares the nodes of the regions with the nodes of the
program as terms.  Two nodes may be equal terms, so by itself it does not say which of
them a region holds.  Here the nodes are told apart: they are numbered in the order in
which a walk meets them (`Term.number`), the regions do not depend on such marks
(`Region.ofTerms_strip`), and the regions of the numbered program hold the numbers
`0, 1, 2, …`, each once (`Region.visited_partition`).
-/

namespace Graft

namespace Term

/-! ### What a walk sees -/

/-- The nodes that a walk to the end meets, in order. -/
def visited (t : Term) : List Term := (walk (fun u seen => (.onward, seen ++ [u])) t []).2

mutual

theorem walk_append_preorder : ∀ (t : Term) (seen : List Term),
    walk (fun u seen => (.onward, seen ++ [u])) t seen = (true, seen ++ t.preorder)
  | leaf a l, seen => by simp [walk, enter, preorder]
  | op a c b ts, seen => by
    simp [walk, enter, preorder, walkAll_append_preorders ts]
  | statement a t, seen => by
    simp [walk, enter, preorder, walk_append_preorder t]
  | sequence a ts, seen => by
    simp [walk, enter, preorder, walkAll_append_preorders ts]
  | control a f ts, seen => by
    simp [walk, enter, preorder, walkAll_append_preorders ts]

theorem walkAll_append_preorders : ∀ (ts : List Term) (seen : List Term),
    walkAll (fun u seen => (.onward, seen ++ [u])) ts seen = (true, seen ++ preorders ts)
  | [], seen => by simp [walkAll, preorders]
  | t :: ts, seen => by
    simp [walkAll, preorders, walk_append_preorder t, walkAll_append_preorders ts]

end

/-- A walk meets the nodes in pre-order. -/
theorem visited_eq_preorder (t : Term) : t.visited = t.preorder := by
  rw [visited, walk_append_preorder, List.nil_append]

theorem flatMap_visited (ts : List Term) : ts.flatMap visited = preorders ts := by
  induction ts with
  | nil => rfl
  | cons t ts ih => rw [List.flatMap_cons, ih, visited_eq_preorder, preorders]

/-! ### Marks on nodes -/

mutual

/-- The term without what its nodes carry. -/
def strip : Term → Term
  | leaf _ l => leaf {} l
  | op _ c b ts => op {} c b (stripAll ts)
  | statement _ t => statement {} t.strip
  | sequence _ ts => sequence {} (stripAll ts)
  | control _ f ts => control {} f (stripAll ts)

def stripAll : List Term → List Term
  | [] => []
  | t :: ts => t.strip :: stripAll ts

end

/-- The mark with a number on it. -/
def markOf (n : Nat) : Attributes := { origin := some ⟨⟨n⟩, ⟨n⟩, none⟩ }

mutual

/-- The term with its nodes numbered in pre-order, from `n` on. -/
def number (n : Nat) : Term → Term
  | leaf _ l => leaf (markOf n) l
  | op _ c b ts => op (markOf n) c b (numberAll (n + 1) ts)
  | statement _ t => statement (markOf n) (t.number (n + 1))
  | sequence _ ts => sequence (markOf n) (numberAll (n + 1) ts)
  | control _ f ts => control (markOf n) f (numberAll (n + 1) ts)

/-- Terms with their nodes numbered through, from `n` on. -/
def numberAll (n : Nat) : List Term → List Term
  | [] => []
  | t :: ts => t.number n :: numberAll (n + t.preorder.length) ts

end

/-- The number on a node. -/
def mark (t : Term) : Nat := (t.origin.map fun o => o.root.index).getD 0

mutual

theorem strip_number : ∀ (n : Nat) (t : Term), (t.number n).strip = t.strip
  | n, leaf a l => by simp only [number, strip]
  | n, op a c b ts => by simp only [number, strip, stripAll_numberAll (n + 1) ts]
  | n, statement a t => by simp only [number, strip, strip_number (n + 1) t]
  | n, sequence a ts => by simp only [number, strip, stripAll_numberAll (n + 1) ts]
  | n, control a f ts => by simp only [number, strip, stripAll_numberAll (n + 1) ts]

theorem stripAll_numberAll : ∀ (n : Nat) (ts : List Term),
    stripAll (numberAll n ts) = stripAll ts
  | n, [] => by simp only [numberAll]
  | n, t :: ts => by
    simp only [numberAll, stripAll, strip_number n t, stripAll_numberAll _ ts]

end

mutual

/-- The nodes of a numbered term bear their places in the pre-order. -/
theorem map_mark_preorder_number : ∀ (n : Nat) (t : Term),
    (t.number n).preorder.map mark = List.range' n t.preorder.length
  | n, leaf a l => rfl
  | n, op a c b ts => by
    have ih := map_mark_preorders_numberAll (n + 1) ts
    simp only [number, preorder, List.map_cons, List.length_cons, List.range'_succ, ih]
    rfl
  | n, statement a t => by
    have ih := map_mark_preorder_number (n + 1) t
    simp only [number, preorder, List.map_cons, List.length_cons, List.range'_succ, ih]
    rfl
  | n, sequence a ts => by
    have ih := map_mark_preorders_numberAll (n + 1) ts
    simp only [number, preorder, List.map_cons, List.length_cons, List.range'_succ, ih]
    rfl
  | n, control a f ts => by
    have ih := map_mark_preorders_numberAll (n + 1) ts
    simp only [number, preorder, List.map_cons, List.length_cons, List.range'_succ, ih]
    rfl

theorem map_mark_preorders_numberAll : ∀ (n : Nat) (ts : List Term),
    (preorders (numberAll n ts)).map mark = List.range' n (weight ts)
  | n, [] => rfl
  | n, t :: ts => by
    have head := map_mark_preorder_number n t
    have tail := map_mark_preorders_numberAll (n + t.preorder.length) ts
    rw [numberAll, preorders, List.map_append, head, tail, weight, weight, preorders,
      List.length_append, List.range'_append_1]

end

/-! ### The compiler does not look at marks -/

variable (scope : Scope)

mutual

theorem reachesHidden_strip : ∀ t : Term, t.strip.reachesHidden scope = t.reachesHidden scope
  | leaf a l => by cases l <;> simp only [strip, reachesHidden]
  | op a c b ts => by simp only [strip, reachesHidden, reachesHiddenAny_strip ts]
  | statement a t => by simp only [strip, reachesHidden]
  | sequence a ts => by simp only [strip, reachesHidden]
  | control a f ts => by simp only [strip, reachesHidden]

theorem reachesHiddenAny_strip : ∀ ts : List Term,
    reachesHiddenAny scope (stripAll ts) = reachesHiddenAny scope ts
  | [] => by simp only [stripAll]
  | t :: ts => by
    simp only [stripAll, reachesHiddenAny, reachesHidden_strip t, reachesHiddenAny_strip ts]

end

theorem length_stripAll (ts : List Term) : (stripAll ts).length = ts.length := by
  induction ts with
  | nil => rfl
  | cons t ts ih => rw [stripAll, List.length_cons, List.length_cons, ih]

mutual

theorem isCompilable_strip : ∀ t : Term, t.strip.isCompilable scope = t.isCompilable scope
  | leaf a l => by cases l <;> simp only [strip, isCompilable]
  | op a c b ts => by
    have hidden := reachesHidden_strip scope (op a c b ts)
    simp only [strip] at hidden
    simp only [strip, isCompilable, hidden, secondCompilable_strip ts]
  | statement a t => by simp only [strip, isCompilable, isCompilable_strip t]
  | sequence a ts => by
    simp only [strip, isCompilable, countCompilable_strip ts, length_stripAll ts]
  | control a f ts => by simp only [strip, isCompilable]

theorem countCompilable_strip : ∀ ts : List Term,
    countCompilable scope (stripAll ts) = countCompilable scope ts
  | [] => by simp only [stripAll]
  | t :: ts => by
    simp only [stripAll, countCompilable, isCompilable_strip t, countCompilable_strip ts]

theorem secondCompilable_strip : ∀ ts : List Term,
    secondCompilable scope (stripAll ts) = secondCompilable scope ts
  | [] => by simp only [stripAll]
  | [t] => by simp only [stripAll, secondCompilable]
  | t :: u :: ts => by simp only [stripAll, secondCompilable, isCompilable_strip u]

end

end Term

namespace Region

/-- The region without what its nodes carry. -/
def strip : Region → Region
  | compiled run => compiled (Term.stripAll run)
  | interpreted node => interpreted node.strip

/-- The nodes of a region as walks over its terms meet them; an interpreted node is met
alone. -/
def visited : Region → List Term
  | compiled run => run.flatMap Term.visited
  | interpreted node => [node]

theorem visited_eq_cover (r : Region) : r.visited = r.cover := by
  cases r with
  | compiled run => exact Term.flatMap_visited run
  | interpreted node => rfl

theorem strip_close (run : List Term) : (close run).map strip = close (Term.stripAll run) := by
  cases run <;> simp [close, strip, Term.stripAll]

theorem stripAll_append (ts us : List Term) :
    Term.stripAll (ts ++ us) = Term.stripAll ts ++ Term.stripAll us := by
  induction ts with
  | nil => rfl
  | cons t ts ih => rw [List.cons_append, Term.stripAll, Term.stripAll, ih, List.cons_append]

variable (scope : Scope)

mutual

theorem ofTerm_strip : ∀ t : Term, ofTerm scope t.strip = (ofTerm scope t).map strip
  | .leaf a l => by simp only [Term.strip, ofTerm, List.map_cons, List.map_nil, strip]
  | .sequence a ts => by
    have ih := ofStatements_strip [] ts
    simp only [Term.stripAll] at ih
    simp only [Term.strip, ofTerm, List.map_cons, strip, ih]
  | .op a c b ts => by
    have same := Term.isCompilable_strip scope (.op a c b ts)
    have ih := ofTerms_strip ts
    simp only [Term.strip] at same
    simp only [Term.strip, ofTerm, same]
    split <;> simp [strip, Term.strip, Term.stripAll, ih]
  | .statement a t => by
    have same := Term.isCompilable_strip scope (.statement a t)
    have ih := ofTerm_strip t
    simp only [Term.strip] at same
    simp only [Term.strip, ofTerm, same]
    split <;> simp [strip, Term.strip, Term.stripAll, ih]
  | .control a f ts => by
    have same := Term.isCompilable_strip scope (.control a f ts)
    have ih := ofTerms_strip ts
    simp only [Term.strip] at same
    simp only [Term.strip, ofTerm, same]
    split <;> simp [strip, Term.strip, Term.stripAll, ih]

/-- **Regions do not depend on what nodes carry.** -/
theorem ofTerms_strip : ∀ ts : List Term,
    ofTerms scope (Term.stripAll ts) = (ofTerms scope ts).map strip
  | [] => by simp only [Term.stripAll, ofTerms, List.map_nil]
  | t :: ts => by
    simp only [Term.stripAll, ofTerms, List.map_append, ofTerm_strip t, ofTerms_strip ts]

theorem ofStatements_strip : ∀ run ts : List Term,
    ofStatements scope (Term.stripAll run) (Term.stripAll ts) =
      (ofStatements scope run ts).map strip
  | run, [] => by simp only [Term.stripAll, ofStatements, strip_close]
  | run, t :: ts => by
    have head := ofTerm_strip t
    have tail := ofStatements_strip [] ts
    have grown := ofStatements_strip (run ++ [t]) ts
    simp only [stripAll_append, Term.stripAll] at tail grown
    simp only [Term.stripAll, ofStatements, Term.isCompilable_strip scope t]
    split
    · exact grown
    · simp only [List.map_append, strip_close, head, tail]

end

/-- **Regions cover a program once and in order.**  Walking the regions that the queue gives
one after the other meets the nodes that walking the roots meets, in the same order.  The
nodes are the same ones, and not only equal: when they are numbered as a walk over the
roots meets them, which changes the regions in nothing but the numbers, the regions hold
each number once, in increasing order.

The queue is replaced by the recursion over terms.  A walk over a region is its cover, so
the first part is the cover of the recursion; the marks of a numbered program are its
pre-order, and that is what the cover lists. -/
theorem visited_partition (roots : List Term) :
    (partition scope roots).flatMap visited = roots.flatMap Term.visited ∧
      (partition scope (Term.numberAll 0 roots)).map strip = (partition scope roots).map strip ∧
      ((partition scope (Term.numberAll 0 roots)).flatMap visited).map Term.mark =
        List.range (roots.flatMap Term.visited).length := by
  have cover : ∀ ts : List Term,
      (ofTerms scope ts).flatMap visited = Term.preorders ts := by
    intro ts
    rw [funext visited_eq_cover, flatMap_cover_ofTerms]
  simp only [partition_eq_ofTerms]
  refine ⟨?_, ?_, ?_⟩
  · rw [cover, Term.flatMap_visited]
  · rw [← ofTerms_strip, ← ofTerms_strip, Term.stripAll_numberAll]
  · rw [cover, Term.map_mark_preorders_numberAll, Term.flatMap_visited, List.range_eq_range',
      Term.weight]

end Region

end Graft
