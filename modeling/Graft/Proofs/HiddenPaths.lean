import Graft.Proofs.HiddenVariables

/-! # Paths to hidden variables

Whether an operator is kept from the compiler depends on the hidden variables below it, but not on
all of them: the interpreter takes care of those that are below an operator without code.  This
module says which ones count, by the paths that lead to them (`Term.Path`): every term on the way
is an operator with code.

The recursion `Term.reachesHidden` finds exactly the terms with such a path, and so does a search
that looks at the nearest terms first (`Term.searchHidden`), since the answer of the search depends
only on which terms are in its queue and not on their order.
-/

namespace Graft.Term

/-- **A path down a term.**  It begins with the term itself, every later term on it is a part of the
one before, and it leads to a part of the last one, which is not on it. -/
inductive Path : Term → List Term → Term → Prop where
  | here (t : Term) : Path t [] t
  | down {t k n : Term} {path : List Term} : k ∈ t.kids → Path k path n → Path t (t :: path) n

/-- A path goes on to a part of the term that it leads to. -/
theorem Path.onward {t n k : Term} {path : List Term} (h : t.Path path n) (hk : k ∈ n.kids) :
    t.Path (path ++ [n]) k := by
  induction h with
  | here t => exact .down hk (.here k)
  | down hm _ ih => exact .down hm (ih hk)

/-- Is the term an operator that the compiler has code for? -/
def isCoded : Term → Bool
  | op _ c _ _ => c.isCatalogued
  | _ => false

/-- A path to a hidden variable on which there are only operators with code. -/
structure LeadsToHidden (scope : Scope) (t : Term) (path : List Term) (n : Term) : Prop where
  leads : t.Path path n
  hidden : n.hides scope = true
  coded : ∀ u ∈ path, u.isCoded = true

variable {scope : Scope} {t : Term}

/-! ### The recursion -/

theorem reachesHiddenAny_eq_any (ts : List Term) :
    reachesHiddenAny scope ts = ts.any (reachesHidden scope) := by
  induction ts with
  | nil => simp [reachesHiddenAny]
  | cons t ts ih => simp [reachesHiddenAny, ih]

/-- A hidden variable is reached at the term itself, or through an operator with code. -/
theorem reachesHidden_eq (scope : Scope) (t : Term) : t.reachesHidden scope =
    (t.hides scope || (t.isCoded && t.kids.any (reachesHidden scope))) := by
  cases t with
  | leaf a l => simp [reachesHidden_leaf, isCoded]
  | op a c b ts => simp [reachesHidden, hides, isCoded, kids, reachesHiddenAny_eq_any]
  | statement a t => simp [reachesHidden, hides, isCoded]
  | sequence a ts => simp [reachesHidden, hides, isCoded]
  | control a f ts => simp [reachesHidden, hides, isCoded]

theorem reachesHidden_of_kid {k : Term} (ht : t.isCoded = true) (hk : k ∈ t.kids)
    (h : k.reachesHidden scope = true) : t.reachesHidden scope = true := by
  rw [reachesHidden_eq, ht, Bool.true_and, Bool.or_eq_true, List.any_eq_true]
  exact .inr ⟨k, hk, h⟩

/-- Where a path begins the variable is reached, and so it is from every term on the way. -/
theorem LeadsToHidden.reaches {path : List Term} {n : Term} (h : t.LeadsToHidden scope path n) :
    t.reachesHidden scope = true ∧ ∀ u ∈ path, u.reachesHidden scope = true := by
  obtain ⟨hp, hn, hc⟩ := h
  induction hp with
  | here t =>
    rw [reachesHidden_eq, hn]
    simp
  | down hk _ ih =>
    obtain ⟨ht, hc⟩ := List.forall_mem_cons.mp hc
    obtain ⟨below, onward⟩ := ih hn hc
    have whole := reachesHidden_of_kid ht hk below
    exact ⟨whole, List.forall_mem_cons.mpr ⟨whole, onward⟩⟩

/-- What is reached has a path that leads to it. -/
theorem exists_path_of_reachesHidden (h : t.reachesHidden scope = true) :
    ∃ path n, t.LeadsToHidden scope path n := by
  induction t using induction with
  | step t ih =>
    rw [reachesHidden_eq, Bool.or_eq_true, Bool.and_eq_true, List.any_eq_true] at h
    rcases h with hides | ⟨coded, k, hk, below⟩
    · exact ⟨[], t, .here t, hides, by simp⟩
    · obtain ⟨path, n, hp, hn, hc⟩ := ih k hk below
      exact ⟨t :: path, n, .down hk hp, hn, List.forall_mem_cons.mpr ⟨coded, hc⟩⟩

/-! ### The search -/

theorem weight_expand (t : Term) (queue : List Term) :
    weight (queue ++ t.kids) < weight (t :: queue) := by
  have below := weight_kids_lt t
  simp only [weight, preorders_append, preorders, List.length_append] at below ⊢
  omega

theorem weight_drop (t : Term) (queue : List Term) : weight queue < weight (t :: queue) := by
  have some_term : 0 < t.preorder.length := List.length_pos_of_mem (mem_preorder_self t)
  simp only [weight, preorders, List.length_append]
  omega

/-- **Search breadth-first.**  The term at the front of the queue is looked at; if it is an operator
with code, its operands join the queue at the back. -/
def searchHidden (scope : Scope) : List Term → Bool
  | [] => false
  | t :: queue =>
    if t.hides scope then true
    else if t.isCoded then searchHidden scope (queue ++ t.kids)
    else searchHidden scope queue
termination_by queue => weight queue
decreasing_by
  · exact weight_expand t queue
  · exact weight_drop t queue

/-- **The search succeeds if something is reached from a term in the queue.**  This is the invariant
of the loop: a round takes a term out of the queue and puts in the terms that it stands for. -/
theorem searchHidden_eq_any (scope : Scope) (queue : List Term) :
    searchHidden scope queue = queue.any (reachesHidden scope) := by
  fun_induction searchHidden scope queue with
  | case1 => rfl
  | case2 t queue hides => simp [reachesHidden_eq scope t, hides]
  | case3 t queue hides coded ih =>
    -- the search puts the kids behind the queue, the recursion looks at them before it
    rw [ih, List.any_append, List.any_cons, reachesHidden_eq scope t, coded, Bool.or_comm]
    simp [hides]
  | case4 t queue hides coded ih => simp [ih, reachesHidden_eq scope t, hides, coded]

theorem not_isCompilable_of_reachesHidden (ht : t.isCoded = true)
    (h : t.reachesHidden scope = true) : t.isCompilable scope = false := by
  cases t with
  | op a c b ts => simp [isCompilable, h]
  | _ => simp [isCoded] at ht

/-- **What is kept from the compiler for the sake of hidden variables.**  A hidden variable is
reached from a term, by the recursion and by the search, if a path of operators with code leads
from the term to it; and the compiler takes no operator on such a path.

From each term on the path the rest of the path leads to the same variable, so all of them reach it,
and a term that has code is not taken if it does. -/
theorem reachesHidden_iff_path (scope : Scope) (t : Term) :
    searchHidden scope [t] = t.reachesHidden scope ∧
    (t.reachesHidden scope = true ↔ ∃ path n, t.LeadsToHidden scope path n) ∧
    ∀ path n, t.LeadsToHidden scope path n → ∀ u ∈ path, u.isCompilable scope = false := by
  refine ⟨by simp [searchHidden_eq_any], ⟨exists_path_of_reachesHidden, ?_⟩, ?_⟩
  · rintro ⟨path, n, h⟩
    exact h.reaches.1
  · intro path n h u hu
    exact not_isCompilable_of_reachesHidden (h.coded u hu) (h.reaches.2 u hu)

end Graft.Term
