import Graft.Term.Walk
import Mathlib.Algebra.BigOperators.Group.List.Basic
import Mathlib.Algebra.Ring.Nat

/-! # Where a walk is steered to

A visitor has a state, so what it answers at a term depends on the visits before.  Equal terms may
stand at several places, and the same visitor may answer differently at each.  This module therefore
tells the places of a term apart by their addresses (`Term.partAt?`) and lists the visits of a walk
with the address and the answer of each (`Term.visits`).

`Steered` says which list that is, in terms of the answers alone: the places in pre-order, without
those below a term that was skipped, and none after the first term at which the walk was ended.  By
its order and its places the list is determined, so nothing is left open by that.

The list is defined by recursion beside the walk, and that the visitor sees just these visits is
shown with a visitor that also records what it is shown (`Term.walk_recording`).  Which places are
in it is shown by induction over the term, for the parts of a term one after the other, with the
number of the part in front of the addresses.
-/

namespace Graft.Term

variable {σ : Type} {visit : Term → σ → Steer × σ}

/-! ### Places in a term -/

/-- A place in a term: at each level the number of the part that it is in. -/
abbrev Address := List Nat

/-- The part of a term at an address. -/
def partAt? (t : Term) : Address → Option Term
  | [] => some t
  | i :: p => t.kids[i]?.bind fun k => k.partAt? p

/-- The place `p` is properly above `q`. -/
def Above (p q : Address) : Prop := p <+: q ∧ p ≠ q

/-- **Pre-order.**  A place comes before those below it, and whatever is in one part before whatever
is in a later one. -/
def Before : Address → Address → Prop
  | _, [] => False
  | [], _ :: _ => True
  | i :: p, j :: q => i < j ∨ i = j ∧ Before p q

@[simp]
theorem not_above_nil (p : Address) : ¬ Above p [] := by
  rintro ⟨h, hne⟩
  exact hne (List.prefix_nil.mp h)

@[simp]
theorem nil_above_cons (i : Nat) (p : Address) : Above [] (i :: p) := ⟨List.nil_prefix, nofun⟩

@[simp]
theorem cons_above_cons (i j : Nat) (p q : Address) :
    Above (i :: p) (j :: q) ↔ i = j ∧ Above p q := by
  unfold Above
  rw [List.cons_prefix_cons, ne_eq, List.cons_eq_cons, and_assoc]
  tauto

@[simp]
theorem not_before_nil (p : Address) : ¬ Before p [] := by
  cases p <;> exact id

@[simp]
theorem nil_before_cons (i : Nat) (p : Address) : Before [] (i :: p) := trivial

@[simp]
theorem cons_before_cons (i j : Nat) (p q : Address) :
    Before (i :: p) (j :: q) ↔ i < j ∨ i = j ∧ Before p q := Iff.rfl

/-! ### The visits of a walk -/

/-- One visit: the place, the term that stands there, and the visitor's answer. -/
structure Visit where
  address : Address
  node : Term
  answer : Steer

/-- A visit in the part of that number. -/
def Visit.below (i : Nat) (v : Visit) : Visit := { v with address := i :: v.address }

/-- The visits at a term and below it, where `rest` are those of the parts. -/
def visitsFrom (visit : Term → σ → Steer × σ) (t : Term) (rest : σ → List Visit) (s : σ) :
    List Visit :=
  ⟨[], t, (visit t s).1⟩ :: if (visit t s).1 = .onward then rest (visit t s).2 else []

mutual

/-- The visits of a walk, in the order in which they are made. -/
def visits (visit : Term → σ → Steer × σ) : Term → σ → List Visit
  | leaf a l => visitsFrom visit (leaf a l) fun _ => []
  | op a c b ts => visitsFrom visit (op a c b ts) (visitsAll visit 0 ts)
  | statement a t =>
    visitsFrom visit (statement a t) fun s => (visits visit t s).map (Visit.below 0)
  | sequence a ts => visitsFrom visit (sequence a ts) (visitsAll visit 0 ts)
  | control a f ts => visitsFrom visit (control a f ts) (visitsAll visit 0 ts)

/-- The visits in parts that are numbered from `i` on, until the walk is ended. -/
def visitsAll (visit : Term → σ → Steer × σ) : Nat → List Term → σ → List Visit
  | _, [], _ => []
  | i, t :: ts, s => (visits visit t s).map (Visit.below i) ++
      if (walk visit t s).1 then visitsAll visit (i + 1) ts (walk visit t s).2 else []

end

theorem visits_eq (t : Term) (s : σ) :
    visits visit t s = visitsFrom visit t (visitsAll visit 0 t.kids) s := by
  cases t with
  | statement a t =>
    have one : visitsAll visit 0 [t] = fun s => (visits visit t s).map (Visit.below 0) := by
      funext s
      simp [visitsAll]
    rw [kids, one, visits]
  | _ => rw [visits]; rfl

/-- **What a walk does at a term**, by the visitor's answer. -/
theorem walk_cases (visit : Term → σ → Steer × σ) (t : Term) (s : σ) :
    ((visit t s).1 = .onward ∧ walk visit t s = walkAll visit t.kids (visit t s).2 ∧
      visits visit t s = ⟨[], t, .onward⟩ :: visitsAll visit 0 t.kids (visit t s).2) ∨
    ((visit t s).1 = .skip ∧ walk visit t s = (true, (visit t s).2) ∧
      visits visit t s = [⟨[], t, .skip⟩]) ∨
    ((visit t s).1 = .abort ∧ walk visit t s = (false, (visit t s).2) ∧
      visits visit t s = [⟨[], t, .abort⟩]) := by
  rw [walk_eq, visits_eq, enter, visitsFrom]
  rcases visit t s with ⟨_ | _ | _, s'⟩ <;> simp

theorem walkAll_cons (t : Term) (ts : List Term) (s : σ) : walkAll visit (t :: ts) s =
    if (walk visit t s).1 then walkAll visit ts (walk visit t s).2
    else (false, (walk visit t s).2) := by
  rw [walkAll]
  rcases walk visit t s with ⟨_ | _, s'⟩ <;> rfl

/-! ### What the visitor sees -/

/-- The visitor, with a list of the terms that it has visited and of its answers. -/
def recording (visit : Term → σ → Steer × σ) (u : Term) (s : σ × List (Term × Steer)) :
    Steer × σ × List (Term × Steer) :=
  ((visit u s.1).1, (visit u s.1).2, s.2 ++ [(u, (visit u s.1).1)])

/-- What the visitor can see of a visit. -/
def Visit.record (v : Visit) : Term × Steer := (v.node, v.answer)

theorem map_record_below (i : Nat) (vs : List Visit) :
    (vs.map (Visit.below i)).map Visit.record = vs.map Visit.record := by
  rw [List.map_map]
  rfl

theorem walkAll_recording {ts : List Term}
    (ih : ∀ t ∈ ts, ∀ s seen, walk (recording visit) t (s, seen) =
      ((walk visit t s).1, (walk visit t s).2, seen ++ (visits visit t s).map Visit.record))
    (i : Nat) (s : σ) (seen : List (Term × Steer)) :
    walkAll (recording visit) ts (s, seen) = ((walkAll visit ts s).1, (walkAll visit ts s).2,
      seen ++ (visitsAll visit i ts s).map Visit.record) := by
  induction ts generalizing i s seen with
  | nil => simp [walkAll, visitsAll]
  | cons t ts ihts =>
    obtain ⟨head, tail⟩ := List.forall_mem_cons.mp ih
    rw [walkAll_cons, walkAll_cons, head, visitsAll, List.map_append, map_record_below]
    split
    next => simp only [ihts tail (i + 1), List.append_assoc]
    next => simp

/-- **The visits are those that the visitor sees**, in this order and with these answers. -/
theorem walk_recording (t : Term) (s : σ) (seen : List (Term × Steer)) :
    walk (recording visit) t (s, seen) =
      ((walk visit t s).1, (walk visit t s).2, seen ++ (visits visit t s).map Visit.record) := by
  induction t using induction generalizing s seen with
  | step t ih =>
    have here : walk (recording visit) t (s, seen) = enter (recording visit) t
        (walkAll (recording visit) t.kids) (s, seen) := by rw [walk_eq]
    rw [here, enter, recording]
    rcases walk_cases visit t s with ⟨ha, hw, hv⟩ | ⟨ha, hw, hv⟩ | ⟨ha, hw, hv⟩ <;>
      simp only [ha, hw, hv]
    · rw [walkAll_recording ih 0, List.map_cons, List.append_assoc]
      rfl
    · rfl
    · rfl

theorem walkAll_eq_false_iff {ts : List Term} (ih : ∀ t ∈ ts, ∀ s,
      (walk visit t s).1 = false ↔ ∃ v ∈ visits visit t s, v.answer = .abort) (i : Nat) (s : σ) :
    (walkAll visit ts s).1 = false ↔ ∃ v ∈ visitsAll visit i ts s, v.answer = .abort := by
  induction ts generalizing i s with
  | nil => simp [walkAll, visitsAll]
  | cons t ts ihts =>
    obtain ⟨head, tail⟩ := List.forall_mem_cons.mp ih
    have same : (∃ v ∈ (visits visit t s).map (Visit.below i), v.answer = .abort) ↔
        ∃ v ∈ visits visit t s, v.answer = .abort := by
      simp [Visit.below]
    simp only [walkAll_cons, visitsAll, List.mem_append, or_and_right, exists_or, same, ← head]
    split
    next done => simp [done, ihts tail (i + 1)]
    next ended => simp [ended]

/-- **A walk is ended** if the visitor ended it at some term that it visited. -/
theorem walk_eq_false_iff (t : Term) (s : σ) :
    (walk visit t s).1 = false ↔ ∃ v ∈ visits visit t s, v.answer = .abort := by
  induction t using induction generalizing s with
  | step t ih =>
    rcases walk_cases visit t s with ⟨-, hw, hv⟩ | ⟨-, hw, hv⟩ | ⟨-, hw, hv⟩ <;> rw [hw, hv]
    · rw [walkAll_eq_false_iff ih 0]
      simp
    · simp
    · simp

/-! ### Which places are visited -/

/-- No visit keeps the walk from `p`: nothing above `p` was skipped, and the walk was not ended
before it. -/
structure Allowed (vs : List Visit) (p : Address) : Prop where
  unskipped : ∀ v ∈ vs, v.answer = .skip → ¬ Above v.address p
  unended : ∀ v ∈ vs, v.answer = .abort → ¬ Before v.address p

/-- **The visits to the places of a term that their answers steer to**: each visit is to the term at
its address, the visits are in pre-order, and a place is visited unless it is below a skipped one or
after one at which the walk was ended. -/
structure Steered (place : Address → Option Term) (vs : List Visit) : Prop where
  placed : ∀ v ∈ vs, place v.address = some v.node
  ordered : vs.Pairwise fun v w => Before v.address w.address
  exact : ∀ p, (∃ v ∈ vs, v.address = p) ↔ (∃ u, place p = some u) ∧ Allowed vs p

theorem allowed_append {vs ws : List Visit} {p : Address} :
    Allowed (vs ++ ws) p ↔ Allowed vs p ∧ Allowed ws p := by
  constructor
  · rintro ⟨skip, abort⟩
    simp only [List.forall_mem_append] at skip abort
    exact ⟨⟨skip.1, abort.1⟩, ⟨skip.2, abort.2⟩⟩
  · rintro ⟨⟨skip, abort⟩, ⟨skip', abort'⟩⟩
    exact ⟨List.forall_mem_append.mpr ⟨skip, skip'⟩, List.forall_mem_append.mpr ⟨abort, abort'⟩⟩

/-- Before a term nothing is skipped or ended. -/
theorem allowed_nil (vs : List Visit) : Allowed vs [] :=
  ⟨fun _ _ _ => not_above_nil _, fun _ _ _ => not_before_nil _⟩

/-- Inside a part only the visits there matter. -/
theorem allowed_below {vs : List Visit} {i : Nat} {p : Address} :
    Allowed (vs.map (Visit.below i)) (i :: p) ↔ Allowed vs p := by
  constructor
  · rintro ⟨skip, abort⟩
    simp only [List.forall_mem_map, Visit.below, cons_above_cons, cons_before_cons,
      Nat.lt_irrefl, true_and, false_or] at skip abort
    exact ⟨skip, abort⟩
  · rintro ⟨skip, abort⟩
    constructor <;> simpa only [List.forall_mem_map, Visit.below, cons_above_cons, cons_before_cons,
      Nat.lt_irrefl, true_and, false_or]

/-- In a later part it matters only whether the walk has been ended. -/
theorem allowed_after {vs : List Visit} {i j : Nat} {p : Address} (h : i < j) :
    Allowed (vs.map (Visit.below i)) (j :: p) ↔ ¬ ∃ v ∈ vs, v.answer = .abort := by
  constructor
  · rintro ⟨-, abort⟩ ⟨v, hv, ha⟩
    exact abort (v.below i) (List.mem_map_of_mem hv) ha (.inl h)
  · intro unended
    constructor <;> simp only [List.forall_mem_map, Visit.below, cons_above_cons]
    · rintro v - - ⟨rfl, -⟩
      omega
    · intro v hv ha
      exact absurd ⟨v, hv, ha⟩ unended

/-- In an earlier part it does not matter what is visited later. -/
theorem allowed_before {vs : List Visit} {i : Nat} {p : Address}
    (h : ∀ v ∈ vs, ∃ j q, v.address = j :: q ∧ i < j) : Allowed vs (i :: p) := by
  constructor <;> intro v hv _ <;> obtain ⟨j, q, hj, hlt⟩ := h v hv <;> rw [hj]
  · rw [cons_above_cons]
    omega
  · rw [cons_before_cons]
    omega

/-- The part at an address below terms that are numbered from `i` on. -/
def partOf? : Nat → List Term → Address → Option Term
  | _, _, [] => none
  | _, [], _ :: _ => none
  | i, t :: ts, j :: p => if j = i then t.partAt? p else partOf? (i + 1) ts (j :: p)

theorem partOf?_cons (i : Nat) (ts : List Term) (j : Nat) (p : Address) :
    partOf? i ts (j :: p) = if j < i then none else ts[j - i]?.bind fun k => k.partAt? p := by
  induction ts generalizing i with
  | nil => simp [partOf?]
  | cons t ts ih =>
    rw [partOf?, ih]
    rcases Nat.lt_trichotomy j i with h | rfl | h
    · rw [if_neg (by omega), if_pos (by omega), if_pos h]
    · simp
    · have next : j - i = j - (i + 1) + 1 := by omega
      rw [if_neg (by omega), if_neg (by omega), if_neg (by omega), next, List.getElem?_cons_succ]

theorem partAt?_cons (t : Term) (j : Nat) (p : Address) :
    t.partAt? (j :: p) = partOf? 0 t.kids (j :: p) := by
  rw [partOf?_cons]
  rfl

/-- What is found below numbered terms has an address that begins with one of their numbers. -/
theorem le_of_partOf? {i : Nat} {ts : List Term} {p : Address} {u : Term}
    (h : partOf? i ts p = some u) : ∃ j q, p = j :: q ∧ i ≤ j := by
  cases p with
  | nil => simp [partOf?] at h
  | cons j q =>
    rw [partOf?_cons] at h
    refine ⟨j, q, rfl, ?_⟩
    by_contra hlt
    rw [if_pos (by omega)] at h
    cases h

namespace Steered

variable {i : Nat} {t : Term} {ts : List Term} {vs ws : List Visit}

theorem later (h : Steered (partOf? i ts) vs) :
    ∀ v ∈ vs, ∃ j q, v.address = j :: q ∧ i ≤ j :=
  fun v hv => le_of_partOf? (h.placed v hv)

theorem nil (i : Nat) : Steered (partOf? i []) [] := by
  refine ⟨nofun, .nil, fun p => ?_⟩
  cases p <;> simp [partOf?]

/-- The term is visited and the walk does not go on below it. -/
theorem halted (t : Term) {a : Steer} (ha : a ≠ .onward) : Steered t.partAt? [⟨[], t, a⟩] := by
  refine ⟨by simp [partAt?], List.pairwise_singleton .., fun p => ?_⟩
  cases p with
  | nil => simp [partAt?, allowed_nil]
  | cons j q =>
    have kept : ¬ Allowed [⟨[], t, a⟩] (j :: q) := by
      rintro ⟨skip, abort⟩
      cases a with
      | onward => exact ha rfl
      | skip => exact skip _ (List.mem_singleton_self _) rfl (nil_above_cons j q)
      | abort => exact abort _ (List.mem_singleton_self _) rfl (nil_before_cons j q)
    simp [kept]

/-- The term is visited and then its parts. -/
theorem onward (h : Steered (partOf? 0 t.kids) vs) :
    Steered t.partAt? (⟨[], t, .onward⟩ :: vs) := by
  refine ⟨List.forall_mem_cons.mpr ⟨rfl, fun v hv => ?_⟩, .cons (fun v hv => ?_) h.ordered,
    fun p => ?_⟩
  · obtain ⟨j, q, hj, -⟩ := h.later v hv
    rw [hj, partAt?_cons, ← hj]
    exact h.placed v hv
  · obtain ⟨j, q, hj, -⟩ := h.later v hv
    rw [hj]
    exact nil_before_cons j q
  · cases p with
    | nil => simp [partAt?, allowed_nil]
    | cons j q =>
      have same : Allowed (⟨[], t, .onward⟩ :: vs) (j :: q) ↔ Allowed vs (j :: q) := by
        rw [← List.singleton_append, allowed_append]
        refine and_iff_right ⟨?_, ?_⟩ <;> simp
      rw [same, partAt?_cons, ← h.exact]
      simp

section Row

variable (hw : (¬ ∃ v ∈ vs, v.answer = .abort) → Steered (partOf? (i + 1) ts) ws)
  (hnil : (∃ v ∈ vs, v.answer = .abort) → ws = [])
include hw hnil

/-- There are visits in later parts only if the walk was not ended in the first. -/
theorem placed_rest : ∀ w ∈ ws, partOf? (i + 1) ts w.address = some w.node := by
  intro w hmem
  by_cases ended : ∃ v ∈ vs, v.answer = .abort
  · rw [hnil ended] at hmem
    cases hmem
  · exact (hw ended).placed w hmem

theorem later_rest : ∀ w ∈ ws, ∃ j q, w.address = j :: q ∧ i < j :=
  fun w hmem => le_of_partOf? (placed_rest hw hnil w hmem)

theorem ordered_rest : ws.Pairwise fun v w => Before v.address w.address := by
  by_cases ended : ∃ v ∈ vs, v.answer = .abort
  · rw [hnil ended]
    exact .nil
  · exact (hw ended).ordered

/-- A place in a later part is visited if it is visited there. -/
theorem exact_rest {j : Nat} {q : Address} : (∃ w ∈ ws, w.address = j :: q) ↔
    (∃ u, partOf? (i + 1) ts (j :: q) = some u) ∧
      Allowed (vs.map (Visit.below i)) (j :: q) ∧ Allowed ws (j :: q) := by
  have after : ∀ u, partOf? (i + 1) ts (j :: q) = some u → i < j := by
    intro u hu
    obtain ⟨k, r, hk, hlt⟩ := le_of_partOf? hu
    rw [List.cons_eq_cons] at hk
    omega
  by_cases ended : ∃ v ∈ vs, v.answer = .abort
  · rw [hnil ended]
    constructor
    · simp
    · rintro ⟨⟨u, hu⟩, allowed, -⟩
      exact absurd ended ((allowed_after (after u hu)).mp allowed)
  · rw [(hw ended).exact]
    refine and_congr_right ?_
    rintro ⟨u, hu⟩
    rw [and_iff_right ((allowed_after (after u hu)).mpr ended)]

/-- The first part is visited and, unless the walk is ended there, the others. -/
theorem cons (h : Steered t.partAt? vs) :
    Steered (partOf? i (t :: ts)) (vs.map (Visit.below i) ++ ws) := by
  have later := later_rest hw hnil
  refine ⟨List.forall_mem_append.mpr ⟨?_, fun w hmem => ?_⟩, ?_, fun p => ?_⟩
  · simpa [Visit.below, partOf?] using h.placed
  · obtain ⟨j, q, hj, hlt⟩ := later w hmem
    rw [hj, partOf?, if_neg (by omega), ← hj]
    exact placed_rest hw hnil w hmem
  · rw [List.pairwise_append, List.pairwise_map]
    refine ⟨by simpa [Visit.below] using h.ordered, ordered_rest hw hnil, ?_⟩
    simp only [List.forall_mem_map]
    intro v _ w hmem
    obtain ⟨j, q, hj, hlt⟩ := later w hmem
    rw [hj]
    exact .inl hlt
  · simp only [List.mem_append, or_and_right, exists_or, allowed_append]
    cases p with
    | nil =>
      have rest : ∀ w ∈ ws, w.address ≠ [] := by
        intro w hmem hp
        obtain ⟨j, q, hj, -⟩ := later w hmem
        cases hj.symm.trans hp
      simpa [Visit.below, partOf?] using rest
    | cons j q =>
      by_cases hj : j = i
      · subst hj
        have rest : ¬ ∃ w ∈ ws, w.address = j :: q := by
          rintro ⟨w, hmem, hp⟩
          obtain ⟨k, r, hk, hlt⟩ := later w hmem
          rw [hk, List.cons_eq_cons] at hp
          omega
        rw [or_iff_left rest, partOf?, if_pos rfl, allowed_below,
          and_iff_left (allowed_before later), ← h.exact]
        simp [Visit.below]
      · have first : ¬ ∃ v ∈ vs.map (Visit.below i), v.address = j :: q := by
          simp [Visit.below, Ne.symm hj]
        rw [or_iff_right first, partOf?, if_neg hj]
        exact exact_rest hw hnil

end Row

end Steered

theorem steered_visitsAll {ts : List Term}
    (ih : ∀ t ∈ ts, ∀ s, Steered t.partAt? (visits visit t s))
    (i : Nat) (s : σ) : Steered (partOf? i ts) (visitsAll visit i ts s) := by
  induction ts generalizing i s with
  | nil => exact .nil i
  | cons t ts ihts =>
    obtain ⟨head, tail⟩ := List.forall_mem_cons.mp ih
    rw [visitsAll]
    refine .cons ?_ ?_ (head s) <;> rw [← walk_eq_false_iff] <;> intro done
    · rw [if_pos (by simpa using done)]
      exact ihts tail (i + 1) _
    · rw [if_neg (by simpa using done)]

/-- **A walk makes the visits that its answers steer to.** -/
theorem steered_visits (visit : Term → σ → Steer × σ) (t : Term) (s : σ) :
    Steered t.partAt? (visits visit t s) := by
  induction t using induction generalizing s with
  | step t ih =>
    rcases walk_cases visit t s with ⟨-, -, hv⟩ | ⟨-, -, hv⟩ | ⟨-, -, hv⟩ <;> rw [hv]
    · exact .onward (steered_visitsAll ih 0 _)
    · exact .halted t nofun
    · exact .halted t nofun

/-! ### The number of terms -/

theorem walkAll_count {ts : List Term} (ih : ∀ t ∈ ts, ∀ n : Nat,
      walk (fun _ n => (.onward, n + 1)) t n = (true, n + t.preorder.length)) (n : Nat) :
    walkAll (fun _ n => (.onward, n + 1)) ts n = (true, n + weight ts) := by
  induction ts generalizing n with
  | nil => rfl
  | cons t ts ihts =>
    obtain ⟨head, tail⟩ := List.forall_mem_cons.mp ih
    rw [walkAll_cons, head, if_pos rfl, ihts tail, weight, weight, preorders, List.length_append,
      Nat.add_assoc]

theorem walk_count (t : Term) (n : Nat) :
    walk (fun _ n => (.onward, n + 1)) t n = (true, n + t.preorder.length) := by
  induction t using induction generalizing n with
  | step t ih =>
    have parts : walk (fun _ n => (.onward, n + 1)) t n =
        walkAll (fun _ n => (.onward, n + 1)) t.kids (n + 1) := by
      rw [walk_eq]
      rfl
    rw [parts, walkAll_count ih, preorder_eq, List.length_cons, weight, Nat.add_right_comm,
      Nat.add_assoc]

theorem nodeCount_eq_length (t : Term) : t.nodeCount = t.preorder.length := by
  rw [nodeCount, walk_count, Nat.zero_add]

theorem weight_eq_sum (ts : List Term) : weight ts = (ts.map nodeCount).sum := by
  induction ts with
  | nil => rfl
  | cons t ts ih =>
    rw [List.map_cons, List.sum_cons, ← ih, nodeCount_eq_length, weight, preorders,
      List.length_append, weight]

/-- A term counts as one more than its parts. -/
theorem nodeCount_eq_sum (t : Term) : t.nodeCount = 1 + (t.kids.map nodeCount).sum := by
  rw [nodeCount_eq_length, preorder_eq, List.length_cons, ← weight_eq_sum, weight, Nat.add_comm]

/-- **A walk visits what it is steered to.**  For every visitor, whatever it keeps in its state: the
terms that it is shown, with what it answers, are the visits of the walk; these are the places of
the term in pre-order, without those below a skipped one and cut off after the first at which the
walk was ended.  The walk is ended if and only if such a place was visited.  The number of terms,
which is counted by a walk, is one more than that of the parts together.

Along the walk the list of visits grows as the record of a visitor does that also keeps what it is
shown.  Which places it holds follows by induction over the term, by the three answers at its
top. -/
theorem walk_steered (visit : Term → σ → Steer × σ) (t : Term) (s : σ) :
    walk (recording visit) t (s, []) =
      ((walk visit t s).1, (walk visit t s).2, (visits visit t s).map Visit.record) ∧
    Steered t.partAt? (visits visit t s) ∧
    ((walk visit t s).1 = false ↔ ∃ v ∈ visits visit t s, v.answer = .abort) ∧
    t.nodeCount = 1 + (t.kids.map nodeCount).sum := by
  refine ⟨?_, steered_visits visit t s, walk_eq_false_iff t s, nodeCount_eq_sum t⟩
  rw [walk_recording, List.nil_append]

end Graft.Term
