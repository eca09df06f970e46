import Graft.Proofs.Access
import Mathlib.Logic.Relation

/-! # Heirs and parents

Splicing follows two kinds of links before it changes anything.  Heirs lead from an op
that the compiler named to the one that stands in its place now; since heirs are younger
than what they replaced, `Graph.resolve` gets to the end of them (`Graph.Stands.resolve`).
Parents lead from the first op of a range up to the sibling that holds it; a way up exists
without repetitions whenever one exists, so that the bound of the climb is enough
(`Graph.Rises.childWithin`).

Both walks are given a number of steps by the program.  That the number is enough is shown in
two ways.  Along heirs the places in the arena grow, so there are at most as many steps as
ops.  Parents need not be in any order, and a graph with parents in a circle is possible; but
of a way up that leads somewhere the repetitions can be cut out (`Graph.Rises.climbs`), and
one without repetitions is no longer than the arena.

When a unit is put in a place, its op becomes the heir of the ops that it replaces
(`Graph.Inherits`).  What stood there stands at the new op (`Graph.stands_new`), and what stood
elsewhere has not moved (`Graph.stands_other`).
-/

namespace Graft.Graph

variable {g g' : Graph} {x y z top : OpId}

/-! ### Heirs -/

/-- `y` was put in the place of `x`. -/
def Heir (g : Graph) (x y : OpId) : Prop := ∃ op, g.op? x = some op ∧ op.heir = some y

/-- Where `x` stood, `y` stands now. -/
def Stands (g : Graph) (x y : OpId) : Prop :=
  Relation.ReflTransGen g.Heir x y ∧ ∃ op, g.op? y = some op ∧ op.heir = none

/-- Heirs are younger than what they replaced. -/
def Ordered (g : Graph) : Prop := ∀ x y, g.Heir x y → x.index < y.index

theorem Ordered.le_of_path (h : Ordered g) (hp : Relation.ReflTransGen g.Heir x y) :
    x.index ≤ y.index := by
  induction hp with
  | refl => exact Nat.le_refl _
  | tail _ hs ih => exact Nat.le_trans ih (Nat.le_of_lt (h _ _ hs))

/-- **Heirs are followed to their end.** -/
theorem Stands.resolve (hs : Stands g x y) (h : Ordered g) : g.resolve x = y := by
  obtain ⟨path, op, ho, hnone⟩ := hs
  have last : ∀ n, g.resolveWithin n y = y := by
    intro n
    cases n with
    | zero => rfl
    | succ n => rw [resolveWithin, ho, Option.bind_some, hnone]
  have go : ∀ n, y.index - x.index ≤ n → g.resolveWithin n x = y := by
    induction path using Relation.ReflTransGen.head_induction_on with
    | refl => exact fun n _ => last n
    | @head u v step path ih =>
      intro n hn
      have up := h u v step
      have le := h.le_of_path path
      obtain ⟨n, rfl⟩ : ∃ k, n = k + 1 := ⟨n - 1, by omega⟩
      obtain ⟨op, ho, hheir⟩ := step
      rw [resolveWithin, ho, Option.bind_some, hheir]
      exact ih n (by omega)
  have bound := lt_size_of_op? ho
  exact go g.size (by omega)

/-- What has no heir stands where it stood. -/
theorem Stands.refl {op : Op} (ho : g.op? x = some op) (hn : op.heir = none) : Stands g x x :=
  ⟨.refl, op, ho, hn⟩

theorem Stands.exists_op? (h : Stands g x y) : ∃ op, g.op? x = some op := by
  obtain ⟨path, op, ho, -⟩ := h
  rcases Relation.ReflTransGen.cases_head path with rfl | ⟨z, ⟨o, hx, -⟩, -⟩
  · exact ⟨op, ho⟩
  · exact ⟨o, hx⟩

/-- A place is taken by one op. -/
theorem Stands.unique (h : Stands g x y) (h' : Stands g x z) : y = z := by
  obtain ⟨path, oy, hoy, hny⟩ := h
  obtain ⟨path', oz, hoz, hnz⟩ := h'
  have ends : ∀ {u v : OpId} {o : Op}, g.op? u = some o → o.heir = none →
      Relation.ReflTransGen g.Heir u v → v = u := by
    intro u v o ho hn huv
    rcases Relation.ReflTransGen.cases_head huv with h | ⟨w, ⟨o', ho', hw⟩, -⟩
    · exact h.symm
    · rw [ho] at ho'
      cases ho'
      rw [hn] at hw
      cases hw
  have rightUnique : Relator.RightUnique g.Heir := by
    rintro a b c ⟨o, ho, hb⟩ ⟨o', ho', hc⟩
    rw [ho] at ho'
    cases ho'
    exact Option.some.inj (hb.symm.trans hc)
  rcases Relation.ReflTransGen.total_of_right_unique rightUnique path path' with h | h
  · exact (ends hoy hny h).symm
  · exact ends hoz hnz h

/-- Heirs that are kept lead to the same op. -/
theorem Stands.mono (hs : Stands g x y) (h : ∀ x op, g.op? x = some op →
    ∃ op', g'.op? x = some op' ∧ op'.heir = op.heir) : Stands g' x y := by
  obtain ⟨path, op, ho, hn⟩ := hs
  obtain ⟨op', ho', hsame⟩ := h y op ho
  have keeps : ∀ u v, g.Heir u v → g'.Heir u v := by
    rintro u v ⟨o, hu, hheir⟩
    obtain ⟨o', hu', hsame⟩ := h u o hu
    exact ⟨o', hu', hsame.trans hheir⟩
  exact ⟨Relation.ReflTransGen.mono keeps _ _ path, op', ho', hsame.trans hn⟩

/-- **The graph has got a new op, the heir of three of its ops**; all others keep theirs. -/
structure Inherits (first last front : OpId) (g g' : Graph) : Prop where
  size : g'.size = g.size + 1
  new : ∃ op, g'.op? ⟨g.size⟩ = some op ∧ op.heir = none
  ops : ∀ x op, g.op? x = some op → ∃ op', g'.op? x = some op' ∧
    op'.heir = if x = first ∨ x = last ∨ x = front then some ⟨g.size⟩ else op.heir

namespace Inherits

variable {first last front : OpId}

/-- Every op but the new one was there before. -/
theorem op_inv (h : Inherits first last front g g') {op' : Op} (ho : g'.op? x = some op') :
    x = ⟨g.size⟩ ∨ ∃ op, g.op? x = some op := by
  have lt := lt_size_of_op? ho
  rw [h.size] at lt
  by_cases hx : x.index = g.size
  · exact .inl (by cases x; exact congrArg OpId.mk hx)
  · exact .inr (exists_op? (by omega))

/-- The new op is younger than all that it is the heir of. -/
theorem ordered (h : Inherits first last front g g') (hord : Ordered g) : Ordered g' := by
  rintro x y ⟨op', ho', hheir⟩
  rcases h.op_inv ho' with rfl | ⟨op, ho⟩
  · obtain ⟨n, hn, hnone⟩ := h.new
    obtain rfl : op' = n := Option.some.inj (ho'.symm.trans hn)
    rw [hnone] at hheir
    cases hheir
  · obtain ⟨op₁, ho₁, he⟩ := h.ops x op ho
    obtain rfl : op' = op₁ := Option.some.inj (ho'.symm.trans ho₁)
    rw [he] at hheir
    split at hheir
    · cases hheir
      exact lt_size_of_op? ho
    · exact hord x y ⟨op, ho, hheir⟩

theorem new_stands (h : Inherits first last front g g') : Stands g' ⟨g.size⟩ ⟨g.size⟩ := by
  obtain ⟨n, hn, hnone⟩ := h.new
  exact .refl hn hnone

/-- **The new op stands where the three stood.** -/
theorem stands_new (h : Inherits first last front g g') (hy : y = first ∨ y = last ∨ y = front)
    (hs : Stands g x y) : Stands g' x ⟨g.size⟩ := by
  obtain ⟨path, op, ho, -⟩ := hs
  refine ⟨?_, h.new_stands.2⟩
  induction path using Relation.ReflTransGen.head_induction_on with
  | refl =>
    obtain ⟨op', ho', he⟩ := h.ops y op ho
    exact .single ⟨op', ho', he.trans (if_pos hy)⟩
  | @head u v step _ ih =>
    obtain ⟨o, ho, hheir⟩ := step
    obtain ⟨o', ho', he⟩ := h.ops u o ho
    split at he
    · exact .single ⟨o', ho', he⟩
    · exact .head ⟨o', ho', he.trans hheir⟩ ih

/-- **What stood elsewhere stands there still.** -/
theorem stands_other (h : Inherits first last front g g') (hfront : Stands g first front)
    (hlast : Stands g last last) (hy : y ≠ front) (hy' : y ≠ last) (hs : Stands g x y) :
    Stands g' x y := by
  have ends := hs.2
  have other : ∀ u, Relation.ReflTransGen g.Heir u y → ¬ (u = first ∨ u = last ∨ u = front) := by
    rintro u path (rfl | rfl | rfl)
    · exact hy (Stands.unique ⟨path, ends⟩ hfront)
    · exact hy' (Stands.unique ⟨path, ends⟩ hlast)
    · exact hy (Stands.unique ⟨path, ends⟩ ⟨.refl, hfront.2⟩)
  obtain ⟨path, op, ho, hnone⟩ := hs
  obtain ⟨op', ho', he⟩ := h.ops y op ho
  refine ⟨?_, op', ho', (he.trans (if_neg (other y .refl))).trans hnone⟩
  clear ho ho' he hnone
  induction path using Relation.ReflTransGen.head_induction_on with
  | refl => exact .refl
  | @head u v step path ih =>
    obtain ⟨o, ho, hheir⟩ := step
    obtain ⟨o', ho', he⟩ := h.ops u o ho
    rw [if_neg (other u (.head ⟨o, ho, hheir⟩ path))] at he
    exact .head ⟨o', ho', he.trans hheir⟩ ih

end Inherits

/-! ### Parents -/

/-- `y` is the parent of `x`. -/
def Up (g : Graph) (x y : OpId) : Prop := ∃ op, g.op? x = some op ∧ op.parent = some y

/-- From `x` parents lead to `top`, by ops in `S`. -/
def Rises (g : Graph) (S : OpId → Prop) (x top : OpId) : Prop :=
  Relation.ReflTransGen (fun u v => g.Up u v ∧ S v) x top

/-- A way up, with the ops on it. -/
inductive Climbs (g : Graph) (S : OpId → Prop) (top : OpId) : OpId → List OpId → Prop where
  | here : Climbs g S top top [top]
  | up {x y : OpId} {ys : List OpId} : g.Up x y → S y → Climbs g S top y ys →
      Climbs g S top x (x :: ys)

variable {S : OpId → Prop} {xs ys : List OpId}

/-- From every op on a way up there is one that repeats no more. -/
theorem Climbs.from (h : Climbs g S top y ys) (hx : x ∈ ys) :
    ∃ zs, Climbs g S top x zs ∧ zs.Sublist ys := by
  induction h with
  | here =>
    obtain rfl := List.mem_singleton.mp hx
    exact ⟨_, .here, .refl _⟩
  | @up u v vs hup hs hclimb ih =>
    rcases List.mem_cons.mp hx with rfl | hx
    · exact ⟨_, .up hup hs hclimb, .refl _⟩
    · obtain ⟨zs, hz, hsub⟩ := ih hx
      exact ⟨zs, hz, hsub.cons u⟩

/-- **A way up need not repeat an op.** -/
theorem Rises.climbs (h : Rises g S x top) : ∃ xs, Climbs g S top x xs ∧ xs.Nodup := by
  induction h using Relation.ReflTransGen.head_induction_on with
  | refl => exact ⟨[top], .here, by simp⟩
  | @head u v step _ ih =>
    obtain ⟨ys, hys, hn⟩ := ih
    by_cases hu : u ∈ ys
    · obtain ⟨zs, hzs, hsub⟩ := hys.from hu
      exact ⟨zs, hzs, hn.sublist hsub⟩
    · exact ⟨u :: ys, .up step.1 step.2 hys, List.nodup_cons.mpr ⟨hu, hn⟩⟩

theorem Climbs.lt_size (h : Climbs g S top x xs) {op : Op} (ho : g.op? top = some op) :
    ∀ u ∈ xs, u.index < g.size := by
  induction h with
  | here => simpa using lt_size_of_op? ho
  | up hup _ _ ih =>
    obtain ⟨o, ho', -⟩ := hup
    exact List.forall_mem_cons.mpr ⟨lt_size_of_op? ho', ih⟩

theorem Climbs.childWithin {p : Option OpId} {op : Op} (h : Climbs g S top x xs)
    (ho : g.op? top = some op) (hp : op.parent = p) (hS : ∀ P, p = some P → ¬ S P) (fault : Fault)
    {n : Nat} (hn : xs.length ≤ n) : childWithin p fault n x g = .ok top g := by
  induction h generalizing n with
  | here =>
    obtain ⟨n, rfl⟩ : ∃ k, n = k + 1 := ⟨n - 1, by simp at hn; omega⟩
    rw [Graph.childWithin, Effect.bind_ok (find_of_some ho), if_pos hp]
    rfl
  | @up u v vs hup hs hclimb ih =>
    obtain ⟨n, rfl⟩ : ∃ k, n = k + 1 := ⟨n - 1, by simp at hn; omega⟩
    obtain ⟨o, ho', hparent⟩ := hup
    have goOn : o.parent ≠ p := by
      rw [hparent]
      rintro rfl
      exact hS v rfl hs
    rw [Graph.childWithin, Effect.bind_ok (find_of_some ho'), if_neg goOn, hparent]
    exact ih (by simp at hn; omega)

/-- **The climb to the sibling that holds an op succeeds**, if its way up does not lead
through the parent. -/
theorem Rises.childWithin {p : Option OpId} {op : Op} (h : Rises g S x top)
    (ho : g.op? top = some op) (hp : op.parent = p) (hS : ∀ P, p = some P → ¬ S P) (fault : Fault) :
    childWithin p fault (g.size + 1) x g = .ok top g := by
  obtain ⟨xs, hclimb, hn⟩ := h.climbs
  have short : xs.length ≤ g.size := length_le_of_nodup hn (hclimb.lt_size ho)
  exact hclimb.childWithin ho hp hS fault (by omega)

/-- A climb that succeeds has followed parents. -/
theorem childWithin_eq_ok {p : Option OpId} {fault : Fault} {n : Nat}
    (h : childWithin p fault n x g = .ok top g') :
    g' = g ∧ Relation.ReflTransGen g.Up x top ∧ ∃ op, g.op? top = some op ∧ op.parent = p := by
  induction n generalizing x with
  | zero => cases h
  | succ n ih =>
    rw [Graph.childWithin] at h
    obtain ⟨op, g₁, hfind, hrest⟩ := Effect.bind_eq_ok.mp h
    obtain ⟨hop, rfl⟩ := find_eq_ok.mp hfind
    by_cases hp : op.parent = p
    · rw [if_pos hp] at hrest
      cases hrest
      exact ⟨rfl, .refl, op, hop, hp⟩
    · rw [if_neg hp] at hrest
      cases hup : op.parent with
      | none =>
        rw [hup] at hrest
        cases hrest
      | some up =>
        rw [hup] at hrest
        obtain ⟨same, path, found⟩ := ih hrest
        exact ⟨same, .head ⟨op, hop, hup⟩ path, found⟩

/-- **A way up that ends at the top meets all that is above.** -/
theorem Rises.mem_of_up {r : OpId} {op : Op} (h : Rises g S x r) (hr : g.op? r = some op)
    (hp : op.parent = none) (hy : Relation.TransGen g.Up x y) : S y := by
  induction h using Relation.ReflTransGen.head_induction_on with
  | refl =>
    obtain ⟨v, ⟨o, ho, hup⟩, -⟩ := Relation.TransGen.head'_iff.mp hy
    obtain rfl : op = o := Option.some.inj (hr.symm.trans ho)
    rw [hp] at hup
    cases hup
  | @head u v step _ ih =>
    obtain ⟨w, ⟨o, ho, hup⟩, path⟩ := Relation.TransGen.head'_iff.mp hy
    obtain ⟨⟨o', ho', hup'⟩, hv⟩ := step
    obtain rfl : o = o' := Option.some.inj (ho.symm.trans ho')
    obtain rfl : w = v := Option.some.inj (hup.symm.trans hup')
    rcases Relation.reflTransGen_iff_eq_or_transGen.mp path with rfl | path
    · exact hv
    · exact ih path

theorem Rises.mono {S' : OpId → Prop} (h : Rises g S x top) (hS : ∀ u, S u → S' u) :
    Rises g S' x top := by
  induction h with
  | refl => exact .refl
  | tail _ step ih => exact .tail ih ⟨step.1, hS _ step.2⟩

end Graft.Graph
