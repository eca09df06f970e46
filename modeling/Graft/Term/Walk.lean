import Graft.Term.Basic

/-! # Walks

A walk visits a term and the terms below it in pre-order.  The visitor has a state
of its own, and answers at each term how to go on: into its parts, past them, or
not at all.
-/

namespace Graft

/-- A visitor's answer at a term. -/
inductive Steer where
  /-- Go on into the parts of this term. -/
  | onward
  /-- Do not visit what is below this term. -/
  | skip
  /-- End the walk here. -/
  | abort
deriving DecidableEq, Repr

namespace Term

variable {σ : Type}

/-- Visit a term and go on as the visitor says; `below` walks the term's parts. -/
def enter (visit : Term → σ → Steer × σ) (t : Term) (below : σ → Bool × σ) (s : σ) : Bool × σ :=
  match visit t s with
  | (.onward, s) => below s
  | (.skip, s) => (true, s)
  | (.abort, s) => (false, s)

mutual

/-- Walk a term.  The answer is false if the visitor ended the walk. -/
def walk (visit : Term → σ → Steer × σ) : Term → σ → Bool × σ
  | leaf a l => enter visit (leaf a l) (fun s => (true, s))
  | op a c b ts => enter visit (op a c b ts) (walkAll visit ts)
  | statement a t => enter visit (statement a t) (walk visit t)
  | sequence a ts => enter visit (sequence a ts) (walkAll visit ts)
  | control a f ts => enter visit (control a f ts) (walkAll visit ts)

/-- Walk terms one after the other, until the visitor ends the walk. -/
def walkAll (visit : Term → σ → Steer × σ) : List Term → σ → Bool × σ
  | [], s => (true, s)
  | t :: ts, s =>
    match walk visit t s with
    | (true, s) => walkAll visit ts s
    | (false, s) => (false, s)

end

/-- A walk visits the term, then its parts. -/
theorem walk_eq (visit : Term → σ → Steer × σ) (t : Term) :
    walk visit t = enter visit t (walkAll visit t.kids) := by
  cases t
  case leaf => rfl
  case op => rfl
  case sequence => rfl
  case control => rfl
  case statement a t =>
    have h : walkAll visit [t] = walk visit t := by
      funext s
      simp only [walkAll]
      rcases walk visit t s with ⟨_ | _, _⟩ <;> rfl
    simp only [kids, h]
    rfl

/-- The number of terms that a walk to the end visits. -/
def nodeCount (t : Term) : Nat :=
  (walk (fun _ n => (.onward, n + 1)) t 0).2

end Term

end Graft
