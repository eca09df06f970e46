import Graft.Lowering.Invariants

/-! # What is handed over

Lowering hands over only terms of the run, or terms below them.  The compiler's
recursion rests on this: what it compiles below a handed-over term is smaller than
the run that the term came from.
-/

namespace Graft.Lowering

variable {scope : Scope} {run : List Term} {t : Term}

theorem Parts.mem_preorders (h : Parts run t) : t ∈ Term.preorders run := by
  induction h with
  | member ht => exact Term.mem_preorders.mpr ⟨_, ht, Term.mem_preorder_self _⟩
  | part _ _ hk ih => exact Term.mem_preorders_of_kid hk ih

theorem Visits.mem_preorders (h : Visits scope run t) : t ∈ Term.preorders run := by
  induction h with
  | exit ht _ => exact ht.mem_preorders
  | operand _ _ hk ih => exact Term.mem_preorders_of_kid hk ih

/-- A property of all that a run hands over is an invariant of the drafts. -/
theorem Invariant.of_handovers {P : Handover → Prop}
    (h : ∀ t, HandsOver scope run t → P ⟨t, t.detachment⟩) :
    Invariant scope run (fun d => ∀ h ∈ d.handovers, P h) fun _ d => ∀ h ∈ d.handovers, P h := by
  have append : ∀ {hs : List Handover} {t : Term} {f : Except Diagnosis Detachment},
      (∀ h ∈ hs, P h) → HandsOver scope run t → t.detachment = f →
      ∀ h ∈ hs ++ [⟨t, f⟩], P h := by
    rintro hs t f all ht rfl u hu
    rcases List.mem_append.mp hu with hu | hu
    · exact all u hu
    · rw [List.mem_singleton.mp hu]
      exact h t ht
  exact {
    inner := fun _ hd _ => hd
    fetch := fun _ hd => hd
    pad := fun _ hd => hd
    clear := fun _ hd => hd
    push := fun _ hd => hd
    call := fun ht hf hd => append hd ht hf
    lost := fun ht he hd => append hd ht he
    stop := fun _ hd => hd }

/-- **What a run hands over**, whether it has code or not: terms that its lowering gets to, each
with its own fragment. -/
theorem handsOver_of_mem {h : Handover} (hh : h ∈ handoversOf scope run) :
    HandsOver scope run h.term ∧ h.detachment = h.term.detachment := by
  have inv := Invariant.of_handovers
    (P := fun h => HandsOver scope run h.term ∧ h.detachment = h.term.detachment)
    fun t ht => ⟨ht, rfl⟩
  cases hc : codeOf scope run with
  | ok code =>
    obtain ⟨d, hd, -, same⟩ := inv.of_codeOf (by simp) hc
    exact hd h (same ▸ hh)
  | error e =>
    obtain ⟨d, hd, same⟩ := inv.of_refused (by simp) hc
    exact hd h (same ▸ hh)

/-- **What is handed over is in the run.** -/
theorem term_mem_preorders_of_mem_handoversOf {h : Handover} (hh : h ∈ handoversOf scope run) :
    h.term ∈ Term.preorders run :=
  (handsOver_of_mem hh).1.visits.mem_preorders

end Graft.Lowering
