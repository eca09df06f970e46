import Graft.Proofs.Concealment
import Graft.Proofs.WellFormed

/-! # What a compilation asks of a scope

A compilation comes back to the scope again and again: to cut a program into regions, at every
operator that it lowers, at every variable, and in every batch that is nested in another.  Of a
declaration it only ever asks for the slot and for whether the variable is hidden.  Names and the
other types are never looked at, so that scopes which are alike in these two things
(`Scope.Alike`) have the same edits or the same diagnosis, and use up the same numbers
(`Compiler.compile_alike`).

Two compilations in different scopes are compared in three steps, each of which says what it needs
of the two: a term is lowered alike if the same operators are taken and its variables have the same
boxes (`Lowering.term_congr`), a run is if its members are (`Lowering.roots_congr`), and a program
is compiled alike if it is cut alike and its runs are lowered alike (`Job.compileTerms_congr`).
-/

namespace Graft

variable {s s' : Scope}

namespace Lowering

/-- **A term is lowered alike in both scopes** if they take the same operators and the variables
that may be met have the same boxes.  Of an operator that is taken the operands are met. -/
theorem term_congr {Q : Term → Prop} (taken : ∀ t : Term, t.isCompilable s' = t.isCompilable s)
    (boxes : ∀ {a l d}, (Term.leaf a l).decl? = some d → Q (.leaf a l) →
      ∀ declares, variableBox s' d declares = variableBox s d declares)
    (operands : ∀ {a c b ts}, (Term.op a c b ts).isCompilable s = true → ∀ t ∈ ts, Q t)
    (t : Term) (ht : Q t) : term s' t = term s t := by
  fun_induction term s t with
  | case1 a c => rw [term]
  | case2 a d => rw [term, boxes (a := a) (l := .lexical d) rfl ht]
  | case3 a d => rw [term, boxes (a := a) (l := .declaration d) rfl ht]
  | case4 a c b l r t hc f hf ihl ihr =>
    rw [term, if_pos ((taken t).trans hc), hf, ihl (operands hc l (by simp)),
      ihr (operands hc r (by simp))]
  | case5 a b l r t hc hf ihl ihr =>
    rw [term, if_pos ((taken t).trans hc), hf, ihl (operands hc l (by simp)),
      ihr (operands hc r (by simp))]
    rfl
  | case6 a c b l r t hc hf hassign =>
    rw [term, if_pos ((taken t).trans hc), hf]
    simp [hassign, t]
  | case7 a c b l r t hc =>
    rw [term, if_neg fun hc' => hc ((taken t).symm.trans hc')]
  | case8 a c b k t hc ih =>
    obtain ⟨hc, hneg⟩ := Bool.and_eq_true_iff.mp hc
    rw [term, taken, hc, hneg, ih (operands hc k (by simp))]
    rfl
  | case9 a c b k t hc => rw [term, taken, if_neg hc]
  | case10 t h₁ h₂ h₃ h₄ h₅ => rw [term] <;> assumption

/-- The term only stands for its parts when a run is lowered. -/
def Spreads : Term → Prop
  | .statement _ _ | .sequence _ _ => True
  | _ => False

mutual

theorem root_congr {P : Term → Prop} (alike : ∀ t, P t → term s' t = term s t)
    (parts : ∀ {t k}, Spreads t → P t → k ∈ t.kids → P k) :
    ∀ t : Term, P t → root s' t = root s t
  | .statement a t, ht => by
    have body : P t := parts (t := .statement a t) trivial ht (by simp [Term.kids])
    simp only [root, root_congr alike parts t body]
  | .sequence a ts, ht => by
    have members : ∀ m ∈ ts, P m := fun m hm => parts (t := .sequence a ts) trivial ht hm
    simp only [root, roots_congr alike parts ts members]
  | .leaf a l, ht => by simp only [root, alike _ ht]
  | .op a c b ts, ht => by simp only [root, alike _ ht]
  | .control a f ts, ht => by simp only [root, alike _ ht]

/-- **A run is lowered alike** if its members are, and the parts of those that only stand for
their parts. -/
theorem roots_congr {P : Term → Prop} (alike : ∀ t, P t → term s' t = term s t)
    (parts : ∀ {t k}, Spreads t → P t → k ∈ t.kids → P k) :
    ∀ ts : List Term, (∀ t ∈ ts, P t) → roots s' ts = roots s ts
  | [], _ => by simp only [roots]
  | t :: ts, hts => by
    obtain ⟨ht, hts⟩ := List.forall_mem_cons.mp hts
    simp only [roots, root_congr alike parts t ht, roots_congr alike parts ts hts]

end

end Lowering

namespace Job

/-- **A program is compiled alike in both scopes** if they cut it alike and its runs are lowered
alike.  `P` is a property of the nodes of the program. -/
theorem compileTerms_congr {owner : OwnerId} {strict : Bool} {P : Term → Prop}
    (regions : ∀ ts, Region.ofTerms s' ts = Region.ofTerms s ts)
    (lowered : ∀ ts run, (∀ u ∈ Term.preorders ts, P u) →
      .compiled run ∈ Region.ofTerms s ts → Lowering.roots s' run = Lowering.roots s run)
    {roots : List Term} (hP : ∀ u ∈ Term.preorders roots, P u) :
    compileTerms ⟨s', owner, strict⟩ roots = compileTerms ⟨s, owner, strict⟩ roots := by
  -- by induction on the size: what is below a handed-over term is smaller
  induction hw : Term.weight roots using Nat.strongRecOn generalizing roots with
  | _ w ih =>
    subst hw
    rw [compileTerms_eq, compileTerms_eq]
    dsimp only
    rw [regions]
    congr 1
    refine mapM_congr fun r hr => ?_
    cases r with
    | interpreted t => rfl
    | compiled run =>
      have lowered := lowered roots run hP hr
      have code : Lowering.codeOf s' run = Lowering.codeOf s run := by
        rw [Lowering.codeOf, Lowering.codeOf, lowered]
      have handovers : Lowering.handoversOf s' run = Lowering.handoversOf s run := by
        rw [Lowering.handoversOf, Lowering.handoversOf, lowered]
      have parts : (Lowering.handoversOf s run).mapM (fun h => handoverEdits ⟨s', owner, strict⟩ h
            (compileTerms ⟨s', owner, strict⟩ h.term.kids)) =
          (Lowering.handoversOf s run).mapM (fun h => handoverEdits ⟨s, owner, strict⟩ h
            (compileTerms ⟨s, owner, strict⟩ h.term.kids)) := by
        refine mapM_congr fun h hh => ?_
        obtain ⟨below, less⟩ := below_handover hr hh
        rw [ih _ less (fun u hu => hP u (below u hu)) rfl]
        rfl
      have batch : runEdits ⟨s', owner, strict⟩ run = runEdits ⟨s, owner, strict⟩ run := by
        rw [runEdits_eq, runEdits_eq]
        dsimp only
        rw [code, handovers, parts]
        rfl
      show tolerate _ (runEdits _ run) = tolerate _ (runEdits _ run)
      rw [batch]
      rfl

end Job

/-! ### Scopes that are alike -/

/-- **The scopes declare as many variables, in the same slots, and hide the same ones.**  Names and
the other types may differ. -/
structure Scope.Alike (s s' : Scope) : Prop where
  size : s'.size = s.size
  slots : ∀ d v v', s.get? d = some v → s'.get? d = some v' → v'.slot = v.slot
  hidden : ∀ d v v', s.get? d = some v → s'.get? d = some v' →
    v'.type.isHidden = v.type.isHidden

namespace Scope.Alike

/-- A variable is declared in both scopes or in neither. -/
theorem declared (h : s.Alike s') (d : DeclId) :
    (s.get? d = none ∧ s'.get? d = none) ∨ ∃ v v', s.get? d = some v ∧ s'.get? d = some v' := by
  have size : s'.declarations.size = s.declarations.size := h.size
  by_cases hd : d.index < s.declarations.size
  · exact .inr ⟨_, _, Array.getElem?_eq_getElem hd, Array.getElem?_eq_getElem (size ▸ hd)⟩
  · have beyond : s.declarations.size ≤ d.index := Nat.le_of_not_lt hd
    exact .inl ⟨Array.getElem?_eq_none_iff.mpr beyond,
      Array.getElem?_eq_none_iff.mpr (size ▸ beyond)⟩

theorem hidesAlike (h : s.Alike s') : s.HidesAlike s' := by
  intro d
  rcases h.declared d with ⟨hs, hs'⟩ | ⟨v, v', hs, hs'⟩
  · rw [typeOf, typeOf, hs, hs']
  · rw [typeOf, typeOf, hs, hs']
    exact h.hidden d v v' hs hs'

/-- The box of a variable depends on its slot only. -/
theorem variableBox (h : s.Alike s') (d : DeclId) (declares : Bool) :
    Lowering.variableBox s' d declares = Lowering.variableBox s d declares := by
  unfold Lowering.variableBox
  rcases h.declared d with ⟨hs, hs'⟩ | ⟨v, v', hs, hs'⟩
  · rw [hs, hs']
  · rw [hs, hs']
    dsimp only
    rw [h.slots d v v' hs hs']

theorem roots (h : s.Alike s') (run : List Term) :
    Lowering.roots s' run = Lowering.roots s run := by
  have lowered : ∀ t : Term, True → Lowering.term s' t = Lowering.term s t :=
    Lowering.term_congr h.hidesAlike.isCompilable (fun _ _ => h.variableBox _)
      fun _ _ _ => trivial
  exact Lowering.roots_congr lowered (fun _ _ _ => trivial) run fun _ _ => trivial

end Scope.Alike

/-- **Declared types that do not hide do not matter.**  In scopes that are alike a compiler gives
the same answer, edits or a diagnosis, and is left with the same number for the next unit; every
program is cut into the same regions; and the same terms reach a hidden variable and are taken.

Regions ask of a scope only which variables it hides, and the lowering asks for slots; both are the
same in the two scopes, and a compilation looks at a scope through these only. -/
theorem Compiler.compile_alike {s s' : Scope} (h : s.Alike s') :
    (∀ (c : Compiler) (owner : OwnerId) (roots : List Term),
      c.compile s' owner roots = c.compile s owner roots) ∧
    (∀ roots : List Term, Region.ofTerms s' roots = Region.ofTerms s roots) ∧
    ∀ t : Term, t.reachesHidden s' = t.reachesHidden s ∧ t.isCompilable s' = t.isCompilable s := by
  refine ⟨fun c owner roots => ?_, h.hidesAlike.ofTerms, fun t =>
    ⟨h.hidesAlike.reachesHidden t, h.hidesAlike.isCompilable t⟩⟩
  have edits : Job.compileTerms ⟨s', owner, c.options.strict⟩ roots =
      Job.compileTerms ⟨s, owner, c.options.strict⟩ roots :=
    Job.compileTerms_congr (P := fun _ => True) h.hidesAlike.ofTerms (fun _ run _ _ => h.roots run)
      fun _ _ => trivial
  rw [compile, compile, edits]

/-- The second operand of the sum names a hidden variable. -/
def guardedScope : Scope := ⟨#[⟨"x", ⟨0⟩, .any⟩, ⟨"y", ⟨1⟩, .hidden⟩]⟩

/-- The variables of the sum under other names, and the open one typed. -/
def typedScope : Scope := ⟨#[⟨"price", ⟨0⟩, .double⟩, ⟨"paid", ⟨1⟩, .hidden⟩]⟩

theorem guardedScope_alike : guardedScope.Alike typedScope where
  size := rfl
  slots d v v' hv hv' := by
    rcases d with ⟨_ | _ | i⟩
    · cases hv; cases hv'; rfl
    · cases hv; cases hv'; rfl
    · simp [guardedScope, Scope.get?] at hv
  hidden d v v' hv hv' := by
    rcases d with ⟨_ | _ | i⟩
    · cases hv; cases hv'; rfl
    · cases hv; cases hv'; rfl
    · simp [guardedScope, Scope.get?] at hv

/-- The hidden variable is in an operand that is handed over, and is met again in the batch below
it. -/
theorem Compiler.compile_alike_sum : guardedScope.Alike typedScope ∧ ∃ edits c',
    Compiler.compile {} guardedScope ⟨0⟩ [sumTerm] = (.ok edits, c') ∧
    Compiler.compile {} typedScope ⟨0⟩ [sumTerm] = (.ok edits, c') ∧
    Region.ofTerms typedScope [sumTerm] = Region.ofTerms guardedScope [sumTerm] ∧
    sumTerm.isCompilable typedScope = true := by
  obtain ⟨edits, c', hc⟩ := sumTerm_compiles {}
    (show sumTerm.isCompilable guardedScope = true by decide) rfl rfl
  obtain ⟨same, regions, taken⟩ := compile_alike guardedScope_alike
  exact ⟨guardedScope_alike, edits, c', hc, (same {} ⟨0⟩ [sumTerm]).trans hc, regions [sumTerm],
    (taken sumTerm).2.trans (by decide)⟩

end Graft
