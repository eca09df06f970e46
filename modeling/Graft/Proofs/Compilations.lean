import Graft.Proofs.EditBatches

/-! # One compiler, many compilations

A compiler is used again and again, and all that it remembers is the number of the next unit.
This module has what that number is good for.

* **A lenient compilation says the same as a strict one that succeeds**
  (`Job.compileTerms_lenient`).  The two part only where a run is refused, and there the strict one
  has failed.  Step by step, the lenient computation answers wherever the strict one does, with the
  same answer and the same number left (`Effect.Follows`), and sequences keep that.
* **Units are numbered outside-in** (`Job.Numbered`).  A batch takes its number first and the
  batches nested in it take theirs after that, though their replacements stand before its own.  A
  run that is refused may use up numbers, and so may a compilation that fails, but none is given
  back: so no name is ever used twice, in whatever a compiler is asked (`Compiler.history`).

Names are strings, and two of them are different because the decimal digits of different numbers
are.  All else about names is about the intervals from which a compilation takes its numbers: that
of one request ends where that of the next begins, and inside it the numbers of a batch come after
that of the unit that it belongs to.
-/

namespace Graft

/-! ### Where one computation answers, another one gives the same answer -/

namespace Effect

variable {ε σ α β : Type} {x y : EStateM ε σ α}

/-- Where `x` answers, `y` gives the same answer and leaves the same state. -/
def Follows (x y : EStateM ε σ α) : Prop := ∀ s a s', x s = .ok a s' → y s = .ok a s'

namespace Follows

theorem refl (x : EStateM ε σ α) : Follows x x := fun _ _ _ h => h

theorem bind {f g : α → EStateM ε σ β} (hx : Follows x y) (hf : ∀ a, Follows (f a) (g a)) :
    Follows (x >>= f) (y >>= g) := by
  intro s b t h
  obtain ⟨a, s', ha, hb⟩ := bind_eq_ok.mp h
  exact bind_eq_ok.mpr ⟨a, s', hx s a s' ha, hf a s' b t hb⟩

theorem map (h : α → β) (hx : Follows x y) : Follows (h <$> x) (h <$> y) := by
  rw [← bind_pure_comp, ← bind_pure_comp]
  exact hx.bind fun a => .refl _

theorem mapM {f g : α → EStateM ε σ β} {l : List α} (h : ∀ a ∈ l, Follows (f a) (g a)) :
    Follows (l.mapM f) (l.mapM g) := by
  induction l with
  | nil => exact .refl _
  | cons a l ih =>
    obtain ⟨ha, hl⟩ := List.forall_mem_cons.mp h
    rw [List.mapM_cons, List.mapM_cons]
    exact .bind ha fun _ => .bind (ih hl) fun _ => .refl _

end Follows

end Effect

/-! ### Strict and lenient -/

namespace Job

variable {scope : Scope} {owner : OwnerId}

theorem tolerate_follows {x y : CompileM (List Edit)} (h : Effect.Follows x y) :
    Effect.Follows (tolerate ⟨scope, owner, true⟩ x) (tolerate ⟨scope, owner, false⟩ y) := by
  intro n edits n' hx
  have answered := h n edits n' (tolerate_strict rfl hx)
  rw [tolerate, answered]

/-- **Where a strict compilation succeeds, a lenient one says the same.** -/
theorem compileTerms_lenient (ts : List Term) :
    Effect.Follows (compileTerms ⟨scope, owner, true⟩ ts)
      (compileTerms ⟨scope, owner, false⟩ ts) := by
  -- by induction on the size: what is below a handed-over term is smaller
  induction hw : Term.weight ts using Nat.strongRecOn generalizing ts with
  | _ w ih =>
    subst hw
    rw [compileTerms_eq, compileTerms_eq]
    refine .map _ (.mapM fun r hr => ?_)
    cases r with
    | interpreted t => exact .refl _
    | compiled run =>
      apply tolerate_follows
      rw [runEdits_eq, runEdits_eq]
      refine .bind (.refl _) fun ends => .bind (.refl _) fun number => ?_
      refine .bind (.mapM fun h hh => ?_) fun parts => .refl _
      have nested := ih _ (below_handover hr hh).2 h.term.kids rfl
      exact .bind nested fun edits => .refl _

end Job

/-! A sum, one operand of which is handed over with another sum inside it. -/

def innerSum : Term :=
  .op ⟨some ⟨⟨8⟩, ⟨6⟩, some ⟨4⟩⟩, .scalar, none⟩ .add false
    [.leaf ⟨some ⟨⟨6⟩, ⟨6⟩, none⟩, .scalar, none⟩ (.lexical ⟨1⟩),
      .leaf ⟨some ⟨⟨7⟩, ⟨7⟩, none⟩, .scalar, none⟩ (.constant (.int 1))]

def guardedSum : Term :=
  .op ⟨some ⟨⟨9⟩, ⟨5⟩, none⟩, .scalar, none⟩ .boolAnd false
    [.leaf ⟨some ⟨⟨5⟩, ⟨5⟩, none⟩, .scalar, none⟩ (.lexical ⟨0⟩), innerSum]

def outerSum : Term :=
  .op ⟨some ⟨⟨11⟩, ⟨5⟩, some ⟨3⟩⟩, .scalar, none⟩ .add false
    [guardedSum, .leaf ⟨some ⟨⟨10⟩, ⟨10⟩, none⟩, .scalar, none⟩ (.constant (.int 2))]

def sumJob (strict : Bool) : Job := ⟨sumScope, ⟨0⟩, strict⟩

theorem Job.compileTerms_innerSum (strict : Bool) (n : Nat) : ∃ code,
    (sumJob strict).compileTerms [innerSum] n =
      .ok [⟨⟨0⟩, .replace ⟨6⟩ ⟨8⟩ ⟨unitName n, code, []⟩ false⟩] (n + 1) := by
  obtain ⟨code, hcode⟩ : ∃ code, Lowering.codeOf sumScope [innerSum] = .ok code := ⟨_, rfl⟩
  have batch : (sumJob strict).runEdits [innerSum] n = .ok _ _ :=
    runEdits_eq_ok.mpr ⟨⟨6⟩, ⟨8⟩, [], code, rfl, rfl, hcode, rfl⟩
  refine ⟨code, ?_⟩
  rw [innerSum, compileTerms_op_compiled _ (show innerSum.isCompilable sumScope = true by decide),
    ← innerSum, tolerate, batch]
  rfl

/-- The inner sum has the second number, and is put in first. -/
theorem Job.compileTerms_outerSum (strict : Bool) (n : Nat) : ∃ code code',
    (sumJob strict).compileTerms [outerSum] n =
      .ok [⟨⟨0⟩, .replace ⟨6⟩ ⟨8⟩ ⟨unitName (n + 1), code', []⟩ false⟩,
        ⟨⟨0⟩, .detach ⟨9⟩ true [⟨8⟩, ⟨9⟩]⟩,
        ⟨⟨0⟩, .replace ⟨5⟩ ⟨11⟩ ⟨unitName n, code, [⟨9⟩]⟩ false⟩] (n + 2) := by
  obtain ⟨code, hcode⟩ : ∃ code, Lowering.codeOf sumScope [outerSum] = .ok code := ⟨_, rfl⟩
  obtain ⟨code', inner⟩ := compileTerms_innerSum strict (n + 1)
  refine ⟨code, code', ?_⟩
  generalize (⟨⟨0⟩, .replace ⟨6⟩ ⟨8⟩ ⟨unitName (n + 1), code', []⟩ false⟩ : Edit) = put at inner ⊢
  have below : (sumJob strict).compileTerms guardedSum.kids (n + 1) = .ok [put] (n + 2) := by
    rw [guardedSum, Term.kids, compileTerms_cons, compileTerms_leaf, pure_bind]
    exact Effect.bind_ok inner
  have part : (sumJob strict).handoverEdits ⟨guardedSum, .ok ⟨⟨9⟩, [⟨8⟩, ⟨9⟩]⟩⟩
      ((sumJob strict).compileTerms guardedSum.kids) (n + 1) =
        .ok (⟨9⟩, [put, ⟨⟨0⟩, .detach ⟨9⟩ true [⟨8⟩, ⟨9⟩]⟩]) (n + 2) := Effect.bind_ok below
  have parts : (Lowering.handoversOf sumScope [outerSum]).mapM (fun h =>
      (sumJob strict).handoverEdits h ((sumJob strict).compileTerms h.term.kids)) (n + 1) =
        .ok [(⟨9⟩, [put, ⟨⟨0⟩, .detach ⟨9⟩ true [⟨8⟩, ⟨9⟩]⟩])] (n + 2) := by
    rw [show Lowering.handoversOf sumScope [outerSum] =
      [⟨guardedSum, .ok ⟨⟨9⟩, [⟨8⟩, ⟨9⟩]⟩⟩] from rfl, List.mapM_cons]
    exact Effect.bind_ok part
  have batch : (sumJob strict).runEdits [outerSum] n = .ok _ _ :=
    runEdits_eq_ok.mpr ⟨⟨5⟩, ⟨11⟩, _, code, rfl, parts, hcode, rfl⟩
  rw [outerSum, compileTerms_op_compiled _ (show outerSum.isCompilable sumScope = true by decide),
    ← outerSum, tolerate, batch]
  rfl

/-- **Strict and lenient compilers agree on success.**  A lenient one always answers, and if a
strict one does, a lenient one with the same number for the next unit gives the same edits and is
left with the same number.

A lenient compilation gives up a run that is refused, and nothing else can fail.  Where a strict one
succeeds no run has been refused, so by induction over the terms the lenient one does the same. -/
theorem Compiler.compile_lenient {c d : Compiler} (strict : c.options.strict = true)
    (lenient : d.options.strict = false) (same : d.nextUnit = c.nextUnit) (scope : Scope)
    (owner : OwnerId) (roots : List Term) :
    (∃ edits d', d.compile scope owner roots = (.ok edits, d')) ∧
    ∀ edits c', c.compile scope owner roots = (.ok edits, c') →
      d.compile scope owner roots = (.ok edits, { d with nextUnit := c'.nextUnit }) := by
  constructor
  · have answers : ∃ edits n, Job.compileTerms ⟨scope, owner, d.options.strict⟩ roots d.nextUnit =
      .ok edits n := Job.exists_compileTerms lenient roots d.nextUnit
    obtain ⟨edits, n, h⟩ := answers
    exact ⟨edits, _, compile_of_compileTerms h⟩
  · intro edits c' h
    obtain ⟨n, hn⟩ := compile_eq_ok h
    obtain rfl : c' = { c with nextUnit := n } := by
      rw [compile_of_compileTerms hn] at h
      cases h
      rfl
    apply compile_of_compileTerms
    rw [lenient, same]
    rw [strict] at hn
    exact Job.compileTerms_lenient roots _ _ _ hn

theorem Compiler.compile_lenient_outerSum :
    (∃ edits d',
      compile ⟨Options.release.lenient, 3⟩ sumScope ⟨0⟩ [refusedTerm] = (.ok edits, d')) ∧
    ∃ edits c', compile ⟨Options.debug, 3⟩ sumScope ⟨0⟩ [outerSum] = (.ok edits, c') ∧
      compile ⟨Options.release.lenient, 3⟩ sumScope ⟨0⟩ [outerSum] =
        (.ok edits, ⟨Options.release.lenient, c'.nextUnit⟩) := by
  obtain ⟨code, code', h⟩ := Job.compileTerms_outerSum true 3
  have strict : compile ⟨Options.debug, 3⟩ sumScope ⟨0⟩ [outerSum] = (.ok _, ⟨Options.debug, 5⟩) :=
    compile_of_compileTerms h
  have agree := compile_lenient (c := ⟨Options.debug, 3⟩) (d := ⟨Options.release.lenient, 3⟩)
    rfl rfl rfl sumScope ⟨0⟩
  exact ⟨(agree [refusedTerm]).1, _, _, strict, (agree [outerSum]).2 _ _ strict⟩

/-! ### Numbers are not given back -/

namespace Job

variable {job : Job} {roots : List Term} {edits : List Edit} {n n' : Nat}

theorem maintains_ofExcept {α : Type} {P : Nat → Prop} (x : Except Diagnosis α) :
    Effect.Maintains P (ofExcept x) := by
  cases x with
  | ok a => exact .pure a
  | error e => exact .throw e

theorem maintains_tolerate {P : Nat → Prop} {x : CompileM (List Edit)} (hx : Effect.Maintains P x) :
    Effect.Maintains P (job.tolerate x) := by
  intro n hn
  have after := hx n hn
  rw [tolerate]
  cases h : x n with
  | ok edits n' =>
    rw [h] at after
    exact after
  | error e n' =>
    rw [h] at after
    dsimp only
    split <;> exact after

/-- A run takes a new number, so it uses numbers up if what is below it does. -/
theorem maintains_runEdits {k : Nat} {run : List Term}
    (below : ∀ h ∈ Lowering.handoversOf job.scope run,
      Effect.Maintains (k ≤ ·) (job.compileTerms h.term.kids)) :
    Effect.Maintains (k ≤ ·) (job.runEdits run) := by
  have new : Effect.Maintains (k ≤ ·) newUnit := fun n hn => Nat.le_succ_of_le hn
  rw [runEdits_eq]
  refine .bind (maintains_ofExcept _) fun ends => .bind new fun number => ?_
  refine .bind (.mapM fun h hh => ?_) fun parts => .bind (maintains_ofExcept _) fun code => .pure _
  exact .bind (below h hh) fun nested => .bind (maintains_ofExcept _) fun d => .pure _

/-- **The number of the next unit never decreases**, also where the compilation fails. -/
theorem maintains_compileTerms (k : Nat) (ts : List Term) :
    Effect.Maintains (k ≤ ·) (job.compileTerms ts) := by
  induction hw : Term.weight ts using Nat.strongRecOn generalizing ts with
  | _ w ih =>
    subst hw
    rw [compileTerms_eq]
    refine .map _ (.mapM fun r hr => ?_)
    cases r with
    | interpreted t => exact .pure _
    | compiled run =>
      apply maintains_tolerate
      apply maintains_runEdits
      intro h hh
      exact ih _ (below_handover hr hh).2 h.term.kids rfl

/-! ### How units are numbered -/

/-- **How a compilation of `roots` numbers units**: the edits take numbers from `n` on, and leave
`n'` for the next unit.  The batch of a run has the first number for itself; what is nested in it
has later ones. -/
inductive Numbered (job : Job) (roots : List Term) : Nat → List Edit → Nat → Prop where
  | skip {n n' : Nat} : n ≤ n' → Numbered job roots n [] n'
  | append {n n₁ n' : Nat} {edits edits' : List Edit} :
      Numbered job roots n edits n₁ → Numbered job roots n₁ edits' n' →
      Numbered job roots n (edits ++ edits') n'
  | detach {n : Nat} (d : Detachment) : Numbered job roots n [job.detachEdit d] n
  | batch {n n' : Nat} {run : List Term} {nested : List Edit} {first last : OpId}
      {code : List Instr} {fragments : List OpId} :
      (∀ t ∈ run, t ∈ Term.preorders roots) →
      job.runEdits run n =
        .ok (nested ++ [job.replaceEdit first last ⟨unitName n, code, fragments⟩]) n' →
      Numbered job roots (n + 1) nested n' →
      Numbered job roots n (nested ++ [job.replaceEdit first last ⟨unitName n, code, fragments⟩]) n'

/-- Edits that are made step by step are numbered if those of each step are. -/
theorem Numbered.mapM {α β : Type} {l : List α} {f : α → CompileM β} {g : β → List Edit}
    (steps : ∀ a ∈ l, ∀ n b n', f a n = .ok b n' → job.Numbered roots n (g b) n') {bs : List β}
    (h : l.mapM f n = .ok bs n') : job.Numbered roots n (bs.flatMap g) n' := by
  induction l generalizing n bs with
  | nil =>
    cases h
    exact .skip (Nat.le_refl _)
  | cons a l ih =>
    obtain ⟨first, rest⟩ := List.forall_mem_cons.mp steps
    rw [List.mapM_cons] at h
    obtain ⟨b, n₁, hb, h⟩ := Effect.bind_eq_ok.mp h
    obtain ⟨bs', n₂, hbs, h⟩ := Effect.bind_eq_ok.mp h
    cases h
    rw [List.flatMap_cons]
    exact .append (first n b n₁ hb) (ih rest hbs)

/-- The batch of a run is numbered if what is below the run is. -/
theorem numbered_runEdits {run : List Term} (inRoots : ∀ t ∈ run, t ∈ Term.preorders roots)
    (below : ∀ h ∈ Lowering.handoversOf job.scope run, ∀ n edits n',
      job.compileTerms h.term.kids n = .ok edits n' → job.Numbered roots n edits n')
    (h : job.runEdits run n = .ok edits n') : job.Numbered roots n edits n' := by
  obtain ⟨first, last, parts, code, -, hparts, -, rfl⟩ := runEdits_eq_ok.mp h
  refine .batch inRoots h (.mapM (fun h hh n part n' hpart => ?_) hparts)
  obtain ⟨nested, d, hnested, -, rfl⟩ := handoverEdits_eq_ok hpart
  exact .append (below h hh n nested n' hnested) (.detach d)

/-- **What a compilation answers with is numbered outside-in.** -/
theorem numbered_compileTerms {ts : List Term}
    (inRoots : ∀ t ∈ Term.preorders ts, t ∈ Term.preorders roots)
    (h : job.compileTerms ts n = .ok edits n') : job.Numbered roots n edits n' := by
  induction hw : Term.weight ts using Nat.strongRecOn generalizing ts edits n n' with
  | _ w ih =>
    subst hw
    rw [compileTerms_eq] at h
    obtain ⟨batches, hbatches, rfl⟩ := Effect.map_eq_ok.mp h
    rw [← List.flatMap_id]
    refine .mapM (fun r hr n batch n' hbatch => ?_) hbatches
    cases r with
    | interpreted t =>
      cases hbatch
      exact .skip (Nat.le_refl _)
    | compiled run =>
      obtain hbatch | ⟨rfl, -, e, hrefused⟩ := tolerate_cases hbatch
      · have inRun : ∀ t ∈ run, t ∈ Term.preorders roots := fun t ht =>
          inRoots t (Region.mem_preorders_of_mem_run _ hr
            (Term.mem_preorders.mpr ⟨t, ht, Term.mem_preorder_self t⟩))
        refine numbered_runEdits inRun (fun h hh n edits n' hedits => ?_) hbatch
        obtain ⟨inside, less⟩ := below_handover hr hh
        exact ih _ less (fun t ht => inRoots t (inside t ht)) hedits rfl
      · -- the refused run may have used numbers up
        have kept : Effect.Maintains (n ≤ ·) (job.runEdits run) :=
          maintains_runEdits fun h _ => maintains_compileTerms n h.term.kids
        have after := kept n (Nat.le_refl n)
        rw [hrefused] at after
        exact .skip after

/-! ### The names of units -/

/-- Units with different numbers have different names: the digits can be read back. -/
theorem unitName_injective : Function.Injective unitName := by
  intro a b h
  have digits : toString a = toString b := (String.append_right_inj _).mp h
  rw [Nat.toString_eq_ofList_toDigits, Nat.toString_eq_ofList_toDigits, String.ofList_inj] at digits
  calc
    a = Nat.ofDigitChars 10 (Nat.toDigits 10 a) 0 := Nat.ofDigitChars_ten_toDigits.symm
    _ = Nat.ofDigitChars 10 (Nat.toDigits 10 b) 0 := by rw [digits]
    _ = b := Nat.ofDigitChars_ten_toDigits

end Job

/-- The units that edits put in. -/
def unitsIn (edits : List Edit) : List CompiledUnit := edits.filterMap Edit.unit?

/-- The units have different names, with numbers from `n` on that are less than `n'`. -/
structure NamedWithin (n n' : Nat) (units : List CompiledUnit) : Prop where
  nodup : (units.map CompiledUnit.name).Nodup
  number : ∀ unit ∈ units, ∃ i, unit.name = Job.unitName i ∧ n ≤ i ∧ i < n'

namespace NamedWithin

variable {n n' n₁ : Nat} {units units' : List CompiledUnit}

theorem nil (n n' : Nat) : NamedWithin n n' [] := ⟨.nil, by simp⟩

theorem single {unit : CompiledUnit} (h : unit.name = Job.unitName n) :
    NamedWithin n (n + 1) [unit] := by
  refine ⟨List.nodup_singleton _, fun u hu => ?_⟩
  obtain rfl := List.mem_singleton.mp hu
  exact ⟨n, h, Nat.le_refl n, Nat.lt_succ_self n⟩

theorem perm (h : NamedWithin n n' units) (p : units.Perm units') : NamedWithin n n' units' :=
  ⟨(p.map _).nodup_iff.mp h.nodup, fun unit hu => h.number unit (p.mem_iff.mpr hu)⟩

/-- **Units that are numbered one after the other have different names.** -/
theorem append (h : NamedWithin n n₁ units) (h' : NamedWithin n₁ n' units') (le : n ≤ n₁)
    (le' : n₁ ≤ n') : NamedWithin n n' (units ++ units') := by
  constructor
  · rw [List.map_append]
    refine List.nodup_append.mpr ⟨h.nodup, h'.nodup, fun a ha b hb same => ?_⟩
    obtain ⟨u, hu, rfl⟩ := List.mem_map.mp ha
    obtain ⟨v, hv, rfl⟩ := List.mem_map.mp hb
    obtain ⟨i, hi, -, below⟩ := h.number u hu
    obtain ⟨j, hj, above, -⟩ := h'.number v hv
    have : i = j := Job.unitName_injective (by rw [← hi, ← hj, same])
    omega
  · intro unit hu
    rcases List.mem_append.mp hu with hu | hu
    · obtain ⟨i, hi, above, below⟩ := h.number unit hu
      exact ⟨i, hi, above, by omega⟩
    · obtain ⟨i, hi, above, below⟩ := h'.number unit hu
      exact ⟨i, hi, by omega, below⟩

end NamedWithin

namespace Job

variable {job : Job} {roots : List Term} {edits edits' : List Edit} {n n' : Nat}

theorem Numbered.le (h : job.Numbered roots n edits n') : n ≤ n' := by
  induction h with
  | skip le => exact le
  | append _ _ le le' => exact Nat.le_trans le le'
  | detach d => exact Nat.le_refl _
  | batch _ _ _ le => omega

theorem Numbered.named (h : job.Numbered roots n edits n') : NamedWithin n n' (unitsIn edits) := by
  induction h with
  | skip _ => exact .nil _ _
  | append h h' first second =>
    rw [unitsIn, List.filterMap_append]
    exact first.append second h.le h'.le
  | detach d => exact .nil _ _
  | @batch n _ _ _ _ _ _ _ _ _ h nested =>
    -- the unit was begun before those that stand in front of it
    rw [unitsIn, List.filterMap_append]
    exact ((NamedWithin.single rfl).append nested (Nat.le_succ n) h.le).perm List.perm_append_comm

/-- The edit `e`, with `front` before it, ends the batch of a run, which was begun with the number
of `unit`; the other units in the batch have greater numbers. -/
def EndsBatch (job : Job) (roots : List Term) (front : List Edit) (e : Edit) (unit : CompiledUnit) :
    Prop :=
  ∃ run n n' before nested, front = before ++ nested ∧ (∀ t ∈ run, t ∈ Term.preorders roots) ∧
    job.runEdits run n = .ok (nested ++ [e]) n' ∧ unit.name = unitName n ∧
    ∀ inner ∈ unitsIn nested, ∃ i, inner.name = unitName i ∧ n < i

/-- **A unit has a smaller number than those that are nested in its batch**, though it is put in
after them. -/
def OutsideIn (job : Job) (roots : List Term) (edits : List Edit) : Prop :=
  ∀ front e back, edits = front ++ e :: back → ∀ unit ∈ e.unit?, job.EndsBatch roots front e unit

theorem EndsBatch.after {front : List Edit} {e : Edit} {unit : CompiledUnit}
    (h : job.EndsBatch roots front e unit) (edits : List Edit) :
    job.EndsBatch roots (edits ++ front) e unit := by
  obtain ⟨run, n, n', before, nested, rfl, rest⟩ := h
  exact ⟨run, n, n', edits ++ before, nested, (List.append_assoc ..).symm, rest⟩

namespace OutsideIn

theorem nil : job.OutsideIn roots [] := by
  intro front e back split
  simp at split

theorem append (h : job.OutsideIn roots edits) (h' : job.OutsideIn roots edits') :
    job.OutsideIn roots (edits ++ edits') := by
  intro front e back split unit hu
  rcases List.append_eq_append_iff.mp split with ⟨mid, rfl, later⟩ | ⟨mid, here, rest⟩
  · exact (h' mid e back later unit hu).after edits
  · rcases List.cons_eq_append_iff.mp rest with ⟨rfl, later⟩ | ⟨back', rfl, -⟩
    · have := (h' [] e back later unit hu).after edits
      rwa [List.append_nil, here, List.append_nil] at this
    · exact h front e back' here unit hu

/-- One more edit, which ends a batch if it puts in a unit. -/
theorem concat {last : Edit} (h : job.OutsideIn roots edits)
    (hlast : ∀ unit ∈ last.unit?, job.EndsBatch roots edits last unit) :
    job.OutsideIn roots (edits ++ [last]) := by
  intro front e back split unit hu
  rcases List.eq_nil_or_concat back with rfl | ⟨back', last', rfl⟩
  · obtain ⟨rfl, same⟩ := List.append_inj' split rfl
    cases same
    exact hlast unit hu
  · rw [List.concat_eq_append, ← List.cons_append, ← List.append_assoc] at split
    obtain ⟨rfl, -⟩ := List.append_inj' split rfl
    exact h front e back' rfl unit hu

end OutsideIn

theorem Numbered.outsideIn (h : job.Numbered roots n edits n') : job.OutsideIn roots edits := by
  induction h with
  | skip _ => exact .nil
  | append _ _ first second => exact first.append second
  | detach d =>
    refine OutsideIn.nil.concat ?_
    rintro unit ⟨⟩
  | @batch n n' run nested _ _ _ _ inRoots made h outsideIn =>
    refine outsideIn.concat ?_
    rintro unit ⟨⟩
    refine ⟨run, n, n', [], nested, rfl, inRoots, made, rfl, fun inner hi => ?_⟩
    obtain ⟨i, name, later, -⟩ := h.named.number inner hi
    exact ⟨i, name, later⟩

end Job

/-! ### What a compiler is asked -/

/-- What a compiler is asked for. -/
structure Request where
  scope : Scope
  owner : OwnerId
  roots : List Term

/-- A request, and the compiler that is asked. -/
structure Compilation extends Request where
  before : Compiler

namespace Compilation

variable (k : Compilation)

def job : Job := ⟨k.scope, k.owner, k.before.options.strict⟩

/-- The edits, or why there are none. -/
def answer : Except Diagnosis (List Edit) := (k.before.compile k.scope k.owner k.roots).1

/-- The compiler as it is left. -/
def after : Compiler := (k.before.compile k.scope k.owner k.roots).2

/-- The edits that are given back: none, if the compilation fails. -/
def edits : List Edit :=
  match k.answer with
  | .ok edits => edits
  | .error _ => []

theorem edits_of_ok {k : Compilation} {edits : List Edit} {c : Compiler}
    (h : k.before.compile k.scope k.owner k.roots = (.ok edits, c)) : k.edits = edits := by
  rw [Compilation.edits, answer, h]

/-- **Every compilation is numbered outside-in**, from the number that the compiler has before it to
the one it has after it. -/
theorem numbered : k.job.Numbered k.roots k.before.nextUnit k.edits k.after.nextUnit := by
  cases h : k.job.compileTerms k.roots k.before.nextUnit with
  | ok edits n =>
    have compiled : k.before.compile k.scope k.owner k.roots =
      (.ok edits, { k.before with nextUnit := n }) := Compiler.compile_of_compileTerms h
    rw [edits_of_ok compiled, after, compiled]
    exact Job.numbered_compileTerms (fun _ ht => ht) h
  | error e n =>
    have compiled : k.before.compile k.scope k.owner k.roots =
        (.error e, { k.before with nextUnit := n }) := by
      rw [job] at h
      rw [Compiler.compile, h]
    have kept := k.job.maintains_compileTerms k.before.nextUnit k.roots _ (Nat.le_refl _)
    rw [h] at kept
    rw [Compilation.edits, answer, after, compiled]
    exact .skip kept

end Compilation

namespace Compiler

/-- **What becomes of requests**: the compiler that has answered one is asked the next. -/
def history (c : Compiler) : List Request → List Compilation
  | [] => []
  | r :: rs => ⟨r, c⟩ :: (Compilation.mk r c).after.history rs

/-- Later compilations begin with later numbers. -/
theorem nextUnit_le_of_mem_history {rs : List Request} : ∀ {c : Compiler} {k : Compilation},
    k ∈ c.history rs → c.nextUnit ≤ k.before.nextUnit := by
  induction rs with
  | nil => simp [history]
  | cons r rs ih =>
    intro c k hk
    rcases List.mem_cons.mp hk with rfl | hk
    · exact Nat.le_refl _
    · have first := (Compilation.mk r c).numbered.le
      have later := ih hk
      exact Nat.le_trans first later

theorem pairwise_history (c : Compiler) (rs : List Request) :
    (c.history rs).Pairwise fun k k' => k.after.nextUnit ≤ k'.before.nextUnit := by
  induction rs generalizing c with
  | nil => exact .nil
  | cons r rs ih => exact .cons (fun k' hk' => nextUnit_le_of_mem_history hk') (ih _)

/-- The units of all compilations together. -/
theorem named_history (c : Compiler) (rs : List Request) : ∃ n, c.nextUnit ≤ n ∧
    NamedWithin c.nextUnit n ((c.history rs).flatMap fun k => unitsIn k.edits) := by
  induction rs generalizing c with
  | nil => exact ⟨c.nextUnit, Nat.le_refl _, .nil _ _⟩
  | cons r rs ih =>
    have first := (Compilation.mk r c).numbered
    obtain ⟨n, le, rest⟩ := ih (Compilation.mk r c).after
    exact ⟨n, Nat.le_trans first.le le, first.named.append rest first.le le⟩

/-- **No name is used twice**, in whatever order a compiler is asked and whether it answers or not.
Every compilation takes its numbers from where the one before it has left off, and numbers its units
outside-in.

A compilation never puts its number back, so the numbers of one request lie between where it starts
and where it ends, and those of different requests lie apart.  Inside one request a run takes its
number before those below it take theirs. -/
theorem names_history (c : Compiler) (rs : List Request) :
    (((c.history rs).flatMap fun k => unitsIn k.edits).map CompiledUnit.name).Nodup ∧
    ((c.history rs).Pairwise fun k k' => k.after.nextUnit ≤ k'.before.nextUnit) ∧
    ∀ k ∈ c.history rs, k.before.nextUnit ≤ k.after.nextUnit ∧
      (∀ unit ∈ unitsIn k.edits, ∃ i, unit.name = Job.unitName i ∧
        k.before.nextUnit ≤ i ∧ i < k.after.nextUnit) ∧
      k.job.OutsideIn k.roots k.edits := by
  obtain ⟨n, -, named⟩ := c.named_history rs
  refine ⟨named.nodup, c.pairwise_history rs, fun k _ => ?_⟩
  exact ⟨k.numbered.le, k.numbered.named.number, k.numbered.outsideIn⟩

/-- The second of these is refused. -/
def sumRequests : List Request :=
  [⟨sumScope, ⟨0⟩, [outerSum]⟩, ⟨sumScope, ⟨0⟩, [refusedTerm]⟩, ⟨sumScope, ⟨0⟩, [outerSum]⟩]

theorem names_history_sums :
    (((history ⟨Options.release, 3⟩ sumRequests).flatMap fun k => unitsIn k.edits).map
      CompiledUnit.name).Nodup ∧
    ∃ k ∈ history ⟨Options.release, 3⟩ sumRequests, ∃ inner fragment outer unit,
      k.edits = [inner, fragment, outer] ∧ unit ∈ outer.unit? ∧
      (unitsIn k.edits).map CompiledUnit.name = ["opjit_unit_4", "opjit_unit_3"] ∧
      k.job.EndsBatch k.roots [inner, fragment] outer unit := by
  obtain ⟨distinct, -, each⟩ := names_history ⟨Options.release, 3⟩ sumRequests
  obtain ⟨code, code', h⟩ := Job.compileTerms_outerSum true 3
  have compiled : compile ⟨Options.release, 3⟩ sumScope ⟨0⟩ [outerSum] =
    (.ok _, ⟨Options.release, 5⟩) := compile_of_compileTerms h
  let k : Compilation := ⟨⟨sumScope, ⟨0⟩, [outerSum]⟩, ⟨Options.release, 3⟩⟩
  have edits : k.edits = _ := Compilation.edits_of_ok compiled
  have first : k ∈ history ⟨Options.release, 3⟩ sumRequests := List.mem_cons_self
  obtain ⟨-, -, outsideIn⟩ := each k first
  refine ⟨distinct, k, first, _, _, _, _, edits, rfl, ?_, outsideIn [_, _] _ [] edits _ rfl⟩
  rw [edits]
  rfl

end Compiler

end Graft
