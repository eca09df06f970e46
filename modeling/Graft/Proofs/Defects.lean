import Graft.Proofs.Guards

/-! # Diagnoses that are never given

Two diagnoses are there for mistakes of the compiler itself: that a run has no members, and that a
term which is wanted for its value has none.  Neither is ever given.  Runs come from regions, which
are not empty; and a term without a value is one that was handed over and is not wanted for its
value (`Lowering.term_ne_none`).

All other diagnoses have their reason in the terms, and the steps of a lowering give only such ones
(`Lowering.blameless_invariant`).  So the runs that a compilation attempts are refused for no other
reason (`Job.isDefect_of_diagnoses`).

A caller sees texts.  That no text of a defect is given is more than that no defect is, since a
diagnosis could quote the program and read like one.  So texts are looked at as well
(`Failure.readsAsDefect_message`): they are told apart by how they begin and how they end, and what
comes from the program is too late in the text for the one and never the end of a defect.
-/

namespace Graft

/-! ### Texts

The text of a failure tells whether it is a defect.  What comes from the program stands inside a
text or at its end, so it is enough to look at the first twelve characters and, if these are those
of an internal failure, at the last one. -/

def opening (text : String) : List Char := text.toList.take 12

def closing (text : String) : Option Char := text.toList.getLast?

/-- How the texts of two guards begin, and no others. -/
def guardOpenings : List (List Char) := ["Cannot coerc".toList, "Unable to as".toList]

def internalOpening : List Char := "internal err".toList

/-- How the texts of internal failures end that are defects. -/
def defectClosings : List (Option Char) := [some 'p', some 'g', some 'e', some 'h']

/-- Does the text read like that of a defect? -/
def readsAsDefect (text : String) : Bool :=
  opening text ∈ guardOpenings || (opening text = internalOpening && closing text ∈ defectClosings)

theorem opening_append {a : String} (h : 12 ≤ a.toList.length) (b : String) :
    opening (a ++ b) = opening a := by
  rw [opening, String.toList_append, List.take_append_of_le_length h, opening]

theorem closing_append {b : String} (h : b.toList ≠ []) (a : String) :
    closing (a ++ b) = closing b := by
  rw [closing, String.toList_append, List.getLast?_append_of_ne_nil _ h, closing]

theorem readsAsDefect_of_guard {a : String} (h : 12 ≤ a.toList.length)
    (guard : opening a ∈ guardOpenings) (b : String) : readsAsDefect (a ++ b) = true := by
  simp only [readsAsDefect, opening_append h, guard, decide_true, Bool.true_or]

theorem readsAsDefect_of_other {a : String} (h : 12 ≤ a.toList.length)
    (other : opening a ∉ internalOpening :: guardOpenings) (b : String) :
    readsAsDefect (a ++ b) = false := by
  obtain ⟨notInternal, notGuard⟩ := not_or.mp (List.mem_cons.not.mp other)
  simp only [readsAsDefect, opening_append h, notInternal, notGuard, decide_false, Bool.false_or,
    Bool.false_and]

theorem readsAsDefect_internal {b : String} (h : b.toList ≠ []) (a : String) :
    readsAsDefect ("internal error: " ++ (a ++ b)) = decide (closing b ∈ defectClosings) := by
  have begins : opening ("internal error: " ++ (a ++ b)) = internalOpening :=
    (opening_append (by decide) _).trans (by decide)
  have other : internalOpening ∉ guardOpenings := by decide
  have nonempty : (a ++ b).toList ≠ [] := by
    rw [String.toList_append]
    exact List.append_ne_nil_of_right_ne_nil _ h
  simp only [readsAsDefect, begins, other, closing_append nonempty, closing_append h, decide_false,
    decide_true, Bool.false_or, Bool.true_and]

/-- A text that ends in a number does not end like a defect. -/
theorem closing_toString_not_mem (n : Nat) : closing (toString n) ∉ defectClosings := by
  have ne : Nat.toDigits 10 n ≠ [] := Nat.toDigits_ne_nil
  have digit : ((Nat.toDigits 10 n).getLast ne).isDigit = true :=
    Nat.isDigit_of_mem_toDigits (by decide) (by decide) (List.getLast_mem ne)
  rw [closing, Nat.toString_eq_ofList_toDigits, String.toList_ofList,
    List.getLast?_eq_some_getLast ne]
  intro mem
  simp only [defectClosings, List.mem_cons, Option.some.injEq, List.not_mem_nil, or_false] at mem
  rcases mem with h | h | h | h <;> exact absurd (h ▸ digit) (by decide)

theorem toList_toString_ne_nil (n : Nat) : (toString n).toList ≠ [] := by
  rw [Nat.toString_eq_ofList_toDigits, String.toList_ofList]
  exact Nat.toDigits_ne_nil

theorem Diagnosis.readsAsDefect_message (d : Diagnosis) : readsAsDefect d.message = d.isDefect := by
  cases d with
  | unsupportedConstant c => exact readsAsDefect_of_other (by decide) (by decide) _
  | notAssignable found => exact readsAsDefect_of_other (by decide) (by decide) _
  | missingOrigin what => exact readsAsDefect_of_other (by decide) (by decide) _
  | unimplementedContext c => cases c <;> decide
  | unknownDeclaration n =>
    exact (readsAsDefect_internal (toList_toString_ne_nil n.index) "unknown declaration ").trans
      (decide_eq_false (closing_toString_not_mem n.index))
  | _ => decide

/-- **A failure is a defect if its text reads like one.** -/
theorem Failure.readsAsDefect_message (e : Failure) : readsAsDefect e.message = e.isDefect := by
  cases e with
  | diagnosis d => exact d.readsAsDefect_message
  | uncoercible t => exact readsAsDefect_of_guard (by decide) (by decide) _
  | unstorable t => exact readsAsDefect_of_guard (by decide) (by decide) _
  | notArithmetic c =>
    exact (readsAsDefect_internal (by decide) c.name).trans (decide_eq_true (by decide))
  | answerless h =>
    exact (readsAsDefect_internal (by decide) h.symbol).trans (decide_eq_true (by decide))

theorem Failure.isDefect_of_message {e f : Failure} (h : e.message = f.message) :
    e.isDefect = f.isDefect := by
  rw [← readsAsDefect_message, h, readsAsDefect_message]

/-! ### Fragments -/

/-- A diagnosis that is given instead of an answer is no defect. -/
def Blameless {α : Type} (x : Except Diagnosis α) : Prop :=
  ∀ e, x = .error e → e.isDefect = false

namespace Blameless

variable {α β : Type}

theorem bind {x : Except Diagnosis α} {f : α → Except Diagnosis β} (hx : Blameless x)
    (hf : ∀ a, Blameless (f a)) : Blameless (x >>= f) := by
  cases x with
  | ok a => exact hf a
  | error e =>
    intro e' h
    exact hx e' (by cases h; rfl)

theorem discard {x : Except Diagnosis α} (hx : Blameless x) : Blameless (discard x) := by
  cases x with
  | ok a =>
    intro e h
    cases h
  | error e =>
    intro e' h
    exact hx e' (by cases h; rfl)

theorem hostRoot (t : Term) : Blameless t.hostRoot := by
  intro e h
  unfold Term.hostRoot at h
  split at h
  · cases h
  · cases h
    rfl

theorem exitOps (t : Term) : Blameless t.exitOps := by
  have pure : ∀ ids : List OpId, Blameless (.ok ids) := fun ids e h => by cases h
  fun_induction Term.exitOps t with
  | case1 a b c yes no ihy ihn =>
    exact bind (discard (hostRoot _)) fun _ => bind ihy fun _ => bind ihn fun _ => pure _
  | case2 a b l r ih => exact bind (hostRoot _) fun _ => bind ih fun _ => pure _
  | case3 a b l r ih => exact bind (hostRoot _) fun _ => bind ih fun _ => pure _
  | case4 t => exact bind (hostRoot _) fun _ => pure _

theorem detachment (t : Term) : Blameless t.detachment :=
  bind (hostRoot t) fun _ => bind (exitOps t) fun _ e h => by cases h

end Blameless

/-! ### Diagnoses of the lowering -/

namespace Lowering

/-- **A lowering stops for no mistake of its own**: with a term that has no fragment, or with a
diagnosis that has its reason in the terms. -/
theorem blameless_invariant (scope : Scope) (run : List Term) :
    Invariant scope run (fun _ => True) fun e _ => e.isDefect = false where
  inner _ _ _ := trivial
  fetch _ _ := trivial
  pad _ _ := trivial
  clear _ _ := trivial
  push _ _ := trivial
  call _ _ _ := trivial
  lost {_ t e} _ he _ := Blameless.detachment t e he
  stop he _ := he

/-- What is handed over and wanted for its value has one: it is taken from the stack. -/
theorem handOver_ne_none {t : Term} (ht : t.context = .scalar) {d d' : Draft} :
    handOver t d ≠ .ok none d' := by
  unfold handOver
  rw [if_neg (by simp [ht])]
  intro h
  obtain ⟨-, d₁, -, h⟩ := Effect.bind_eq_ok.mp h
  cases hf : t.detachment with
  | error e =>
    rw [hf] at h
    cases h
  | ok f =>
    rw [hf] at h
    dsimp only at h
    rw [if_pos ht] at h
    cases h

/-- **A term that is wanted for its value has one.** -/
theorem term_ne_none (scope : Scope) {t : Term} (ht : t.context = .scalar) {d d' : Draft} :
    term scope t d ≠ .ok none d' := by
  cases frame : t.isFrame with
  | false =>
    have visited : Visits scope [t] t := .exit (.member (by simp)) frame
    have left := (blameless_invariant scope [t]).term t visited d trivial (Nat.zero_le _)
    intro h
    rw [h] at left
    exact left.2.2.2 ht rfl
  | true =>
    cases t with
    | statement a u => exact handOver_ne_none ht
    | sequence a ts => exact handOver_ne_none ht
    | _ => cases frame

theorem blameless_codeOf (scope : Scope) (run : List Term) : Blameless (codeOf scope run) := by
  intro e h
  obtain ⟨-, he, -⟩ := (blameless_invariant scope run).of_refused trivial h
  exact he

theorem blameless_of_mem_handoversOf {scope : Scope} {run : List Term} {h : Handover}
    (hh : h ∈ handoversOf scope run) : Blameless h.detachment := by
  rw [(handsOver_of_mem hh).2]
  exact .detachment _

end Lowering

namespace Job

variable {job : Job} {roots run : List Term} {e : Diagnosis}

theorem blameless_span (ne : run ≠ []) : Blameless (span run) := by
  intro e h
  rw [span, List.head?_eq_some_head ne, List.getLast?_eq_some_getLast ne] at h
  dsimp only at h
  split at h
  · cases h
  · cases h
    rfl
  · cases h
    rfl

/-- **A run that is attempted is never refused by a mistake.** -/
theorem isDefect_of_diagnoses (hrun : job.Attempts roots run) (h : job.Diagnoses run e) :
    e.isDefect = false := by
  cases h with
  | ends h => exact blameless_span hrun.taken.1 e h
  | fragment hh h => exact Lowering.blameless_of_mem_handoversOf hh e h
  | node h => exact Lowering.blameless_codeOf _ _ e h

theorem blameless_compileTerms {n n' : Nat} (h : job.compileTerms roots n = .error e n') :
    e.isDefect = false := by
  obtain ⟨run, hrun, diagnosed⟩ := attempt_of_error h
  exact isDefect_of_diagnoses hrun diagnosed

theorem blameless_runEdits {n n' : Nat} (hrun : job.Attempts roots run)
    (h : job.runEdits run n = .error e n') : e.isDefect = false := by
  rcases runEdits_eq_error h with diagnosed | ⟨ho, hho, n₁, n₂, below⟩
  · exact isDefect_of_diagnoses hrun diagnosed
  · exact blameless_compileTerms below

end Job

namespace Guarded

variable {scope : Scope} {t : Term} {d d' : Draft}

/-- A value is a double, an integer, an unsigned integer or a box. -/
theorem type_of_term {v : Emitted} (h : term scope t d = .ok (some v) d') :
    v.type ∈ [.double, .int, .unsigned, .scalar] := by
  rw [term_eq, represent_eq_ok] at h
  obtain ⟨w, -, hw⟩ := h
  obtain ⟨o, rfl, rfl⟩ := Option.map_eq_some_iff.mp hw
  cases o <;> simp [Operand.emitted]

theorem term_ne_none (ht : t.context = .scalar) : term scope t d ≠ .ok none d' := by
  intro h
  rw [term_eq, represent_eq_ok] at h
  obtain ⟨w, hw, none⟩ := h
  rw [Option.map_eq_none_iff.mp none] at hw
  exact Lowering.term_ne_none scope ht hw

theorem isDefect_of_runEdits {job : Job} {roots run : List Term} (hrun : job.Attempts roots run)
    {n n' : Nat} {e : Failure} (h : runEdits job run n = .error e n') : e.isDefect = false := by
  rw [runEdits_lift fun h _ => compileTerms_lift h.term.kids, lift_eq_error] at h
  obtain ⟨d, h, rfl⟩ := h
  exact Job.blameless_runEdits hrun h

theorem isDefect_of_compile {c c' : Compiler} {owner : OwnerId} {roots : List Term} {e : Failure}
    (h : compile c scope owner roots = (.error e, c')) : e.isDefect = false := by
  unfold compile at h
  split at h
  · cases h
  · next e' n hterms =>
    cases h
    rw [compileTerms_lift, lift_eq_error] at hterms
    obtain ⟨d, hterms, rfl⟩ := hterms
    exact Job.blameless_compileTerms hterms

theorem message_of_compile {c c' : Compiler} {owner : OwnerId} {roots : List Term} {d : Diagnosis}
    (h : c.compile scope owner roots = (.error d, c')) {f : Failure} (hf : f.isDefect = true) :
    d.message ≠ f.message := by
  intro (same : (Failure.diagnosis d).message = f.message)
  have guarded : compile c scope owner roots = (.error (.diagnosis d), c') := by
    rw [compile_lift, h]
    rfl
  have blameless := isDefect_of_compile guarded
  rw [Failure.isDefect_of_message same, hf] at blameless
  cases blameless

/-- **No guard fires, and the compiler is never mistaken.**  For all terms and under all options,
the guarded compiler does what the plain one does, and so does the guarded lowering of a term.
Every value that is emitted is a double, an integer, an unsigned integer or a box, and a term that
is wanted for its value has one.  Neither the compilation nor any run that it attempts fails at a
guard or by a mistake, and no diagnosis has the text of such a failure.

The guarded compiler is the plain one behind a change of what is thrown, so its failures are
diagnoses of the plain one, and these are those of attempted runs, which are never defects.  A text
tells whether its failure is a defect, so two failures with one text are both defects or neither. -/
theorem compile_faithful (c : Compiler) (scope : Scope) (owner : OwnerId) (roots : List Term) :
    compile c scope owner roots =
      ((c.compile scope owner roots).1.mapError .diagnosis, (c.compile scope owner roots).2) ∧
    (∀ t, term scope t = represent (Lowering.term scope t)) ∧
    (∀ t d v d', term scope t d = .ok (some v) d' →
      v.type ∈ [.double, .int, .unsigned, .scalar]) ∧
    (∀ t d d', t.context = .scalar → term scope t d ≠ .ok none d') ∧
    (∀ e c', compile c scope owner roots = (.error e, c') → e.isDefect = false) ∧
    (∀ run, Job.Attempts ⟨scope, owner, c.options.strict⟩ roots run →
      ∀ n e n', runEdits ⟨scope, owner, c.options.strict⟩ run n = .error e n' →
        e.isDefect = false) ∧
    ∀ d c', c.compile scope owner roots = (.error d, c') →
      ∀ f : Failure, f.isDefect = true → d.message ≠ f.message := by
  refine ⟨compile_lift c scope owner roots, term_eq scope, ?_, ?_, ?_, ?_, ?_⟩
  · intro t d v d' h
    exact type_of_term h
  · intro t d d' ht
    exact term_ne_none ht
  · intro e c' h
    exact isDefect_of_compile h
  · intro run hrun n e n' h
    exact isDefect_of_runEdits hrun h
  · intro d c' h f hf
    exact message_of_compile h hf

end Guarded

end Graft
