import Graft.Region
import Mathlib.Data.List.Flatten

/-! # Hiding more variables

Of the types of variables the compiler asks only one thing when it chooses what to take: whether
they are hidden.  Its choice falls with that.  In a scope that hides more variables, more terms
reach a hidden one and fewer are taken (`Scope.HidesMore.isCompilable`).  The choice asks whether
an operator does *not* reach a hidden variable, whether at least *half* of a sequence is taken and
whether the value of an assignment is; each of the three goes the same way.

What is not taken as a whole may still be taken in parts.  The parts are then inside of what would
have been taken, so that the nodes which the regions of a program give to the compiler
(`Region.taken`) become fewer too, and keep their order.

Scopes that hide the same variables are cut alike (`Scope.HidesAlike.ofTerms`).
-/

namespace Graft

namespace Scope

/-- Every variable that is hidden in `s'` is hidden in `s`. -/
def HidesMore (s s' : Scope) : Prop :=
  ∀ d, (s'.typeOf d).isHidden = true → (s.typeOf d).isHidden = true

/-- The same variables are hidden. -/
def HidesAlike (s s' : Scope) : Prop := ∀ d, (s'.typeOf d).isHidden = (s.typeOf d).isHidden

theorem typeOf_eq (s : Scope) (d : DeclId) :
    s.typeOf d = ((s.get? d).map Declaration.type).getD .any := by
  unfold typeOf
  cases s.get? d <;> rfl

/-- A variable that is declared has the type that it was given, and the others have theirs. -/
theorem typeOf_setType (s : Scope) (d e : DeclId) (type : ValueType) :
    (s.setType d type).typeOf e =
      if d = e ∧ (s.get? e).isSome then type else s.typeOf e := by
  have found : (s.setType d type).get? e =
      if d = e then (s.get? e).map fun v => { v with type } else s.get? e := by
    unfold setType get?
    rw [Array.getElem?_modify]
    by_cases h : d = e
    · rw [if_pos (congrArg DeclId.index h), if_pos h]
    · rw [if_neg fun hi => h (by cases d; cases e; exact congrArg DeclId.mk hi), if_neg h]
  rw [typeOf, found, typeOf]
  by_cases h : d = e
  · cases s.get? e <;> simp [h]
  · simp [h]

/-- **Marking a variable as hidden hides more.** -/
theorem hidesMore_setType (s : Scope) (d : DeclId) : (s.setType d .hidden).HidesMore s := by
  intro e he
  rw [typeOf_setType]
  split
  · rfl
  · exact he

theorem HidesAlike.le {s s' : Scope} (h : s.HidesAlike s') : s.HidesMore s' := fun d hd => by
  rwa [h d] at hd

theorem HidesAlike.ge {s s' : Scope} (h : s.HidesAlike s') : s'.HidesMore s := fun d hd => by
  rwa [h d]

end Scope

/-! ### What is taken -/

namespace Scope.HidesMore

variable {s s' : Scope}

mutual

/-- What reaches a hidden variable still does. -/
theorem reachesHidden (h : s.HidesMore s') :
    ∀ t : Term, t.reachesHidden s' = true → t.reachesHidden s = true
  | .leaf _ (.lexical d), ht | .leaf _ (.declaration d), ht => by
    simp only [Term.reachesHidden] at ht ⊢
    exact h d ht
  | .leaf _ (.constant _), ht | .leaf _ (.global _), ht | .leaf _ .hostTree, ht
  | .statement _ _, ht | .sequence _ _, ht | .control _ _ _, ht => by
    simp [Term.reachesHidden] at ht
  | .op _ c _ ts, ht => by
    simp only [Term.reachesHidden, Bool.and_eq_true] at ht ⊢
    exact ⟨ht.1, reachesHiddenAny h ts ht.2⟩

theorem reachesHiddenAny (h : s.HidesMore s') : ∀ ts : List Term,
    Term.reachesHiddenAny s' ts = true → Term.reachesHiddenAny s ts = true
  | [], hts => by simp [Term.reachesHiddenAny] at hts
  | t :: ts, hts => by
    simp only [Term.reachesHiddenAny, Bool.or_eq_true] at hts ⊢
    exact hts.imp (reachesHidden h t) (reachesHiddenAny h ts)

end

mutual

/-- **What is taken where more is hidden is taken where less is.** -/
theorem isCompilable (h : s.HidesMore s') :
    ∀ t : Term, t.isCompilable s = true → t.isCompilable s' = true
  | .leaf _ (.constant _), _ | .leaf _ (.lexical _), _ | .leaf _ (.declaration _), _ => by
    simp [Term.isCompilable]
  | .leaf _ (.global _), ht | .leaf _ .hostTree, ht | .control _ _ _, ht => by
    simp [Term.isCompilable] at ht
  | .statement _ t, ht => by
    simp only [Term.isCompilable] at ht ⊢
    exact isCompilable h t ht
  | .sequence _ ts, ht => by
    have more := countCompilable h ts
    simp only [Term.isCompilable, ge_iff_le, decide_eq_true_eq] at ht ⊢
    omega
  | .op a c b ts, ht => by
    simp only [Term.isCompilable, Bool.and_eq_true, Bool.not_eq_true', Bool.or_eq_true] at ht ⊢
    obtain ⟨⟨coded, clear⟩, value⟩ := ht
    refine ⟨⟨coded, ?_⟩, value.imp_right (secondCompilable h ts)⟩
    -- the search for a hidden variable is negated, so it goes the other way
    rw [Bool.eq_false_iff] at clear ⊢
    exact fun reached => clear (h.reachesHidden _ reached)

theorem countCompilable (h : s.HidesMore s') : ∀ ts : List Term,
    Term.countCompilable s ts ≤ Term.countCompilable s' ts
  | [] => by simp [Term.countCompilable]
  | t :: ts => by
    have head := isCompilable h t
    have tail := countCompilable h ts
    simp only [Term.countCompilable]
    cases ht : t.isCompilable s with
    | false => simp only [Bool.false_eq_true, if_false]; omega
    | true => simp only [head ht, if_true]; omega

theorem secondCompilable (h : s.HidesMore s') : ∀ ts : List Term,
    Term.secondCompilable s ts = true → Term.secondCompilable s' ts = true
  | [], hts | [_], hts => by simp [Term.secondCompilable] at hts
  | _ :: t :: _, hts => by
    simp only [Term.secondCompilable] at hts ⊢
    exact isCompilable h t hts

end

end Scope.HidesMore

/-! ### What regions give to the compiler -/

namespace Region

/-- The nodes that a region gives to the compiler, in pre-order. -/
def taken : Region → List Term
  | compiled run => Term.preorders run
  | interpreted _ => []

variable {s s' : Scope}

theorem flatMap_taken_close (run : List Term) :
    (close run).flatMap taken = Term.preorders run := by
  cases run <;> simp [close, taken, Term.preorders]

/-- What is taken of a term is some of its nodes. -/
theorem taken_sublist_preorder (s : Scope) (t : Term) :
    ((ofTerm s t).flatMap taken).Sublist t.preorder := by
  rw [← flatMap_cover_ofTerm s t]
  refine List.Sublist.flatMap_right _ fun r _ => ?_
  cases r with
  | compiled run => exact .refl _
  | interpreted t => exact List.nil_sublist _

/-- The statements that have been collected are taken, whatever comes after them. -/
theorem taken_ofStatements_run (s : Scope) (run ts : List Term) :
    (ofStatements s run ts).flatMap taken =
      Term.preorders run ++ (ofStatements s [] ts).flatMap taken := by
  induction ts generalizing run with
  | nil => simp [ofStatements, flatMap_taken_close, Term.preorders]
  | cons t ts ih =>
    rw [ofStatements, ofStatements]
    split
    · rw [ih (run ++ [t]), ih ([] ++ [t])]
      simp [Term.preorders_append, List.append_assoc]
    · simp [flatMap_taken_close, Term.preorders]

/-- A term that is taken as a whole or else in parts: if fewer nodes of the parts are taken, then
so are fewer nodes of the term. -/
theorem taken_of_parts (h : s.HidesMore s') {t : Term} {parts parts' : List Region}
    (hs : ofTerm s t = if t.isCompilable s then [compiled [t]] else interpreted t :: parts)
    (hs' : ofTerm s' t = if t.isCompilable s' then [compiled [t]] else interpreted t :: parts')
    (hparts : (parts.flatMap taken).Sublist (parts'.flatMap taken)) :
    ((ofTerm s t).flatMap taken).Sublist ((ofTerm s' t).flatMap taken) := by
  cases whole' : t.isCompilable s' with
  | true =>
    rw [hs', whole']
    simpa [taken, Term.preorders] using taken_sublist_preorder s t
  | false =>
    have whole : t.isCompilable s = false :=
      Bool.eq_false_iff.mpr fun ht => by simp [h.isCompilable t ht] at whole'
    rw [hs, hs', whole, whole']
    simpa [taken] using hparts

mutual

theorem taken_ofTerm (h : s.HidesMore s') : ∀ t : Term,
    ((ofTerm s t).flatMap taken).Sublist ((ofTerm s' t).flatMap taken)
  | .leaf _ _ => by simp only [ofTerm]; exact .refl _
  | .sequence _ ts => by
    simp only [ofTerm, List.flatMap_cons]
    exact .append (.refl _) (taken_ofStatements h ts)
  | .op _ _ _ ts => taken_of_parts h (by rw [ofTerm]) (by rw [ofTerm]) (taken_ofTerms h ts)
  | .statement _ t => taken_of_parts h (by rw [ofTerm]) (by rw [ofTerm]) (taken_ofTerm h t)
  | .control _ _ ts => taken_of_parts h (by rw [ofTerm]) (by rw [ofTerm]) (taken_ofTerms h ts)

/-- **Where more is hidden, fewer nodes are given to the compiler**, in the same order. -/
theorem taken_ofTerms (h : s.HidesMore s') : ∀ ts : List Term,
    ((ofTerms s ts).flatMap taken).Sublist ((ofTerms s' ts).flatMap taken)
  | [] => by simp only [ofTerms]; exact .refl _
  | t :: ts => by
    simp only [ofTerms, List.flatMap_append]
    exact .append (taken_ofTerm h t) (taken_ofTerms h ts)

theorem taken_ofStatements (h : s.HidesMore s') : ∀ ts : List Term,
    ((ofStatements s [] ts).flatMap taken).Sublist ((ofStatements s' [] ts).flatMap taken)
  | [] => by simp only [ofStatements]; exact .refl _
  | t :: ts => by
    have head := taken_ofTerm h t
    have tail := taken_ofStatements h ts
    -- what the statement gives to the compiler: all of it, or what is taken of its parts
    have cut : ∀ s : Scope, (ofStatements s [] (t :: ts)).flatMap taken =
        (if t.isCompilable s then t.preorder else (ofTerm s t).flatMap taken) ++
          (ofStatements s [] ts).flatMap taken := by
      intro s
      rw [ofStatements]
      split
      · rw [taken_ofStatements_run]
        simp [Term.preorders]
      · simp [flatMap_taken_close, Term.preorders]
    rw [cut s, cut s']
    refine .append ?_ tail
    cases whole : t.isCompilable s with
    | true => simp [h.isCompilable t whole]
    | false =>
      rw [if_neg Bool.false_ne_true]
      split
      · exact taken_sublist_preorder s t
      · exact head

end

/-- **Hiding variables only takes terms away from the compiler.**  Where every variable that `s'`
hides is hidden in `s`, a term that reaches a hidden variable in `s'` reaches one in `s`, and a
term that is taken in `s` is taken in `s'`; and of a program the nodes that are given to the
compiler in `s` are some of those that are in `s'`.  In particular a variable may be marked as
hidden.

Reaching a hidden variable is monotone in what is hidden, and being taken is its negation where
there is code at all.  For whole programs the nodes are compared in the order in which regions are
cut: a term that is taken in one scope and not in the other is opened there, and its parts come in
its place. -/
theorem taken_antitone {s s' : Scope} (h : s.HidesMore s') :
    (∀ t : Term, t.reachesHidden s' = true → t.reachesHidden s = true) ∧
    (∀ t : Term, t.isCompilable s = true → t.isCompilable s' = true) ∧
    (∀ roots : List Term,
      ((ofTerms s roots).flatMap taken).Sublist ((ofTerms s' roots).flatMap taken)) ∧
    ∀ (d : DeclId) (t : Term), t.isCompilable (s'.setType d .hidden) = true →
      t.isCompilable s' = true :=
  ⟨h.reachesHidden, h.isCompilable, taken_ofTerms h,
    fun d => (s'.hidesMore_setType d).isCompilable⟩

/-! Three statements, of which two use a variable that is hidden later: `x += y`, `y += 1` and
`x += 1`. -/

def openScope : Scope := ⟨#[⟨"x", ⟨0⟩, .double⟩, ⟨"y", ⟨1⟩, .any⟩]⟩

def increment (target : DeclId) (value : Leaf) : Term :=
  .statement {} (.op {} .add true [.leaf {} (.lexical target), .leaf {} value])

def increments : Term :=
  .sequence {} [increment ⟨0⟩ (.lexical ⟨1⟩), increment ⟨1⟩ (.constant (.int 1)),
    increment ⟨0⟩ (.constant (.int 1))]

/-- With the variable hidden less than half of the statements is taken, and of the program only the
last one. -/
theorem taken_antitone_increments :
    (openScope.setType ⟨1⟩ .hidden).HidesMore openScope ∧
    (increments.isCompilable openScope = true ∧
      increments.isCompilable (openScope.setType ⟨1⟩ .hidden) = false) ∧
    ((ofTerms (openScope.setType ⟨1⟩ .hidden) [increments]).flatMap taken =
      (increment ⟨0⟩ (.constant (.int 1))).preorder) ∧
    ((ofTerms (openScope.setType ⟨1⟩ .hidden) [increments]).flatMap taken).Sublist
      ((ofTerms openScope [increments]).flatMap taken) :=
  have hides := openScope.hidesMore_setType ⟨1⟩
  ⟨hides, by decide, by rfl, (taken_antitone hides).2.2.1 [increments]⟩

end Region

/-! ### Scopes that hide the same variables -/

namespace Scope.HidesAlike

variable {s s' : Scope}

theorem reachesHidden (h : s.HidesAlike s') (t : Term) :
    t.reachesHidden s' = t.reachesHidden s :=
  Bool.eq_iff_iff.mpr ⟨h.le.reachesHidden t, h.ge.reachesHidden t⟩

/-- What the compiler takes depends on types only through the hidden variables. -/
theorem isCompilable (h : s.HidesAlike s') (t : Term) : t.isCompilable s' = t.isCompilable s :=
  Bool.eq_iff_iff.mpr ⟨h.ge.isCompilable t, h.le.isCompilable t⟩

mutual

/-- So do the regions of a program. -/
theorem ofTerm (h : s.HidesAlike s') : ∀ t : Term, Region.ofTerm s' t = Region.ofTerm s t
  | .leaf _ _ => by simp only [Region.ofTerm]
  | .sequence _ ts => by simp only [Region.ofTerm, ofStatements h [] ts]
  | .op _ _ _ ts => by simp only [Region.ofTerm, h.isCompilable, ofTerms h ts]
  | .statement _ t => by simp only [Region.ofTerm, h.isCompilable, ofTerm h t]
  | .control _ _ ts => by simp only [Region.ofTerm, h.isCompilable, ofTerms h ts]

theorem ofTerms (h : s.HidesAlike s') :
    ∀ ts : List Term, Region.ofTerms s' ts = Region.ofTerms s ts
  | [] => by simp only [Region.ofTerms]
  | t :: ts => by simp only [Region.ofTerms, ofTerm h t, ofTerms h ts]

theorem ofStatements (h : s.HidesAlike s') :
    ∀ run ts : List Term, Region.ofStatements s' run ts = Region.ofStatements s run ts
  | run, [] => by simp only [Region.ofStatements]
  | run, t :: ts => by
    simp only [Region.ofStatements, h.isCompilable, ofTerm h t, ofStatements h [] ts,
      ofStatements h (run ++ [t]) ts]

end

end Scope.HidesAlike

end Graft
