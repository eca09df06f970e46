import Mathlib.Data.List.Nodup
import Mathlib.Data.List.Pairwise
import Graft.Proofs.Coverage

/-! # Runs are sound and cannot be made longer

A run that goes to one unit holds only terms that the compiler takes, and it is one of
two things: a single term that stands outside all sequences (`Alone`), or a block of
neighbouring statements of a sequence whose neighbours on both sides are not taken
(`Block`).  `Region.fits_ofTerms` proves this of the regions of every program, along the
recursion over its terms.  The statements of a sequence carry the invariant: those that
have been collected are taken and stand right before those still to come, and the one
before them is not taken or does not exist, so a run that is closed has no neighbour that
could be added.  The queue that cuts a program gives the same regions
(`Region.partition_eq_ofTerms`), its re-queued runs and statements included.

Equal terms may stand at several places.  On a program whose nodes are told apart
(`Term.numberAll`) a node has one place only (`Term.eq_of_mem_kids`), and the two kinds
of runs then exclude each other: a run with a statement of a sequence in it is a block of
that sequence.
-/

namespace Graft

namespace Term

/-! ### The place of a node -/

def isSequence : Term → Bool
  | sequence _ _ => true
  | _ => false

theorem subset_preorders {ts us : List Term} (h : ts ⊆ us) : preorders ts ⊆ preorders us := by
  intro t ht
  obtain ⟨r, hr, ht⟩ := mem_preorders.mp ht
  exact mem_preorders.mpr ⟨r, h hr, ht⟩

theorem mem_preorders_of_mem {t : Term} {ts : List Term} (h : t ∈ ts) : t ∈ preorders ts :=
  mem_preorders.mpr ⟨t, h, mem_preorder_self t⟩

theorem preorders_kids_subset (t : Term) : preorders t.kids ⊆ preorders [t] := by
  intro u hu
  rw [preorders, preorders, List.append_nil, preorder_eq]
  exact List.mem_cons_of_mem t hu

/-- If the nodes of each term are the term and the parts of its nodes, the nodes of
several terms are these terms and the parts of their nodes. -/
theorem preorders_perm_of_forall {ts : List Term}
    (h : ∀ t ∈ ts, t.preorder.Perm (t :: t.preorder.flatMap kids)) :
    (preorders ts).Perm (ts ++ (preorders ts).flatMap kids) := by
  induction ts with
  | nil => exact List.Perm.nil
  | cons t ts ih =>
    have head := h t (List.mem_cons_self ..)
    have tail := ih fun u hu => h u (List.mem_cons_of_mem t hu)
    rw [preorders, List.flatMap_append]
    refine (head.append tail).trans ?_
    rw [List.cons_append, List.cons_append]
    refine List.Perm.cons t ?_
    rw [← List.append_assoc, ← List.append_assoc]
    exact List.Perm.append_right _ List.perm_append_comm

theorem preorder_perm (t : Term) : t.preorder.Perm (t :: t.preorder.flatMap kids) := by
  induction t using induction with
  | step t ih =>
    rw [preorder_eq t, List.flatMap_cons]
    exact List.Perm.cons t (preorders_perm_of_forall ih)

/-- **Every node of a program is a root or a part of one node**, counted as often as it
stands there. -/
theorem preorders_perm (ts : List Term) :
    (preorders ts).Perm (ts ++ (preorders ts).flatMap kids) :=
  preorders_perm_of_forall fun t _ => preorder_perm t

section

variable {roots : List Term} (distinct : (preorders roots).Nodup)

include distinct

theorem not_mem_roots_of_mem_kids {t p : Term} (hp : p ∈ preorders roots) (ht : t ∈ p.kids) :
    t ∉ roots := by
  have apart := (List.nodup_append'.mp ((preorders_perm roots).nodup_iff.mp distinct)).2.2
  intro hr
  exact apart hr (List.mem_flatMap.mpr ⟨p, hp, ht⟩)

/-- Where the nodes are distinct, a node is a part of one node only. -/
theorem eq_of_mem_kids {t p q : Term} (hp : p ∈ preorders roots) (hq : q ∈ preorders roots)
    (htp : t ∈ p.kids) (htq : t ∈ q.kids) : p = q := by
  have parts := (List.nodup_append'.mp ((preorders_perm roots).nodup_iff.mp distinct)).2.1
  have symmetric : Std.Symm (Function.onFun List.Disjoint kids) :=
    ⟨fun _ _ h _ hb ha => h ha hb⟩
  by_contra hne
  exact (List.nodup_flatMap.mp parts).2.forall hp hq hne htp htq

end

theorem nodup_preorders_numberAll (n : Nat) (ts : List Term) :
    (preorders (numberAll n ts)).Nodup := by
  refine List.Nodup.of_map mark ?_
  rw [map_mark_preorders_numberAll]
  exact List.nodup_range'

end Term

namespace Region

variable (scope : Scope)

/-! ### What runs are like -/

/-- The run is one term that has parts and stands outside all sequences: it is a root, or
a part of a node that is no sequence.  The term is not a sequence itself. -/
def Alone (roots run : List Term) : Prop :=
  ∃ t, run = [t] ∧ t.isLeaf = false ∧ t.isSequence = false ∧
    (t ∈ roots ∨ ∃ p ∈ Term.preorders roots, p.isSequence = false ∧ t ∈ p.kids)

/-- The run is a block of neighbouring statements that cannot be made longer: the
statement before it and the statement after it, if there are any, are not taken. -/
def Unextendable (run statements : List Term) : Prop :=
  ∃ before after, statements = before ++ run ++ after ∧
    (∀ t ∈ before.getLast?, t.isCompilable scope = false) ∧
    (∀ t ∈ after.head?, t.isCompilable scope = false)

/-- The run is such a block of the statements of a sequence of the program. -/
def Block (roots run : List Term) : Prop :=
  ∃ a ts, .sequence a ts ∈ Term.preorders roots ∧ Unextendable scope run ts

/-- How a region has to stand in a program. -/
def Fits (roots : List Term) : Region → Prop
  | compiled run => run ≠ [] ∧ (∀ t ∈ run, t.isCompilable scope = true) ∧
      (Alone roots run ∨ Block scope roots run)
  | interpreted node => node ∈ Term.preorders roots ∧
      (node.isLeaf = true ∨ node.isSequence = true ∨ node.isCompilable scope = false)

variable {scope}

/-! ### Programs around programs

The recursion meets a region below some terms.  These lemmas say how it then stands in
what is around them. -/

theorem Fits.mono {ts us : List Term} {r : Region} (hsub : ts ⊆ us) (h : Fits scope ts r) :
    Fits scope us r := by
  have below := Term.subset_preorders hsub
  cases r with
  | interpreted node => exact ⟨below h.1, h.2⟩
  | compiled run =>
    obtain ⟨hne, hall, ⟨t, rfl, hleaf, hseq, hplace⟩ | ⟨a, ss, hss, hmax⟩⟩ := h
    · refine ⟨hne, hall, .inl ⟨t, rfl, hleaf, hseq, ?_⟩⟩
      rcases hplace with hroot | ⟨p, hp, hpart⟩
      · exact .inl (hsub hroot)
      · exact .inr ⟨p, below hp, hpart⟩
    · exact ⟨hne, hall, .inr ⟨a, ss, below hss, hmax⟩⟩

/-- What stands below a node stands in the same way in the program with the node, except
that a root may have become a part. -/
theorem Fits.ofParts {p : Term} {ts : List Term} {r : Region} (hsub : ts ⊆ p.kids)
    (hroots : p.isSequence = false ∨ ∀ t ∈ ts, t.isCompilable scope = false)
    (h : Fits scope ts r) : Fits scope [p] r := by
  have below : Term.preorders ts ⊆ Term.preorders [p] := fun t ht =>
    p.preorders_kids_subset (Term.subset_preorders hsub ht)
  cases r with
  | interpreted node => exact ⟨below h.1, h.2⟩
  | compiled run =>
    obtain ⟨hne, hall, ⟨t, rfl, hleaf, hseq, hplace⟩ | ⟨a, ss, hss, hmax⟩⟩ := h
    · refine ⟨hne, hall, .inl ⟨t, rfl, hleaf, hseq, .inr ?_⟩⟩
      rcases hplace with hroot | ⟨q, hq, hpart⟩
      · rcases hroots with hp | hnone
        · exact ⟨p, Term.mem_preorders_of_mem (List.mem_singleton_self p), hp, hsub hroot⟩
        -- A statement that is not taken is no run, so a run below it is not a root there.
        · have taken := hall t (List.mem_singleton_self t)
          rw [hnone t hroot] at taken
          cases taken
      · exact ⟨q, below hq, hpart⟩
    · exact ⟨hne, hall, .inr ⟨a, ss, below hss, hmax⟩⟩

/-- A term that is taken as it stands. -/
theorem Fits.whole {t : Term} (hleaf : t.isLeaf = false) (hseq : t.isSequence = false)
    (hc : t.isCompilable scope = true) : Fits scope [t] (compiled [t]) := by
  refine ⟨List.cons_ne_nil t [], ?_,
    .inl ⟨t, rfl, hleaf, hseq, .inl (List.mem_singleton_self t)⟩⟩
  intro u hu
  rw [List.mem_singleton.mp hu]
  exact hc

/-- A node that is left to the interpreter. -/
theorem Fits.single {t : Term}
    (h : t.isLeaf = true ∨ t.isSequence = true ∨ t.isCompilable scope = false) :
    Fits scope [t] (interpreted t) :=
  ⟨Term.mem_preorders_of_mem (List.mem_singleton_self t), h⟩

/-- A collected run is a block of its sequence once it is closed before `after`. -/
theorem Fits.close {a : Attributes} {before run after : List Term} {r : Region}
    (hbefore : ∀ t ∈ before.getLast?, t.isCompilable scope = false)
    (hrun : ∀ t ∈ run, t.isCompilable scope = true)
    (hafter : ∀ t ∈ after.head?, t.isCompilable scope = false)
    (h : r ∈ close run) : Fits scope [.sequence a (before ++ run ++ after)] r := by
  cases run with
  | nil => cases h
  | cons t ts =>
    rw [List.mem_singleton.mp h]
    exact ⟨List.cons_ne_nil t ts, hrun, .inr ⟨a, before ++ (t :: ts) ++ after,
      Term.mem_preorders_of_mem (List.mem_singleton_self _),
      before, after, rfl, hbefore, hafter⟩⟩

/-! ### The recursion -/

/-- The three kinds of node that are taken whole or else looked through. -/
theorem fits_of_taken_or_parts {t : Term} {below : List Region} (hleaf : t.isLeaf = false)
    (hseq : t.isSequence = false) (hbelow : ∀ r ∈ below, Fits scope t.kids r) {r : Region}
    (h : r ∈ if t.isCompilable scope then [compiled [t]] else interpreted t :: below) :
    Fits scope [t] r := by
  split at h
  next hc =>
    rw [List.mem_singleton.mp h]
    exact Fits.whole hleaf hseq hc
  next hc =>
    rcases List.mem_cons.mp h with rfl | h
    · exact Fits.single (.inr (.inr (by simpa using hc)))
    · exact (hbelow r h).ofParts (List.Subset.refl _) (.inl hseq)

variable (scope)

mutual

theorem fits_ofTerm : ∀ (t : Term), ∀ r ∈ ofTerm scope t, Fits scope [t] r
  | .leaf a l, r, h => by
    rw [ofTerm, List.mem_singleton] at h
    rw [h]
    exact Fits.single (.inl rfl)
  | .sequence a ts, r, h => by
    rw [ofTerm] at h
    rcases List.mem_cons.mp h with rfl | h
    · exact Fits.single (.inr (.inl rfl))
    · exact fits_ofStatements a [] [] ts (by simp) (by simp) r h
  | .op a c b ts, r, h => by
    rw [ofTerm] at h
    exact fits_of_taken_or_parts rfl rfl (fits_ofTerms ts) h
  | .statement a t, r, h => by
    rw [ofTerm] at h
    exact fits_of_taken_or_parts rfl rfl (fits_ofTerm t) h
  | .control a f ts, r, h => by
    rw [ofTerm] at h
    exact fits_of_taken_or_parts rfl rfl (fits_ofTerms ts) h

theorem fits_ofTerms : ∀ (ts : List Term), ∀ r ∈ ofTerms scope ts, Fits scope ts r
  | [], r, h => by
    rw [ofTerms] at h
    cases h
  | t :: ts, r, h => by
    rw [ofTerms] at h
    rcases List.mem_append.mp h with h | h
    · exact (fits_ofTerm t r h).mono (by simp)
    · exact (fits_ofTerms ts r h).mono (by simp)

/-- The invariant of the loop over the statements: what has been collected is taken, and
the statement before it, if any, is not. -/
theorem fits_ofStatements (a : Attributes) : ∀ (before run ts : List Term),
    (∀ t ∈ before.getLast?, t.isCompilable scope = false) →
    (∀ t ∈ run, t.isCompilable scope = true) →
    ∀ r ∈ ofStatements scope run ts, Fits scope [.sequence a (before ++ run ++ ts)] r
  | before, run, [], hbefore, hrun, r, h => by
    rw [ofStatements] at h
    exact Fits.close hbefore hrun (by simp) h
  | before, run, t :: ts, hbefore, hrun, r, h => by
    rw [ofStatements] at h
    split at h
    next hc =>
      have grown := fits_ofStatements a before (run ++ [t]) ts hbefore
        (by
          intro u hu
          rcases List.mem_append.mp hu with hu | hu
          · exact hrun u hu
          · rw [List.mem_singleton.mp hu]
            exact hc) r h
      have same : before ++ (run ++ [t]) ++ ts = before ++ run ++ t :: ts := by simp
      rwa [same] at grown
    next hc =>
      have refused : t.isCompilable scope = false := by simpa using hc
      rcases List.mem_append.mp h with h | h
      · rcases List.mem_append.mp h with h | h
        · exact Fits.close hbefore hrun (by simpa using refused) h
        · exact (fits_ofTerm t r h).ofParts (by simp [Term.kids]) (.inr (by simpa using refused))
      · have fresh := fits_ofStatements a (before ++ run ++ [t]) [] ts
          (by simpa using refused) (by simp) r h
        have same : before ++ run ++ [t] ++ [] ++ ts = before ++ run ++ t :: ts := by simp
        rwa [same] at fresh

end

/-! ### Programs as a whole -/

/-- A program is cut into regions as it should be. -/
structure Cuts (roots : List Term) (regions : List Region) : Prop where
  fits : ∀ r ∈ regions, Fits scope roots r
  /-- What the compiler takes, and is in no run, is a leaf or a sequence. -/
  left_out : ∀ t ∈ Term.preorders roots,
    (∀ run, compiled run ∈ regions → t ∉ Term.preorders run) →
    t.isCompilable scope = true → t.isLeaf = true ∨ t.isSequence = true

theorem cuts_partition (roots : List Term) : Cuts scope roots (partition scope roots) := by
  rw [partition_eq_ofTerms]
  refine ⟨fits_ofTerms scope roots, ?_⟩
  intro t ht hout hc
  rw [← flatMap_cover_ofTerms scope roots] at ht
  obtain ⟨r, hr, hcover⟩ := List.mem_flatMap.mp ht
  cases r with
  | compiled run => exact absurd hcover (hout run hr)
  | interpreted node =>
    rw [List.mem_singleton.mp hcover] at hc ⊢
    rcases (fits_ofTerms scope roots _ hr).2 with hleaf | hseq | hnot
    · exact .inl hleaf
    · exact .inr hseq
    · rw [hc] at hnot
      cases hnot

/-- Where nodes are distinct, a run with a statement of a sequence in it is a block of
that sequence. -/
theorem unextendable_of_mem {roots run ts : List Term} {a : Attributes} {t : Term}
    (distinct : (Term.preorders roots).Nodup) (hfits : Fits scope roots (compiled run))
    (hseq : .sequence a ts ∈ Term.preorders roots) (hrun : t ∈ run) (hts : t ∈ ts) :
    Unextendable scope run ts := by
  obtain ⟨-, -, ⟨u, rfl, -, -, hplace⟩ | ⟨b, us, hus, hmax⟩⟩ := hfits
  · obtain rfl := List.mem_singleton.mp hrun
    rcases hplace with hroot | ⟨p, hp, hpseq, hpart⟩
    · exact absurd hroot (Term.not_mem_roots_of_mem_kids distinct hseq hts)
    · rw [Term.eq_of_mem_kids distinct hp hseq hpart hts] at hpseq
      cases hpseq
  · have hmem : t ∈ us := by
      obtain ⟨before, after, rfl, -⟩ := hmax
      simp [hrun]
    obtain ⟨-, rfl⟩ := Term.sequence.inj (Term.eq_of_mem_kids distinct hus hseq hmem hts)
    exact hmax

/-- **Regions are sound and maximal.**  Every run that the queue gives is non-empty and holds only
terms that the compiler takes; it is one term with parts outside all sequences, or a block of
statements of a sequence with no neighbour that is taken.  What is left to the interpreter is a
leaf, a sequence or not taken, so a node in no run that is taken is a leaf or a sequence.  All this
is true of the nodes and not only of equal terms: when they are numbered, which changes the regions
in nothing but the numbers, they are distinct, and a run with a statement of a sequence in it is a
block of that sequence.

The cut of the numbered program fits like any other.  Where nodes are distinct a statement
has one place, so its run is a block, and a block of the sequence that the statement is
in. -/
theorem maximal_partition (roots : List Term) :
    Cuts scope roots (partition scope roots) ∧
      (partition scope (Term.numberAll 0 roots)).map strip = (partition scope roots).map strip ∧
      (Term.preorders (Term.numberAll 0 roots)).Nodup ∧
      Cuts scope (Term.numberAll 0 roots) (partition scope (Term.numberAll 0 roots)) ∧
      ∀ run, compiled run ∈ partition scope (Term.numberAll 0 roots) →
        ∀ a ts, .sequence a ts ∈ Term.preorders (Term.numberAll 0 roots) →
          ∀ t ∈ run, t ∈ ts → Unextendable scope run ts := by
  have distinct := Term.nodup_preorders_numberAll 0 roots
  have cuts := cuts_partition scope (Term.numberAll 0 roots)
  refine ⟨cuts_partition scope roots, ?_, distinct, cuts, ?_⟩
  · rw [partition_eq_ofTerms, partition_eq_ofTerms, ← ofTerms_strip, ← ofTerms_strip,
      Term.stripAll_numberAll]
  · intro run hrun a ts hseq t ht hts
    exact unextendable_of_mem scope distinct (cuts.fits _ hrun) hseq ht hts

/-- Of five statements the third is not taken, but a part of it is; the first two and the
last two go together, though all four are equal. -/
example (scope : Scope) (a : Attributes) :
    let s := Term.statement a (.leaf a (.constant .undefined))
    let inner := Term.op a .negate false [.leaf a (.constant .undefined)]
    let outer := Term.control a .block [inner]
    partition scope [.sequence a [s, s, outer, s, s]] =
      [interpreted (.sequence a [s, s, outer, s, s]), compiled [s, s], interpreted outer,
        compiled [inner], compiled [s, s]] := by
  cbv

end Region

end Graft
