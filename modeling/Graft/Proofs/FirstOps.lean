import Graft.Proofs.Linking

/-! # The first op of a subtree

Which op of a subtree is executed first is computed twice.  Linking finds it from behind: it hands
each op the one to continue with, and gets back where the subtree begins.  `Graph.startOf` goes down
first kids, and stops at a unit and at an op without kids.

Both go by the kinds and kids of the ops alone (`Graph.outline`), which linking keeps.  Where
linking an op succeeds, the way down from it ends (`Graph.LeadsDown`), and it ends at the op that
linking answers (`Graph.linkWithin_leadsDown`).  A way that ends goes through no op twice, so it is
no longer than the arena, and the bound in `Graph.startOf` is never felt
(`Graph.LeadsDown.startOf`).

The induction is on the bound of linking.  In a row of kids the first one is linked last, so the
graph has changed by then; but its outline has not, and a way down is a matter of the outline.
-/

namespace Graft.Graph

variable {g g' : Graph} {n : Nat} {id first : OpId} {cont : Option OpId}

/-! ### Kinds and kids -/

/-- The kind and the kids of an op. -/
def outline (g : Graph) (x : OpId) : Option (OpKind × List OpId) :=
  (g.op? x).map fun op => (op.kind, op.kids)

theorem outline_of_op? {op : Op} (h : g.op? id = some op) :
    g.outline id = some (op.kind, op.kids) := by
  rw [outline, h, Option.map_some]

theorem op?_of_outline {kind : OpKind} {kids : List OpId}
    (h : g.outline id = some (kind, kids)) :
    ∃ op, g.op? id = some op ∧ op.kind = kind ∧ op.kids = kids := by
  obtain ⟨op, ho, he⟩ := Option.map_eq_some_iff.mp h
  exact ⟨op, ho, congrArg Prod.fst he, congrArg Prod.snd he⟩

/-- Changing links keeps kinds and kids. -/
theorem outline_update {f : Op → Op} (hk : ∀ op, (f op).kind = op.kind)
    (hks : ∀ op, (f op).kids = op.kids) : (g.update id f).outline = g.outline := by
  funext x
  unfold outline
  rw [op?_update]
  split
  · cases g.op? x with
    | none => rfl
    | some op => simp only [Option.map_some, hk, hks]
  · rfl

theorem Relinked.outline (h : Relinked g g') : g'.outline = g.outline := by
  funext x
  have hx := h.ops x
  have face : ∀ o : Option Op, o.map (fun op => (op.kind, op.kids)) =
      (o.map Op.skeleton).map fun op => (op.kind, op.kids) := by
    intro o
    cases o <;> rfl
  rw [Graph.outline, Graph.outline, face, face (g.op? x), hx]

theorem op?_eq_none_of_outline (h : g.outline id = none) : g.op? id = none :=
  Option.map_eq_none_iff.mp h

theorem size_le_of_outline (h : g'.outline = g.outline) : g.size ≤ g'.size := by
  have past : g'.op? ⟨g'.size⟩ = none := op?_eq_none_iff.mpr (Nat.le_refl g'.size)
  have same : g.outline ⟨g'.size⟩ = none := by rw [← h, outline, past, Option.map_none]
  exact op?_eq_none_iff.mp (op?_eq_none_of_outline same)

theorem size_congr (h : g'.outline = g.outline) : g'.size = g.size :=
  Nat.le_antisymm (size_le_of_outline h.symm) (size_le_of_outline h)

/-- One step down, read off kind and kids. -/
theorem startWithin_succ (g : Graph) (n : Nat) (id : OpId) : g.startWithin (n + 1) id =
    match g.outline id with
    | some (kind, k :: _) => if kind.isNative then id else g.startWithin n k
    | _ => id := by
  rw [startWithin, outline]
  cases g.op? id with
  | none => rfl
  | some op =>
    obtain ⟨kind, next, other, parent, kids, targ, stacked, state, heir⟩ := op
    cases kids with
    | nil => exact ite_self _
    | cons k ks => rfl

theorem startWithin_congr (h : g'.outline = g.outline) (n : Nat) (id : OpId) :
    g'.startWithin n id = g.startWithin n id := by
  induction n generalizing id with
  | zero => rfl
  | succ n ih => simp only [startWithin_succ, h, ih]

/-- The first op depends on kinds and kids only. -/
theorem startOf_congr (h : g'.outline = g.outline) (id : OpId) : g'.startOf id = g.startOf id := by
  rw [startOf, startOf, size_congr h, startWithin_congr h]

/-! ### The way down -/

/-- **The way down first kids** from an op: the ops on it, and the one where it ends. -/
inductive LeadsDown (g : Graph) : OpId → List OpId → OpId → Prop where
  | here {id : OpId} {kind : OpKind} {kids : List OpId} : g.outline id = some (kind, kids) →
      kind.isNative = true ∨ kids = [] → LeadsDown g id [id] id
  | down {id k first : OpId} {kind : OpKind} {ks path : List OpId} :
      g.outline id = some (kind, k :: ks) → kind.isNative = false →
      LeadsDown g k path first → LeadsDown g id (id :: path) first

namespace LeadsDown

variable {path : List OpId}

theorem congr (h : LeadsDown g id path first) (hg : g'.outline = g.outline) :
    LeadsDown g' id path first := by
  induction h with
  | here ho hs => exact .here (hg ▸ ho) hs
  | down ho hn _ ih => exact .down (hg ▸ ho) hn ih

/-- There is one way down. -/
theorem unique {path' : List OpId} {first' : OpId} (h : LeadsDown g id path first)
    (h' : LeadsDown g id path' first') : path = path' := by
  induction h generalizing path' with
  | here ho hs =>
    cases h' with
    | here => rfl
    | down ho' hn' _ =>
      cases Option.some.inj (ho.symm.trans ho')
      rcases hs with hs | hs
      · rw [hs] at hn'
        cases hn'
      · cases hs
  | down ho hn _ ih =>
    cases h' with
    | here ho' hs' =>
      cases Option.some.inj (ho.symm.trans ho')
      rcases hs' with hs' | hs'
      · rw [hn] at hs'
        cases hs'
      · cases hs'
    | down ho' _ h' =>
      cases Option.some.inj (ho.symm.trans ho')
      rw [ih h']

/-- From every op on the way the rest of it leads on. -/
theorem of_mem (h : LeadsDown g id path first) {x : OpId} (hx : x ∈ path) :
    ∃ rest, LeadsDown g x rest first ∧ rest.length ≤ path.length := by
  induction h with
  | here ho hs =>
    obtain rfl := List.mem_singleton.mp hx
    exact ⟨_, .here ho hs, Nat.le_refl _⟩
  | down ho hn hd ih =>
    rcases List.mem_cons.mp hx with rfl | hx
    · exact ⟨_, .down ho hn hd, Nat.le_refl _⟩
    · obtain ⟨rest, hr, hle⟩ := ih hx
      exact ⟨rest, hr, Nat.le_succ_of_le hle⟩

/-- A way that ends goes through no op twice: the second time it would not be nearer its end. -/
theorem nodup (h : LeadsDown g id path first) : path.Nodup := by
  induction h with
  | here => exact List.nodup_singleton _
  | down ho hn hd ih =>
    refine List.nodup_cons.mpr ⟨fun hmem => ?_, ih⟩
    obtain ⟨rest, hr, hle⟩ := hd.of_mem hmem
    rw [← unique (.down ho hn hd) hr, List.length_cons] at hle
    omega

theorem lt_size (h : LeadsDown g id path first) : ∀ x ∈ path, x.index < g.size := by
  have exists_op : ∀ {x : OpId} {p : OpKind × List OpId}, g.outline x = some p →
      x.index < g.size := by
    intro x p hx
    obtain ⟨op, ho, -⟩ := op?_of_outline hx
    exact lt_size_of_op? ho
  induction h with
  | here ho _ => exact List.forall_mem_singleton.mpr (exists_op ho)
  | down ho _ _ ih => exact List.forall_mem_cons.mpr ⟨exists_op ho, ih⟩

theorem startWithin (h : LeadsDown g id path first) (hn : path.length ≤ n) :
    g.startWithin n id = first := by
  induction h generalizing n with
  | here ho hs =>
    obtain ⟨n, rfl⟩ : ∃ k, n = k + 1 := ⟨n - 1, by simp at hn; omega⟩
    rw [startWithin_succ, ho]
    rcases hs with hs | rfl
    · cases ‹List OpId› <;> simp [hs]
    · rfl
  | down ho hnat _ ih =>
    rw [List.length_cons] at hn
    obtain ⟨n, rfl⟩ : ∃ k, n = k + 1 := ⟨n - 1, by omega⟩
    rw [startWithin_succ, ho]
    simp only [hnat]
    exact ih (by omega)

/-- **Going down finds the end of the way**: it is no longer than the arena. -/
theorem startOf (h : LeadsDown g id path first) : g.startOf id = first :=
  h.startWithin (length_le_of_nodup h.nodup h.lt_size)

end LeadsDown

/-! ### What linking answers -/

/-- The first op of a row of kids is that of the first kid. -/
theorem linkRow_leadsDown (ih : ∀ {kid cont g first g'},
      linkWithin n kid cont g = .ok first g' → ∃ path, LeadsDown g kid path first)
    {k : OpId} {ks : List OpId} {c : Option OpId} (h : linkRow n (k :: ks) cont g = .ok c g') :
    ∃ path first, LeadsDown g k path first ∧ c = some first := by
  rw [linkRow_cons] at h
  obtain ⟨c', g₁, hr, h⟩ := Effect.bind_eq_ok.mp h
  obtain ⟨first, hk, rfl⟩ := Effect.map_eq_ok.mp h
  obtain ⟨path, hd⟩ := ih hk
  exact ⟨path, first, hd.congr (linkRow_relinked linkWithin_relinked hr).outline.symm, rfl⟩

/-- **Linking an op answers where the way down from it ends.** -/
theorem linkWithin_leadsDown (h : linkWithin n id cont g = .ok first g') :
    ∃ path, LeadsDown g id path first := by
  induction n generalizing id cont g first g' with
  | zero => cases h
  | succ n ih =>
    obtain ⟨op, ho, h⟩ := linkWithin_cases h
    have outline := outline_of_op? ho
    have native := op.kind.isNative_iff
    -- every op but a unit begins with its first kid, if it has one
    have down : op.kind.shape ≠ .unit → ∀ {k ks path}, op.kids = k :: ks →
        LeadsDown g k path first → ∃ path, LeadsDown g id path first := by
      intro hs k ks path hks hd
      rw [hks] at outline
      exact ⟨_, .down outline (Bool.eq_false_iff.mpr (mt native.mp hs)) hd⟩
    have row : op.kind.shape ≠ .unit → ∀ {c' c : Option OpId},
        linkRow n op.kids c' (g.update id fun o => { o with next := cont }) = .ok c g' →
        ((op.kids = [] ∧ c = c') → first = id) → (∀ f, op.kids ≠ [] → c = some f → first = f) →
        ∃ path, LeadsDown g id path first := by
      intro hs c' c hr hnil hcons
      cases hks : op.kids with
      | nil =>
        rw [hks] at hr
        cases hr
        rw [hnil ⟨hks, rfl⟩]
        exact ⟨_, .here outline (.inr hks)⟩
      | cons k ks =>
        rw [hks] at hr
        obtain ⟨path, f, hd, hc⟩ := linkRow_leadsDown ih hr
        obtain rfl := hcons f (by simp [hks]) hc
        exact down hs hks (hd.congr (Relinked.setNext g id cont).outline.symm)
    cases hs : op.kind.shape <;> rw [hs] at h
    case plain =>
      refine row (by simp [hs]) h (fun hc => ?_) fun f _ hc => ?_
      · exact Option.some.inj hc.2
      · exact Option.some.inj hc
    case listed =>
      obtain ⟨c, hr, rfl⟩ := h
      refine row (by simp [hs]) hr (fun hc => ?_) fun f hks hc => ?_
      · simp [hc.1]
      · simp [hks, hc]
    case short =>
      obtain ⟨l, r, other, g₁, hks, hr, -, hl⟩ := h
      obtain ⟨path, hd⟩ := ih hl
      have left := (linkWithin_relinked hr).setLinks ho (.inl hs) cont other
      exact down (by simp [hs]) hks (hd.congr left.outline.symm)
    case choice =>
      obtain ⟨c, y, m, other, next, g₁, g₂, hks, hy, hm, -, hc⟩ := h
      obtain ⟨path, hd⟩ := ih hc
      have both := (linkWithin_relinked hy).trans (linkWithin_relinked hm)
      have test := both.setLinks ho (.inr hs) next other
      exact down (by simp [hs]) hks (hd.congr test.outline.symm)
    case unit =>
      rw [h.1]
      exact ⟨_, .here outline (.inl (native.mpr hs))⟩

/-- **Linking answers the first op of the subtree**, as it is read off the graph that linking
leaves. -/
theorem linkWithin_first (h : linkWithin n id cont g = .ok first g') : first = g'.startOf id := by
  obtain ⟨path, hd⟩ := linkWithin_leadsDown h
  exact (hd.congr (linkWithin_relinked h).outline).startOf.symm

end Graft.Graph
