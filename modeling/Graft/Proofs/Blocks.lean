import Graft.Proofs.Batches
import Graft.Proofs.Lowered
import Graft.Proofs.Replacement

/-! # Nested statements

The statements of a list may be lists of statements themselves.  An `Item` is a statement with
the ops that it was read from: an expression behind its marker, or a block of items below a list
op of its own.

The members of a run are lowered one after the other, and blocks among them are only their
parts.  So a block that is taken may hold expressions that are not; these are handed over like
operands (`Hands`), and taking them out leaves gaps in the list of the block.  A unit can be put
in the place of a run if what the run starts and ends with is left in one list
(`Term.isContiguous`).

`Hands` relates items to the trees that a run of them gives away, and is used from two sides.  The
edits of the run are detachments of these trees, and they are met going down from the list, none
inside another (`Hands.carves`); so the detachments do not get in each other's way.  And the
lowering hands over exactly these terms, in this order (`Lowering.roots_handed`).

What remains between the first and the last op of a run is a matter of ends only: the first op lies
in the first tree, the last one may lie deep in a block, and whether either has been handed over is
decided by its own term.
-/

namespace Graft

open HostTree

/-! ### Runs that are ranges of siblings -/

namespace Term

/-- Is the statement a list of statements? -/
def isBlock : Term → Bool
  | statement _ t => t.isBlock
  | sequence _ _ => true
  | _ => false

variable (scope : Scope)

/-- Is the op of the statement still in its list when all that a unit hands over has been taken
out? -/
def remains (t : Term) : Bool := t.isBlock || t.isCompilable scope

/-- Is the last op of the statement that of the statement, and is it still there? -/
def ends (t : Term) : Bool := !t.isBlock && t.isCompilable scope

mutual

/-- Is what is left of the statement a range of siblings, from its first op to its last? -/
def isContiguous : Term → Bool
  | statement _ t => t.isContiguous
  | sequence _ ts => areContiguous ts
  | t => t.isCompilable scope

/-- Is what is left of the statements a range of siblings?  A single statement may be a block
that is one; of several, the first and the last are left in the list. -/
def areContiguous : List Term → Bool
  | [] => false
  | [t] => t.isContiguous
  | t :: u :: ts => t.remains scope && (u :: ts).getLast?.any (ends scope)

end

end Term

/-! ### Items -/

/-- A statement with its ops: an expression, or a block.  A block may be wrapped in a statement
and may have a marker. -/
inductive Item where
  | expr (s : Statement)
  | block (wrap : Option Attributes) (marker : Option OpId) (attrs : Attributes) (id : OpId)
      (items : List Item)

namespace Item

mutual

/-- The item as a term. -/
def term : Item → Term
  | expr s => s.term
  | block none _ a _ is => .sequence a (terms is)
  | block (some b) _ a _ is => .statement b (.sequence a (terms is))

def terms : List Item → List Term
  | [] => []
  | i :: is => i.term :: terms is

end

/-- The marker before the item. -/
def lead : Item → List HostTree
  | expr s => [s.mark]
  | block _ m _ _ _ => m.toList.map fun id => node id ⟨.mark, none, false⟩ []

mutual

/-- The ops of the item behind its marker. -/
def tree : Item → HostTree
  | expr s => s.tree
  | block _ _ _ id is => node id ⟨.statements, none, false⟩ (rows is)

/-- The ops of items in a list, with their markers. -/
def rows : List Item → List HostTree
  | [] => []
  | i :: is => i.lead ++ i.tree :: rows is

end

mutual

/-- The expressions of the item were read from their ops. -/
def Mirrored (scope : Scope) : Item → Prop
  | expr s => Mirrors scope .void s.expr s.tree
  | block _ _ _ _ is => AllMirrored scope is

def AllMirrored (scope : Scope) : List Item → Prop
  | [] => True
  | i :: is => i.Mirrored scope ∧ AllMirrored scope is

end

mutual

/-- Induction over items and what is in their blocks. -/
theorem induction {P : List Item → Prop} (nil : P []) (expr : ∀ s is, P is → P (.expr s :: is))
    (block : ∀ w m a id ks is, P ks → P is → P (.block w m a id ks :: is)) : ∀ is, P is
  | [] => nil
  | i :: is => induction_cons nil expr block i is (induction nil expr block is)

theorem induction_cons {P : List Item → Prop} (nil : P [])
    (expr : ∀ s is, P is → P (.expr s :: is))
    (block : ∀ w m a id ks is, P ks → P is → P (.block w m a id ks :: is)) :
    ∀ i is, P is → P (i :: is)
  | .expr s, is, h => expr s is h
  | .block w m a id ks, is, h => block w m a id ks is (induction nil expr block ks) h

end

variable {scope : Scope} {i : Item} {is js : List Item}

@[simp] theorem terms_append (is js : List Item) : terms (is ++ js) = terms is ++ terms js := by
  induction is with
  | nil => rfl
  | cons i is ih => simp [terms, ih]

@[simp] theorem rows_append (is js : List Item) : rows (is ++ js) = rows is ++ rows js := by
  induction is with
  | nil => rfl
  | cons i is ih => simp [rows, ih]

theorem allMirrored_append :
    AllMirrored scope (is ++ js) ↔ AllMirrored scope is ∧ AllMirrored scope js := by
  induction is with
  | nil => simp [AllMirrored]
  | cons i is ih => simp [AllMirrored, ih, and_assoc]

theorem AllMirrored.mem (h : AllMirrored scope is) (hi : i ∈ is) : i.Mirrored scope := by
  induction is with
  | nil => cases hi
  | cons j is ih =>
    rcases List.mem_cons.mp hi with rfl | hi
    · exact h.1
    · exact ih h.2 hi

theorem tree_mem_rows (hi : i ∈ is) : i.tree ∈ rows is := by
  induction is with
  | nil => cases hi
  | cons j is ih =>
    rcases List.mem_cons.mp hi with rfl | hi
    · simp [rows]
    · simp [rows, ih hi]

/-- A marker is an op by itself. -/
theorem exists_of_mem_lead {t : HostTree} (h : t ∈ i.lead) :
    ∃ m, t = node m ⟨.mark, none, false⟩ [] := by
  cases i with
  | expr s =>
    obtain rfl := List.mem_singleton.mp h
    exact ⟨s.marker, rfl⟩
  | block w m a id is =>
    obtain ⟨m, -, rfl⟩ := List.mem_map.mp h
    exact ⟨m, rfl⟩

/-- A marker is not what was read. -/
theorem Mirrored.tree_ne_mark (h : i.Mirrored scope) (m : OpId) :
    i.tree ≠ node m ⟨.mark, none, false⟩ [] := by
  cases i with
  | expr s =>
    rw [Mirrored] at h
    rw [tree]
    generalize s.expr = t, s.tree = T at h
    cases h <;> simp
  | block w m' a id is => simp [tree]

/-- What is in a row is a marker or the tree of an item. -/
theorem mem_rows {t : HostTree} (h : t ∈ rows is) : ∃ i ∈ is, t ∈ i.lead ∨ t = i.tree := by
  induction is with
  | nil => cases h
  | cons j is ih =>
    simp only [rows, List.mem_append, List.mem_cons] at h
    rcases h with h | h | h
    · exact ⟨j, by simp, .inl h⟩
    · exact ⟨j, by simp, .inr h⟩
    · obtain ⟨i, hi, h⟩ := ih h
      exact ⟨i, by simp [hi], h⟩

theorem isBlock_expr {s : Statement} (h : Mirrors scope .void s.expr s.tree) :
    (expr s).term.isBlock = false := by
  rw [term, Statement.term, Term.isBlock]
  generalize s.expr = t, s.tree = T at h
  cases h <;> rfl

@[simp] theorem isBlock_block (w : Option Attributes) (m : Option OpId) (a : Attributes) (id : OpId)
    (is : List Item) : (block w m a id is).term.isBlock = true := by
  cases w <;> simp [term, Term.isBlock]

/-- **No unit is among the ops of items.** -/
theorem AllMirrored.unitless (h : AllMirrored scope is) :
    ∀ t ∈ subtreesAll (rows is), t.shape ≠ .unit := by
  have leads : ∀ (i : Item), ∀ t ∈ subtreesAll i.lead, t.shape ≠ .unit := by
    intro i t ht
    obtain ⟨u, hu, ht⟩ := mem_subtreesAll.mp ht
    obtain ⟨m, rfl⟩ := exists_of_mem_lead hu
    obtain rfl : t = node m ⟨.mark, none, false⟩ [] := by simpa [subtrees, subtreesAll] using ht
    simp [HostTree.shape, OpKind.shape]
  -- of each item the marker, the tree, and the rest of the row
  have row : ∀ (i : Item) (is : List Item), (∀ t ∈ i.tree.subtrees, t.shape ≠ .unit) →
      (∀ t ∈ subtreesAll (rows is), t.shape ≠ .unit) →
      ∀ t ∈ subtreesAll (rows (i :: is)), t.shape ≠ .unit := by
    intro i is htree hrest t ht
    obtain ⟨u, hu, ht⟩ := mem_subtreesAll.mp ht
    simp only [rows, List.mem_append, List.mem_cons] at hu
    rcases hu with hu | rfl | hu
    · exact leads i t (mem_subtreesAll.mpr ⟨u, hu, ht⟩)
    · exact htree t ht
    · exact hrest t (mem_subtreesAll.mpr ⟨u, hu, ht⟩)
  induction is using Item.induction with
  | nil => simp [rows, subtreesAll]
  | expr s is ih =>
    simp only [AllMirrored, Mirrored] at h
    exact row _ _ (fun t ht => (h.1.shape t ht).1) (ih h.2)
  | block w m a id ks is ihk ih =>
    simp only [AllMirrored, Mirrored] at h
    refine row _ _ (fun t ht => ?_) (ih h.2)
    rw [tree] at ht
    rcases mem_subtrees_iff.mp ht with rfl | ⟨k, hk, ht⟩
    · simp [HostTree.shape, OpKind.shape]
    · exact ihk h.1 t (mem_subtreesAll.mpr ⟨k, hk, ht⟩)

/-! ### What items hand over -/

/-- **The terms that lowering items hands over**, with their trees. -/
inductive Hands (scope : Scope) : List Item → List (Term × HostTree) → Prop where
  | nil : Hands scope [] []
  /-- There is code for the expression. -/
  | lowered {s : Statement} {is : List Item} {u u' : Usage} {code : List Instr} {v : Operand}
      {hs hs' : List (Term × HostTree)} :
      s.expr.isCompilable scope = true → Lowers scope s.expr s.tree u code hs v u' →
      Hands scope is hs' → Hands scope (expr s :: is) (hs ++ hs')
  /-- The expression is left to the interpreter. -/
  | handed {s : Statement} {is : List Item} {hs : List (Term × HostTree)} :
      Mirrors scope .void s.expr s.tree → s.expr.isCompilable scope = false → Hands scope is hs →
      Hands scope (expr s :: is) ((s.expr, s.tree) :: hs)
  | block {w : Option Attributes} {m : Option OpId} {a : Attributes} {id : OpId} {ks is : List Item}
      {hs hs' : List (Term × HostTree)} :
      Hands scope ks hs → Hands scope is hs' → Hands scope (block w m a id ks :: is) (hs ++ hs')

namespace Hands

variable {hs : List (Term × HostTree)}

/-- What is handed over was read from ops, and there is no code for it. -/
theorem handed_mirrors (h : Hands scope is hs) :
    ∀ q ∈ hs, ∃ c, Mirrors scope c q.1 q.2 ∧ q.1.isCompilable scope = false := by
  induction h with
  | nil => simp
  | lowered _ hl _ ih =>
    intro q hq
    rcases List.mem_append.mp hq with hq | hq
    · exact ⟨_, hl.handed_mirrors q hq⟩
    · exact ih q hq
  | handed hm hc _ ih =>
    intro q hq
    rcases List.mem_cons.mp hq with rfl | hq
    · exact ⟨_, hm, hc⟩
    · exact ih q hq
  | block _ _ ihk ih =>
    intro q hq
    rcases List.mem_append.mp hq with hq | hq
    · exact ihk q hq
    · exact ih q hq

/-- Nothing is carved out of a marker. -/
theorem carves_lead {ts fs : List HostTree} (i : Item) (h : Carves ts fs) :
    Carves (i.lead ++ ts) fs := by
  have leads : ∀ ms : List HostTree, (∀ t ∈ ms, ∃ m, t = node m ⟨.mark, none, false⟩ []) →
      Carves ms [] := by
    intro ms hms
    induction ms with
    | nil => exact .nil
    | cons t ms ih =>
      obtain ⟨m, rfl⟩ := hms t (by simp)
      exact .stem .nil (ih fun t ht => hms t (by simp [ht]))
  exact (leads i.lead fun t => exists_of_mem_lead).append h

/-- **What is handed over are the trees met going down from the list.** -/
theorem carves (h : Hands scope is hs) : Carves (rows is) (hs.map Prod.snd) := by
  induction h with
  | nil => exact .nil
  | lowered _ hl _ ih =>
    rw [rows, List.map_append]
    exact carves_lead _ (hl.carves.1.append ih)
  | handed _ _ _ ih =>
    rw [rows, List.map_cons]
    exact carves_lead _ (.whole ih)
  | block _ _ ihk ih =>
    rw [rows, tree, List.map_append]
    exact carves_lead _ (.stem ihk ih)

/-- A row without repetitions: the marker, the tree and the rest have nothing in common. -/
theorem nodup_rows (hn : (idsAll (rows (i :: is))).Nodup) :
    (∀ x ∈ idsAll i.lead, x ∉ i.tree.ids ∧ x ∉ idsAll (rows is)) ∧ i.tree.ids.Nodup ∧
      (∀ x ∈ i.tree.ids, x ∉ idsAll (rows is)) ∧ (idsAll (rows is)).Nodup := by
  rw [rows, idsAll_append, idsAll_cons, List.nodup_append, List.nodup_append] at hn
  obtain ⟨-, ⟨tree, rest, apart⟩, lead⟩ := hn
  refine ⟨fun x hx => ⟨fun h => ?_, fun h => ?_⟩, tree, fun x hx h => apart x hx x h rfl, rest⟩
  · exact lead x hx x (by simp [h]) rfl
  · exact lead x hx x (by simp [h]) rfl

/-- **What remains is not handed over.** -/
theorem root_not_mem (h : Hands scope is hs) (hn : (idsAll (rows is)).Nodup) (hi : i ∈ is)
    (hr : i.term.remains scope = true) : i.tree.root ∉ idsAll (hs.map Prod.snd) := by
  -- for the first item by its case, and for the others the first one holds none of their ops
  have later : ∀ {j : Item} {is : List Item}, (idsAll (rows (j :: is))).Nodup → i ∈ is →
      i.tree.root ∉ j.tree.ids := fun hn hi hmem =>
    (nodup_rows hn).2.2.1 _ hmem (mem_idsAll.mpr ⟨_, tree_mem_rows hi, root_mem_ids _⟩)
  have inner : ∀ {t : HostTree}, t.ids.Nodup → t.root ∉ idsAll t.kids := by
    intro t ht
    cases t with
    | node id f ks => exact (nodup_kids ht).1
  have kids : ∀ {t : HostTree}, idsAll t.kids ⊆ t.ids := by
    intro t x hx
    cases t with
    | node id f ks => simpa using .inr hx
  induction h with
  | nil => cases hi
  | lowered hc hl hrest ih =>
    obtain ⟨-, nodup, apart, rest⟩ := nodup_rows hn
    have mine := (hl.carves.2 hc).sublist.subset
    rw [List.map_append, idsAll_append, List.mem_append, not_or]
    rcases List.mem_cons.mp hi with rfl | hi
    · exact ⟨fun h => inner nodup (mine h), fun h => apart _ (root_mem_ids _) (hrest.carves.sublist.subset h)⟩
    · exact ⟨fun h => later hn hi (kids (mine h)), ih rest hi⟩
  | handed hm hc hrest ih =>
    obtain ⟨-, nodup, apart, rest⟩ := nodup_rows hn
    rw [List.map_cons, idsAll_cons, List.mem_append, not_or]
    rcases List.mem_cons.mp hi with rfl | hi
    · rw [Term.remains, isBlock_expr hm, term, Statement.term, Term.isCompilable, hc] at hr
      cases hr
    · exact ⟨later hn hi, ih rest hi⟩
  | block hk hrest _ ih =>
    obtain ⟨-, nodup, apart, rest⟩ := nodup_rows hn
    have mine := hk.carves.sublist.subset
    rw [List.map_append, idsAll_append, List.mem_append, not_or]
    rcases List.mem_cons.mp hi with rfl | hi
    · refine ⟨fun h => inner nodup ?_, fun h => apart _ (root_mem_ids _) (hrest.carves.sublist.subset h)⟩
      simpa [tree] using mine h
    · refine ⟨fun h => later hn hi (kids ?_), ih rest hi⟩
      simpa [tree] using mine h

/-- What is handed over is in the tree of an item. -/
theorem mem_tree (h : Hands scope is hs) {x : OpId} (hx : x ∈ idsAll (hs.map Prod.snd)) :
    ∃ i ∈ is, x ∈ i.tree.ids := by
  have kids : ∀ {t : HostTree}, idsAll t.kids ⊆ t.ids := by
    intro t x hx
    cases t with
    | node id f ks => simpa using .inr hx
  induction h with
  | nil => cases hx
  | @lowered s is _ _ _ _ _ _ hc hl _ ih =>
    rw [List.map_append, idsAll_append, List.mem_append] at hx
    rcases hx with hx | hx
    · exact ⟨expr s, by simp, kids ((hl.carves.2 hc).sublist.subset hx)⟩
    · obtain ⟨i, hi, hx⟩ := ih hx
      exact ⟨i, by simp [hi], hx⟩
  | @handed s is _ _ _ _ ih =>
    rw [List.map_cons, idsAll_cons, List.mem_append] at hx
    rcases hx with hx | hx
    · exact ⟨expr s, by simp, hx⟩
    · obtain ⟨i, hi, hx⟩ := ih hx
      exact ⟨i, by simp [hi], hx⟩
  | @block w m a id ks is _ _ hk _ _ ih =>
    rw [List.map_append, idsAll_append, List.mem_append] at hx
    rcases hx with hx | hx
    · refine ⟨Item.block w m a id ks, by simp, ?_⟩
      rw [tree, ids_node, List.mem_cons]
      exact .inr (hk.carves.sublist.subset hx)
    · obtain ⟨i, hi, hx⟩ := ih hx
      exact ⟨i, by simp [hi], hx⟩

/-- **Of a row whose items all remain no tree is handed over.** -/
theorem top (h : Hands scope is hs) (hm : AllMirrored scope is) (hn : (idsAll (rows is)).Nodup)
    (hr : ∀ i ∈ is, i.term.remains scope = true) :
    ∀ t ∈ rows is, t.root ∉ idsAll (hs.map Prod.snd) := by
  intro t ht hmem
  obtain ⟨i, hi, htree⟩ := mem_rows ht
  rcases htree with hlead | rfl
  · obtain ⟨j, hj, hx⟩ := h.mem_tree hmem
    obtain rfl := eq_of_mem_ids hn ht (tree_mem_rows hj) (root_mem_ids t) hx
    obtain ⟨m, he⟩ := exists_of_mem_lead hlead
    exact (hm.mem hj).tree_ne_mark m he
  · exact h.root_not_mem hn hi (hr i hi) hmem

/-- An expression that does not remain is handed over. -/
theorem mem_of_refused (h : Hands scope is hs) {s : Statement} (hi : expr s ∈ is)
    (hr : s.expr.isCompilable scope = false) : s.tree ∈ hs.map Prod.snd := by
  induction h with
  | nil => cases hi
  | lowered hc _ _ ih =>
    rcases List.mem_cons.mp hi with he | hi
    · cases he
      simp [hr] at hc
    · simp only [List.map_append, List.mem_append]
      exact .inr (ih hi)
  | handed _ _ _ ih =>
    rcases List.mem_cons.mp hi with he | hi
    · cases he
      simp
    · simp only [List.map_cons, List.mem_cons]
      exact .inr (ih hi)
  | block _ _ _ ih =>
    rcases List.mem_cons.mp hi with he | hi
    · cases he
    · simp only [List.map_append, List.mem_append]
      exact .inr (ih hi)

end Hands

/-! ### The first and the last op -/

/-- **The first op of a run** is in its first tree, and what is handed over holds it only as
its start. -/
theorem spanFirst_mem {hs : List (Term × HostTree)} {x : OpId} (h : Hands scope (i :: is) hs)
    (hm : AllMirrored scope (i :: is)) (hn : (idsAll (rows (i :: is))).Nodup)
    (hx : i.term.spanFirst = some x) : x ∈ i.tree.ids ∧
      (x ∉ idsAll (hs.map Prod.snd) ∨ ∃ F ∈ hs.map Prod.snd, F.start = x) := by
  generalize hl : i :: is = js at h hm hn
  induction js using Item.induction generalizing i is hs with
  | nil => cases hl
  | expr s js _ =>
    obtain ⟨rfl, rfl⟩ := List.cons.inj hl
    have unitless := hm.unitless
    simp only [AllMirrored, Mirrored] at hm
    rw [term, Statement.term, Term.spanFirst, hm.1.spanFirst] at hx
    cases hx
    refine ⟨start_mem_ids _, ?_⟩
    exact (h.carves.start hn unitless (tree_mem_rows (i := expr s) (by simp))).imp And.right id
  | block w m a id ks js ihk _ =>
    obtain ⟨rfl, rfl⟩ := List.cons.inj hl
    obtain ⟨-, nodup, apart, -⟩ := Hands.nodup_rows hn
    rw [tree] at nodup apart
    cases h with
    | @block _ _ _ _ _ _ hs hs' hk hrest =>
      simp only [AllMirrored, Mirrored] at hm
      have inside : Term.spanFirstOf (terms ks) = some x := by
        cases w <;> simpa [term, Term.spanFirst] using hx
      cases ks with
      | nil => simp [terms, Term.spanFirstOf] at inside
      | cons k ks =>
        rw [terms, Term.spanFirstOf] at inside
        obtain ⟨mem, place⟩ := ihk inside rfl hk hm.1 (nodup_kids nodup).2
        have below : x ∈ (node id ⟨.statements, none, false⟩ (rows (k :: ks))).ids := by
          rw [ids_node, List.mem_cons]
          exact .inr (mem_idsAll.mpr ⟨k.tree, by simp [rows], mem⟩)
        refine ⟨by rwa [tree], ?_⟩
        rw [List.map_append, idsAll_append, List.mem_append, not_or]
        rcases place with hout | ⟨F, hF, hstart⟩
        · exact .inl ⟨hout, fun h => apart x below (hrest.carves.sublist.subset h)⟩
        · exact .inr ⟨F, by simp [hF], hstart⟩

/-- The last op of an expression is its root. -/
theorem spanLast_expr {s : Statement} (h : Mirrors scope .void s.expr s.tree) :
    (expr s).term.spanLast = some s.tree.root := by
  rw [term, Statement.term, Term.spanLast, h.spanLast]

theorem getLast?_terms : (terms is).getLast? = is.getLast?.map term := by
  have map : terms is = is.map term := by
    induction is with
    | nil => rfl
    | cons i is ih => rw [terms, ih, List.map_cons]
  rw [map, List.getLast?_map]

theorem getLast?_rows {l : Item} (h : is.getLast? = some l) : (rows is).getLast? = some l.tree := by
  obtain ⟨init, rfl⟩ := List.getLast?_eq_some_iff.mp h
  rw [rows_append]
  exact List.getLast?_eq_some_iff.mpr ⟨rows init ++ l.lead, by simp [rows]⟩

/-- The last op of statements is that of the last one. -/
theorem spanLastOf_terms {l : Item} (h : is.getLast? = some l) :
    Term.spanLastOf (terms is) = l.term.spanLast := by
  induction is with
  | nil => cases h
  | cons i is ih =>
    cases is with
    | nil =>
      cases h
      simp [terms, Term.spanLastOf]
    | cons j is =>
      rw [List.getLast?_cons_cons] at h
      rw [← ih h]
      simp [terms, Term.spanLastOf]

/-- **The last op of statements** is the root of one of them, or a kid of a list in a block. -/
theorem spanLastOf_kid {g : Graph} {x : OpId} (hm : AllMirrored scope is)
    (hr : ∀ t ∈ rows is, Reads g t) (hx : Term.spanLastOf (terms is) = some x) :
    x ∈ (rows is).map root ∨
      ∃ K op, K ∈ idsAll (rows is) ∧ g.op? K = some op ∧ op.kind.shape = .listed ∧ x ∈ op.kids := by
  -- the last op of a row is that of the rest, if there is one
  have later : ∀ {i : Item} {is : List Item}, (x ∈ (rows is).map root ∨ ∃ K op, K ∈ idsAll (rows is) ∧
      g.op? K = some op ∧ op.kind.shape = .listed ∧ x ∈ op.kids) →
      x ∈ (rows (i :: is)).map root ∨ ∃ K op, K ∈ idsAll (rows (i :: is)) ∧
        g.op? K = some op ∧ op.kind.shape = .listed ∧ x ∈ op.kids := by
    rintro i is (h | ⟨K, op, hK, h⟩)
    · exact .inl (by simp only [rows, List.map_append, List.map_cons, List.mem_append, List.mem_cons, h, or_true])
    · exact .inr ⟨K, op, by simp [rows, hK], h⟩
  induction is using Item.induction with
  | nil => simp [terms, Term.spanLastOf] at hx
  | expr s is ih =>
    simp only [AllMirrored, Mirrored] at hm
    cases is with
    | nil =>
      rw [spanLastOf_terms (l := expr s) rfl, spanLast_expr hm.1] at hx
      cases hx
      exact .inl (by simp [rows, tree])
    | cons j is =>
      refine later (ih hm.2 (fun t ht => hr t (by simp [rows] at ht ⊢; simp [ht])) ?_)
      simpa [terms, Term.spanLastOf] using hx
  | block w m a id ks is ihk ih =>
    simp only [AllMirrored, Mirrored] at hm
    cases is with
    | nil =>
      have inside : Term.spanLastOf (terms ks) = some x := by
        rw [spanLastOf_terms (l := .block w m a id ks) rfl] at hx
        cases w <;> simpa [term, Term.spanLast] using hx
      obtain ⟨⟨op, ho, hf, hk⟩, reads⟩ := reads_node.mp (hr (block w m a id ks).tree (by simp [rows]))
      have listed : op.kind.shape = .listed := by
        rw [show op.kind = op.face.kind from rfl, hf]
        rfl
      right
      rcases ihk hm.1 reads inside with hmem | ⟨K, op', hK, h⟩
      · exact ⟨id, op, by simp [rows, tree], ho, listed, hk ▸ hmem⟩
      · exact ⟨K, op', by simp [rows, tree, hK], h⟩
    | cons j is =>
      refine later (ih hm.2 (fun t ht => hr t (by simp [rows] at ht ⊢; simp [ht])) ?_)
      simpa [terms, Term.spanLastOf] using hx

end Item

/-! ### Lowering -/

namespace Lowering

open Item

variable {scope : Scope} {d d' : Draft}

/-- A member of a run that is left to the interpreter is handed over. -/
theorem root_handed {t : Term} {T : HostTree} {x : Unit} (ht : Mirrors scope .void t T)
    (hc : t.isCompilable scope = false) (h : root scope t d = .ok x d') :
    ∃ code, d.Grows code [(t, T)] d' := by
  have lowered : term scope t = handOver t := by
    cases ht with
    | constant => simp [Term.isCompilable] at hc
    | lexical => simp [Term.isCompilable] at hc
    | declaration => simp [Term.isCompilable] at hc
    | negation => simp [term, hc]
    | binary => simp [term, hc]
    | ternary => rw [term.eq_def]
  rw [root_eq ht, lowered] at h
  obtain ⟨v, d₁, hhand, h⟩ := Effect.bind_eq_ok.mp h
  simp only [deliver, ht.context] at h
  cases h
  unfold handOver at hhand
  rw [if_neg (by rw [ht.context]; simp), Effect.modify_bind, ht.detachment] at hhand
  dsimp only at hhand
  rw [if_neg (by rw [ht.context]; simp)] at hhand
  obtain ⟨_, d₂, hcall, hhand⟩ := Effect.bind_eq_ok.mp hhand
  obtain ⟨grows, -⟩ := emit_eq_ok hcall
  cases hhand
  have noted : d.Grows [] [(t, T)] { d with handovers := d.handovers ++ [⟨t, .ok ⟨T.root, T.exits⟩⟩] } :=
    ⟨by simp, by simp [ht.detachment]⟩
  exact ⟨_, noted.trans grows⟩

/-- **What lowering items hands over.** -/
theorem roots_handed {is : List Item} {x : Unit} (hm : AllMirrored scope is)
    (h : roots scope (terms is) d = .ok x d') :
    ∃ code hs, Hands scope is hs ∧ d.Grows code hs d' := by
  induction is using Item.induction generalizing d d' x with
  | nil =>
    cases h
    exact ⟨[], [], .nil, .refl _⟩
  | expr s is ih =>
    simp only [AllMirrored, Mirrored] at hm
    obtain ⟨mirrors, hm⟩ := hm
    obtain ⟨_, d₁, hroot, hrest⟩ := Effect.bind_eq_ok.mp h
    have hroot : root scope s.expr d = .ok _ d₁ := hroot
    obtain ⟨code', hs', hands, grows'⟩ := ih hm hrest
    cases hc : s.expr.isCompilable scope with
    | true =>
      rw [root_eq mirrors] at hroot
      obtain ⟨_, d₂, hterm, hdeliver⟩ := Effect.bind_eq_ok.mp hroot
      simp only [deliver, mirrors.context] at hdeliver
      cases hdeliver
      obtain ⟨v, code, hs, rfl, lowers, grows⟩ := term_lowered mirrors (.inr hc) hterm
      exact ⟨_, _, .lowered hc lowers hands, grows.trans grows'⟩
    | false =>
      obtain ⟨code, grows⟩ := root_handed mirrors hc hroot
      exact ⟨_, _, .handed mirrors hc hands, grows.trans grows'⟩
  | block w m a id ks is ihk ih =>
    simp only [AllMirrored, Mirrored] at hm
    obtain ⟨y, d₁, hroot, hrest⟩ := Effect.bind_eq_ok.mp h
    have hroot : roots scope (terms ks) d = .ok y d₁ := by
      cases w <;> simpa [Item.term, root] using hroot
    obtain ⟨code, hs, hands, grows⟩ := ihk hm.1 hroot
    obtain ⟨code', hs', hands', grows'⟩ := ih hm.2 hrest
    exact ⟨_, _, .block hands hands', grows.trans grows'⟩

/-- What the code of a run of items hands over. -/
theorem codeOf_handed {is : List Item} {code : List Instr} (hm : AllMirrored scope is)
    (h : codeOf scope (terms is) = .ok code) :
    ∃ hs, Hands scope is hs ∧
      handoversOf scope (terms is) = hs.map fun q => ⟨q.1, q.1.detachment⟩ := by
  obtain ⟨d, hroots, -, hhand⟩ := codeOf_eq_ok h
  obtain ⟨_, hs, hands, grows⟩ := roots_handed hm hroots
  exact ⟨hs, hands, hhand.trans (by simpa using grows.handovers)⟩

end Lowering

end Graft
