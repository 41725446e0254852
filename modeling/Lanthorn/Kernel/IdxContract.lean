import Lanthorn.Kernel.IdxAlct
import Lanthorn.Library.Run

/-!
# The contract of the id allocator

`rbt_find_free_id` steers by the sums of left children alone: the ids under a left child are as many as
fit below the id of its parent, or there is a free one among them. So `freeIdLoop_spec` needs these
sums to be the sizes of their subtrees.

`update` counts the left side of a node twice and never the right side. Its sum is right when the node
has no right child, or equally many nodes on both sides. `LeftEven` says this of all left children, and
then their sums are right (`leftSized_of_even`). In runs in which it holds at every `idx_alct_new` the
allocator keeps its contract (`even_run_contract`). It does not hold in every state: an id that is
deleted and given out again can lead to a state in which `idx_alct_new` panics (`reachable_panic`).
-/

namespace Lanthorn

open Library List

/-! ### Increasing lists of integers -/

theorem increasing_between {xs : List ℤ} {lo hi : ℤ} (h : xs.Pairwise (· < ·))
    (hmem : ∀ x ∈ xs, lo ≤ x ∧ x < hi) (hle : lo ≤ hi) :
    (xs.length : ℤ) ≤ hi - lo ∧ ((xs.length : ℤ) = hi - lo → ∀ j, lo ≤ j → j < hi → j ∈ xs) := by
  induction xs generalizing lo with
  | nil => grind
  | cons x xs ih =>
    obtain ⟨hx, hxs⟩ := List.pairwise_cons.mp h
    obtain ⟨hlo, hhi⟩ := hmem x mem_cons_self
    obtain ⟨hlength, hall⟩ := @ih (x + 1) hxs
      (fun y hy ↦ ⟨hx y hy, (hmem y (mem_cons_of_mem _ hy)).2⟩) hhi
    grind

namespace IdxAlct

def idxNodes (idxs : List ℕ) : List ℕ := idxs.map (· + idxRbtNode)

variable {idx up : ℕ} {sum : ℕ → ℤ} {T : Tree} {base : ℤ}

@[simp] theorem mem_idxNodes {idxs : List ℕ} : idx + idxRbtNode ∈ idxNodes idxs ↔ idx ∈ idxs := by simp [idxNodes]

def IsIdx (idx : ℕ) : Prop := idx + idxTSize ≤ addressSpace

theorem IsIdx.node_lt (h : IsIdx idx) : idx + idxRbtNode < addressSpace := by
  simp only [IsIdx, idxTSize, idxRbtNode] at *
  omega

theorem idxOf_add (h : IsIdx idx) : idxOf (idx + idxRbtNode) = idx :=
  containerOf_add h.node_lt

theorem idxOf_injective {a b : ℕ} (ha : a < addressSpace) (hb : b < addressSpace)
    (h : idxOf a = idxOf b) : a = b := by
  simp only [idxOf, containerOf, idxRbtNode, addressSpace] at *
  omega

/-! ### The sums -/

/-- What `update` makes of the sum of a node. Nothing is said about a node with a right child only,
whose sum is taken from memory that belongs to no node. -/
structure SumOf (sum : ℕ → ℤ) (a l r : ℕ) : Prop where
  leaf : l = 0 → r = 0 → sum (idxOf a) = 1
  left : l ≠ 0 → r = 0 → sum (idxOf a) = wordInt (1 + sum (idxOf l))
  both : l ≠ 0 → r ≠ 0 → sum (idxOf a) = wordInt (1 + sum (idxOf l) + sum (idxOf l))

theorem wordInt_of_lt {n : ℕ} (h : n < 2147483648) : wordInt n = n := by
  refine Int.bmod_eq_of_le ?_ ?_ <;> simp only [addressSpace] <;> omega

theorem update_self (m : TreeMem) (sum : ℕ → ℤ) (node : ℕ) : update m sum node (idxOf node) =
    wordInt (1 + (if m.child .left node ≠ 0 then sum (idxOf (m.child .left node)) else 0) +
      (if m.child .right node ≠ 0 then sum (idxOf (m.child .left node)) else 0)) := by
  simp only [update, Function.update_self]
  split_ifs <;> simp

theorem update_of_ne (m : TreeMem) (sum : ℕ → ℤ) {node other : ℕ} (hnode : node < addressSpace)
    (hother : other < addressSpace) (hne : other ≠ node) : update m sum node (idxOf other) = sum (idxOf other) := by
  have hidx : idxOf other ≠ idxOf node := fun heq ↦ hne (idxOf_injective hother hnode heq)
  simp only [update, Function.update_of_ne hidx]

theorem updates_update (m : TreeMem) : Rbt.Updates SumOf m (update m) where
  sets sum x l r hl hr hx hlw hrw hlx hrx := by
    subst hl hr
    refine ⟨fun hl hr ↦ ?_, fun hl hr ↦ ?_, fun hl hr ↦ ?_⟩
    · rw [update_self]
      simp only [hl, hr, ne_eq, not_true, if_false]
      exact wordInt_of_lt (n := 1) (by decide)
    all_goals grind [update_self, update_of_ne]
  keeps sum x a l r hx ha hl hr hax hlx hrx h := by
    obtain ⟨hleaf, hleft, hboth⟩ := h
    constructor <;> rw [update_of_ne m sum hx ha hax]
    all_goals grind [update_of_ne]

/-! ### The tree and its entries -/

/-- The state of the allocator between two calls: the entries in the order of their ids. -/
structure Valid (s : IdxAlct) (idxs : List ℕ) : Prop where
  tree : ∃ T, s.rbt.Holds T ∧ RedBlack T ∧ T.inorder = idxNodes idxs ∧ Summed (SumOf s.sum) T
  sorted : idxs.Pairwise fun p q ↦ s.id p < s.id q
  nonneg : ∀ p ∈ idxs, 0 ≤ s.id p
  desc : ∀ p ∈ idxs, IsIdx p
  spaced : idxs.Pairwise fun p q ↦ p + idxTSize ≤ q ∨ q + idxTSize ≤ p

/-- A left child without a right child, or with equally many nodes on both sides. -/
def EvenAt (m : TreeMem) (n : ℕ) : Prop :=
  n = 0 ∨ m.child .right n = 0 ∨ (Rbt.nodesFrom m addressSpace (m.child .left n)).length =
    (Rbt.nodesFrom m addressSpace (m.child .right n)).length

/-- Every left child of the tree has no right child, or equally many nodes on both sides. This is when
counting the left side twice is right. -/
def LeftEven (s : IdxAlct) : Prop := ∀ n ∈ s.rbt.nodes, EvenAt s.tree (s.tree.child .left n)

instance (m : TreeMem) (n : ℕ) : Decidable (EvenAt m n) := by
  unfold EvenAt
  infer_instance

instance (s : IdxAlct) : Decidable s.LeftEven := by
  unfold LeftEven
  infer_instance

def LeftSized (sum : ℕ → ℤ) : Tree → Prop
  | .nil => True
  | .node l _ _ r => (l ≠ .nil → sum (idxOf l.root) = l.size) ∧ LeftSized sum l ∧ LeftSized sum r

def Sized (sum : ℕ → ℤ) : Tree → Prop
  | .nil => True
  | .node l a c r => sum (idxOf a) = (Library.Tree.node l a c r).size ∧ Sized sum l ∧ Sized sum r

theorem Sized.leftSized (h : Sized sum T) : LeftSized sum T := by
  induction T with
  | nil => trivial
  | node l a c r ihl ihr =>
    obtain ⟨-, hl, hr⟩ := h
    refine ⟨fun hne ↦ ?_, ihl hl, ihr hr⟩
    cases l with
    | nil => exact absurd rfl hne
    | node => exact hl.1

theorem SumOf.eq_size {m : TreeMem} {a : ℕ} {c : Color} {l r : Tree} (h : SumOf sum a l.root r.root)
    (hrep : Represents m up (.node l a c r)) (heven : EvenAt m a) (hl : l ≠ .nil → sum (idxOf l.root) = l.size)
    (hsize : (Library.Tree.node l a c r).size < 2147483648) : sum (idxOf a) = (Library.Tree.node l a c r).size := by
  obtain ⟨ha, -, -, hleft, hright, hrepl, hrepr⟩ := hrep
  rw [Tree.size_node] at hsize ⊢
  have hword : ∀ u : Tree, u.size < l.size + r.size + 1 → u.size < addressSpace := fun u hu ↦ by
    simp only [addressSpace]
    omega
  -- the two sides are of the same size, or the right one is missing
  have hsame : r = .nil ∨ l.size = r.size := by
    rcases heven with hzero | hnone | hlength
    · exact absurd hzero ha
    · exact Or.inl (hrepr.root_eq_zero_iff.mp (hright ▸ hnone))
    · rw [hleft, hright, Rbt.nodesFrom_eq hrepl (hword l (by omega)),
        Rbt.nodesFrom_eq hrepr (hword r (by omega)), Tree.length_inorder, Tree.length_inorder] at hlength
      exact Or.inr hlength
  by_cases hnil : l = .nil
  · subst hnil
    have hr : r = .nil := by
      rcases hsame with hr | hr
      · exact hr
      · cases r with
        | nil => rfl
        | node => simp [Tree.size] at hr
    subst hr
    simpa using h.leaf rfl rfl
  have hl0 : l.root ≠ 0 := hrepl.root_eq_zero_iff.not.mpr hnil
  by_cases hr : r = .nil
  · subst hr
    have hcount : 1 + (l.size : ℤ) = (l.size + Library.Tree.nil.size + 1 : ℕ) := by
      simp only [Tree.size]
      omega
    rw [h.left hl0 rfl, hl hnil, hcount, wordInt_of_lt hsize]
  · have hr0 : r.root ≠ 0 := hrepr.root_eq_zero_iff.not.mpr hr
    have hcount : 1 + (l.size : ℤ) + l.size = (l.size + r.size + 1 : ℕ) := by
      have := hsame.resolve_left hr
      omega
    rw [h.both hl0 hr0, hl hnil, hcount, wordInt_of_lt hsize]

theorem leftSized_of_even {m : TreeMem} (hrep : Represents m up T) (hsum : Summed (SumOf sum) T)
    (heven : ∀ n ∈ T.inorder, EvenAt m (m.child .left n)) (hsize : T.size < 2147483648) : LeftSized sum T := by
  induction T generalizing up with
  | nil => trivial
  | node l a c r ihl ihr =>
    obtain ⟨-, -, -, hleft, -, hrepl, hrepr⟩ := hrep
    obtain ⟨-, hsuml, hsumr⟩ := hsum
    rw [Tree.size_node] at hsize
    have hl := ihl hrepl hsuml (fun n hn ↦ heven n (by simp [hn])) (by omega)
    refine ⟨fun hne ↦ ?_, hl, ihr hrepr hsumr (fun n hn ↦ heven n (by simp [hn])) (by omega)⟩
    have hat := heven a (by simp)
    rw [hleft] at hat
    cases l with
    | nil => exact absurd rfl hne
    | node ll b c' lr => exact hsuml.1.eq_size hrepl hat hl.1 (by omega)

/-! ### `rbt_find_free_id` -/

def ids (s : IdxAlct) (T : Tree) : List ℤ := T.inorder.map fun n ↦ s.id (idxOf n)

theorem ids_node (s : IdxAlct) (l r : Tree) (a : ℕ) (c : Color) :
    s.ids (.node l a c r) = s.ids l ++ s.id (idxOf a) :: s.ids r := by simp [ids]

theorem length_ids (s : IdxAlct) (T : Tree) : (s.ids T).length = T.size := by
  rw [ids, length_map, Tree.length_inorder]

/-- The least number from `base` on that is not in a list, and close to `base`. -/
structure FreeFrom (base : ℤ) (taken : List ℤ) (v : ℤ) : Prop where
  le : base ≤ v
  not_mem : v ∉ taken
  below : ∀ j, base ≤ j → j < v → j ∈ taken
  near : v ≤ base + taken.length

theorem FreeFrom.of_left {k v : ℤ} {xs ys : List ℤ} (h : FreeFrom base xs v)
    (hroom : base + xs.length < k) (hys : ∀ y ∈ ys, k < y) : FreeFrom base (xs ++ k :: ys) v := by
  have hv : v < k := h.near.trans_lt hroom
  refine ⟨h.le, ?_, fun j hj hjv ↦ mem_append_left _ (h.below j hj hjv), ?_⟩
  all_goals grind [h.not_mem, h.near]

theorem FreeFrom.of_right {k v : ℤ} {xs ys : List ℤ} (h : FreeFrom (k + 1) ys v)
    (hfull : ∀ j, base ≤ j → j < k → j ∈ xs) (hlength : (xs.length : ℤ) = k - base)
    (hxs : ∀ x ∈ xs, x < k) : FreeFrom base (xs ++ k :: ys) v := by
  have hle := h.le
  refine ⟨by omega, ?_, fun j hj hjv ↦ ?_, ?_⟩
  all_goals grind [h.not_mem, h.below, h.near]

def freeIdRest (s : IdxAlct) (fuel : ℕ) : ℤ ⊕ ℕ × ℤ → Result ℤ
  | .inl id => .ok id
  | .inr (n, base) => s.freeIdLoop fuel n base

theorem freeIdLoop_succ (s : IdxAlct) {n : ℕ} (hn : n ≠ 0) (fuel : ℕ) (base : ℤ) :
    s.freeIdLoop (fuel + 1) n base = (s.freeIdStep n base).bind (s.freeIdRest fuel) := by
  rw [freeIdLoop, if_neg hn]
  rfl

theorem freeIdLoop_spec {s : IdxAlct} {fuel : ℕ} {u : Tree} (hrep : Represents s.tree up u)
    (hsized : LeftSized s.sum u) (hne : u ≠ .nil) (hsorted : (s.ids u).Pairwise (· < ·))
    (hbase : ∀ i ∈ s.ids u, base ≤ i) (hfuel : u.size < fuel) :
    ∃ v, s.freeIdLoop fuel u.root base = .ok v ∧ FreeFrom base (s.ids u) v := by
  induction u generalizing up fuel base with
  | nil => exact absurd rfl hne
  | node l a c r ihl ihr =>
    obtain ⟨fuel, rfl⟩ := exists_succ hfuel
    obtain ⟨ha, -, -, hleft, hright, hrepl, hrepr⟩ := hrep
    obtain ⟨hsum, hsizedl, hsizedr⟩ := hsized
    rw [Tree.size_node] at hfuel
    rw [ids_node] at hsorted hbase ⊢
    obtain ⟨hsortedl, hsortedr, hcross⟩ := List.pairwise_append.mp hsorted
    obtain ⟨hafter, hsortedr⟩ := List.pairwise_cons.mp hsortedr
    have hida : base ≤ s.id (idxOf a) := hbase _ (by simp)
    obtain ⟨hlength, hfull⟩ := @increasing_between (s.ids l) base (s.id (idxOf a)) hsortedl
      (fun i hi ↦ ⟨hbase i (by simp [hi]), hcross i hi _ mem_cons_self⟩) hida
    rw [length_ids] at hlength hfull
    rw [Tree.root_node, freeIdLoop_succ s ha]
    -- going on to the right, when everything up to this node is taken
    have hgoRight : (l.size : ℤ) = s.id (idxOf a) - base → ∃ v, s.freeIdRest fuel (s.freeIdRight a) = .ok v ∧
          FreeFrom base (s.ids l ++ s.id (idxOf a) :: s.ids r) v := by
      intro hcount
      have hfull' := hfull hcount
      rw [← length_ids s l] at hcount
      have hless : ∀ i ∈ s.ids l, i < s.id (idxOf a) := fun i hi ↦ hcross i hi _ mem_cons_self
      simp only [freeIdRight, hright]
      by_cases hr : r = .nil
      · subst hr
        refine ⟨s.id (idxOf a) + 1, rfl, FreeFrom.of_right ?_ hfull' hcount hless⟩
        exact ⟨le_rfl, by simp [ids], fun j hj hj' ↦ absurd hj (by omega), by simp⟩
      · rw [if_pos (hrepr.root_eq_zero_iff.not.mpr hr)]
        obtain ⟨v, hrun, hfree⟩ := ihr hrepr hsizedr hr hsortedr (fun i hi ↦ hafter i hi)
          (show r.size < fuel by omega)
        exact ⟨v, hrun, hfree.of_right hfull' hcount hless⟩
    by_cases hl : l = .nil
    · subst hl
      have hstep : s.freeIdStep a base = if base < s.id (idxOf a) then .ok (.inl base)
          else .ok (s.freeIdRight a) := by
        simp only [freeIdStep, hleft, Tree.root_nil, ne_eq, not_true, if_false]
        rfl
      rw [hstep]
      split_ifs with hlt
      · refine ⟨base, rfl, le_rfl, ?_, fun j hj hj' ↦ absurd hj (by omega), by omega⟩
        grind [ids, Tree.inorder_nil]
      · exact hgoRight (by simp only [Tree.size]; omega)
    · have hl0 := hrepl.root_eq_zero_iff.not.mpr hl
      have hstep : s.freeIdStep a base = if l.size + base < s.id (idxOf a) then .ok (.inr (l.root, base))
          else .ok (s.freeIdRight a) := by
        simp only [freeIdStep, hleft, ne_eq, hl0, not_false_eq_true, if_true, hsum hl,
          assert_of_true (show (l.size : ℤ) + base ≤ s.id (idxOf a) by omega)]
        rfl
      rw [hstep]
      split_ifs with hlt
      · obtain ⟨v, hrun, hfree⟩ := ihl hrepl hsizedl hl hsortedl (fun i hi ↦ hbase i (by simp [hi]))
          (show l.size < fuel by omega)
        exact ⟨v, hrun, hfree.of_left (by rw [length_ids]; omega) hafter⟩
      · exact hgoRight (by omega)

theorem rbtFindFreeId_of_leftSized {s : IdxAlct} (hT : s.rbt.Holds T) (hsized : LeftSized s.sum T)
    (hsorted : (s.ids T).Pairwise (· < ·)) (hnonneg : ∀ i ∈ s.ids T, 0 ≤ i) :
    ∃ v, s.rbtFindFreeId = .ok v ∧ FreeFrom 0 (s.ids T) v := by
  have hroot_eq : s.root = T.root := hT.root_eq
  rw [rbtFindFreeId, hroot_eq]
  split_ifs with hroot
  · obtain rfl : T = .nil := hT.rep.root_eq_zero_iff.mp hroot
    exact ⟨0, rfl, le_rfl, by simp [ids], fun j hj hj' ↦ absurd hj (by omega), by simp⟩
  · exact freeIdLoop_spec hT.rep hsized (fun hnil ↦ hroot (hnil ▸ rfl)) hsorted hnonneg hT.size_lt

/-- In a search tree of distinct non-negative ids whose sums are all right, `rbt_find_free_id` returns
the least non-negative number that is not an id. It is at most the number of entries, of which fewer
than `2 ^ 31` fit into memory, so that no `int` overflows. -/
theorem rbtFindFreeId_least {s : IdxAlct} {T : Tree} (hT : s.rbt.Holds T) (hsized : Sized s.sum T)
    (hsorted : (s.ids T).Pairwise (· < ·)) (hnonneg : ∀ i ∈ s.ids T, 0 ≤ i) :
    ∃ v, s.rbtFindFreeId = .ok v ∧ 0 ≤ v ∧ v ∉ s.ids T ∧ (∀ j, 0 ≤ j → j < v → j ∈ s.ids T) ∧ v ≤ T.size := by
  obtain ⟨v, hrun, hfree⟩ := rbtFindFreeId_of_leftSized hT hsized.leftSized hsorted hnonneg
  have hnear := hfree.near
  rw [length_ids, zero_add] at hnear
  exact ⟨v, hrun, hfree.le, hfree.not_mem, hfree.below, hnear⟩

def twoEntries : IdxAlct where
  root := 112
  id := fun p ↦ if p = 100 then 2 else 0
  addr := fun _ ↦ 0
  sum := fun p ↦ if p = 100 then 2 else 1
  tree := {
    color := fun _ ↦ .black
    parent := fun n ↦ if n = 152 then 112 else 0
    child := fun d n ↦ if n = 112 ∧ d = .left then 152 else 0 }

/-- Between the ids 0 and 2 the id 1 is free. -/
theorem rbtFindFreeId_twoEntries : twoEntries.rbtFindFreeId = .ok 1 := by
  obtain ⟨v, hrun, hle, hnot, -, hsize⟩ := rbtFindFreeId_least (s := twoEntries)
    (T := .node (.node .nil 152 .black .nil) 112 .black .nil)
    ⟨rfl, by simp [Represents, rbt, twoEntries], by simp, by simp [addressSpace]⟩
    ⟨by decide, ⟨by decide, trivial, trivial⟩, trivial⟩ (by decide) (by decide)
  replace hsize : v ≤ 2 := hsize
  have hne : v ≠ 0 ∧ v ≠ 2 := by constructor <;> rintro rfl <;> exact hnot (by decide)
  rw [hrun, show v = 1 by omega]

/-! ### The calls -/

theorem length_lt_of_spaced {idxs : List ℕ} (hdesc : ∀ p ∈ idxs, IsIdx p)
    (hspaced : idxs.Pairwise fun p q ↦ p + idxTSize ≤ q ∨ q + idxTSize ≤ p) : idxs.length < 2147483648 := by
  have hnodup : (idxs.map (· / idxTSize)).Nodup := by grind [idxTSize]
  have hle := @length_le_of_nodup _ 153391690 hnodup fun x hx ↦ by grind [IsIdx, idxTSize, addressSpace]
  rw [length_map] at hle
  omega

section Calls

variable {s : IdxAlct} {idxs : List ℕ} {idx : ℕ}

theorem ids_eq {T : Tree} (hinorder : T.inorder = idxNodes idxs) (hdesc : ∀ p ∈ idxs, IsIdx p) :
    s.ids T = idxs.map s.id := by grind [ids, idxNodes, map_congr_left, idxOf_add]

theorem rbtFindFreeId_spec (h : Valid s idxs) (heven : s.LeftEven) :
    ∃ v, s.rbtFindFreeId = .ok v ∧ FreeFrom 0 (idxs.map s.id) v := by
  obtain ⟨T, hT, -, hinorder, hsum⟩ := h.tree
  have hids := ids_eq (s := s) hinorder h.desc
  have hsize : T.size < 2147483648 := by
    rw [← Tree.length_inorder, hinorder, idxNodes, length_map]
    exact length_lt_of_spaced h.desc h.spaced
  have hsized : LeftSized s.sum T := by
    refine leftSized_of_even hT.rep hsum (fun n hn ↦ heven n ?_) hsize
    rwa [hT.nodes_eq]
  rw [← hids]
  refine rbtFindFreeId_of_leftSized hT hsized ?_ ?_
  · rw [hids]
    exact List.pairwise_map.mpr h.sorted
  · rw [hids]
    intro i hi
    obtain ⟨p, hp, rfl⟩ := List.mem_map.mp hi
    exact h.nonneg p hp

theorem guides_compareId (hdesc : ∀ p ∈ idxs, IsIdx p)
    (hsorted : idxs.Pairwise fun p q ↦ s.id p < s.id q) (id : ℤ) : Rbt.Guides (s.compareId id) (idxNodes idxs) := by
  refine Rbt.guides_compareKeys (fun n ↦ s.id (idxOf n)) id (List.pairwise_map.mpr ?_)
  grind [hsorted.imp_of_mem, idxOf_add]

theorem compareId_node {p : ℕ} (hp : IsIdx p) (id : ℤ) :
    s.compareId id (p + idxRbtNode) = Rbt.compareKeys id (s.id p) := by rw [compareId, idxOf_add hp]

theorem rbtInsert_valid (h : Valid s idxs) (hidx : IsIdx idx)
    (hfresh : ∀ p ∈ idxs, p + idxTSize ≤ idx ∨ idx + idxTSize ≤ p) (hpos : 0 ≤ s.id idx)
    (hid : ∀ p ∈ idxs, s.id p ≠ s.id idx) :
    ∃ s' xs ys, s.rbtInsert idx = .ok s' ∧ idxs = xs ++ ys ∧ Valid s' (xs ++ idx :: ys) ∧
      s'.id = s.id ∧ s'.addr = s.addr := by
  obtain ⟨T, hT, hrb, hinorder, hsum⟩ := h.tree
  have hnode : idx + idxRbtNode ∉ T.inorder := by grind [mem_idxNodes]
  have hcmp : Rbt.Guides (s.compareId (s.id idx)) T.inorder :=
    hinorder ▸ guides_compareId h.desc h.sorted _
  have hne : ∀ n ∈ T.inorder, s.compareId (s.id idx) n ≠ .eq := by
    rw [hinorder]
    intro n hn
    obtain ⟨p, hp, rfl⟩ := List.mem_map.mp hn
    grind [compareId_node, h.desc, Rbt.compareKeys_eq_eq]
  obtain ⟨t', T', xs, ys, sum', hinsert, hupdate, hT', hrb', hsum', hsplit, hinorder', hbefore,
    hafter, -⟩ := Rbt.insertBy_summed updates_update hT hrb hsum hcmp hne
      (show idx + idxRbtNode ≠ 0 by simp [idxRbtNode]) hidx.node_lt hnode
  -- the entries on both sides of the new one
  rw [hinorder] at hsplit
  obtain ⟨before, after, rfl, hxs, hys⟩ := List.map_eq_append_iff.mp hsplit
  subst hxs hys
  have hless : ∀ p ∈ before, s.id p < s.id idx := fun p hp ↦ by
    have := hbefore (p + idxRbtNode) (mem_map_of_mem hp)
    rwa [compareId_node (h.desc p (mem_append_left _ hp)), Rbt.compareKeys_eq_gt] at this
  have hgreater : ∀ p ∈ after, s.id idx < s.id p := fun p hp ↦ by
    have := hafter (p + idxRbtNode) (mem_map_of_mem hp)
    rwa [compareId_node (h.desc p (mem_append_right _ hp)), Rbt.compareKeys_eq_lt] at this
  have hall : ∀ P : ℕ → Prop, (∀ p ∈ before ++ after, P p) → P idx →
      ∀ p ∈ before ++ idx :: after, P p := fun P hP hidx p hp ↦ by
    simp only [mem_append, mem_cons] at hp hP
    grind
  refine ⟨{ s.setRbt t' with sum := sum' }, before, after, ?_, rfl, ⟨⟨T', hT', hrb', ?_, hsum'⟩,
    Rbt.pairwise_insert h.sorted hless hgreater, hall _ h.nonneg hpos, hall _ h.desc hidx, ?_⟩, rfl,
    rfl⟩
  · simp only [rbtInsert, hinsert, hupdate, ok_bind, pure_eq]
  all_goals grind [idxNodes, Rbt.pairwise_insert, h.spaced]

theorem rbtFind_spec (h : Valid s idxs) (id : ℤ) : (∃ p ∈ idxs, s.id p = id ∧ s.rbtFind id = .ok (some p)) ∨
      (∀ p ∈ idxs, s.id p ≠ id) ∧ s.rbtFind id = .ok none := by
  obtain ⟨T, hT, -, hinorder, -⟩ := h.tree
  have hrun : s.rbtFind id = (s.rbt.search (s.compareId id)).bind fun n ↦
      .ok (if n = 0 then none else some (idxOf n)) := rfl
  obtain ⟨n, hn, heq, hsearch⟩ | ⟨hnone, hsearch⟩ :=
    Rbt.search_spec hT (hinorder ▸ guides_compareId h.desc h.sorted id)
  · rw [hinorder] at hn
    obtain ⟨p, hp, rfl⟩ := List.mem_map.mp hn
    rw [compareId_node (h.desc p hp), Rbt.compareKeys_eq_eq] at heq
    have hne : p + idxRbtNode ≠ 0 := by simp [idxRbtNode]
    refine Or.inl ⟨p, hp, heq.symm, ?_⟩
    rw [hrun, hsearch, Except.bind, if_neg hne, idxOf_add (h.desc p hp)]
  · refine Or.inr ⟨fun p hp heq ↦ hnone (p + idxRbtNode) ?_ ?_, by simp [hrun, hsearch, Except.bind]⟩
    · rwa [hinorder, mem_idxNodes]
    · rw [compareId_node (h.desc p hp), Rbt.compareKeys_eq_eq, heq]

theorem idxAlctNew_valid (h : Valid s idxs) (heven : s.LeftEven) (hidx : IsIdx idx)
    (hfresh : ∀ p ∈ idxs, p + idxTSize ≤ idx ∨ idx + idxTSize ≤ p) (addr : ℕ) :
    ∃ v s' xs ys, s.idxAlctNew (.ok idx) addr = .ok (.ok, some v, s') ∧ idxs = xs ++ ys ∧
      FreeFrom 0 (idxs.map s.id) v ∧ Valid s' (xs ++ idx :: ys) ∧
      s'.id = Function.update s.id idx v ∧ s'.addr = Function.update s.addr idx addr := by
  obtain ⟨v, hfind, hfree⟩ := rbtFindFreeId_spec h heven
  have hne : ∀ p ∈ idxs, p ≠ idx := fun p hp heq ↦ by
    have := hfresh p hp
    simp only [idxTSize] at this
    omega
  have hkept : ∀ p ∈ idxs, (s.setEntry idx v addr).id p = s.id p := fun p hp ↦
    Function.update_of_ne (hne p hp) _ _
  have hself : (s.setEntry idx v addr).id idx = v := Function.update_self ..
  have hvalid : Valid (s.setEntry idx v addr) idxs := by
    refine ⟨h.tree, h.sorted.imp_of_mem fun {p q} hp hq hlt ↦ ?_, fun p hp ↦ ?_, h.desc, h.spaced⟩
    · rwa [hkept p hp, hkept q hq]
    · rw [hkept p hp]
      exact h.nonneg p hp
  obtain ⟨s', xs, ys, hinsert, hsplit, hvalid', hids, haddr⟩ := rbtInsert_valid hvalid hidx hfresh
    (by rw [hself]; exact hfree.le) fun p hp heq ↦ hfree.not_mem (List.mem_map.mpr ⟨p, hp, by
      rwa [hkept p hp, hself] at heq⟩)
  refine ⟨v, s', xs, ys, ?_, hsplit, hfree, hvalid', hids, haddr⟩
  simp only [idxAlctNew, hfind, hinsert, ok_bind, pure_eq]

theorem idxAlctDelete_valid (h : Valid s idxs) (id : ℤ) :
    (∃ p ∈ idxs, s.id p = id ∧ ∃ s', s.idxAlctDelete id = .ok (.ok, s') ∧ Valid s' (idxs.erase p) ∧
        s'.id = s.id ∧ s'.addr = s.addr) ∨
      (∀ p ∈ idxs, s.id p ≠ id) ∧ s.idxAlctDelete id = .ok (.notfound, s) := by
  obtain ⟨p, hp, hid, hfind⟩ | ⟨hnone, hfind⟩ := rbtFind_spec h id
  · left
    obtain ⟨T, hT, hrb, hinorder, hsum⟩ := h.tree
    have hmem : p + idxRbtNode ∈ T.inorder := by rwa [hinorder, mem_idxNodes]
    obtain ⟨start, t', T', sum', hbegin, hdelete, hend, hT', hrb', hsum', hinorder', -⟩ :=
      Rbt.rbtDelete_summed updates_update hT hrb hsum hmem
    have herase : T'.inorder = idxNodes (idxs.erase p) := by
      rw [hinorder', hinorder]
      exact (map_erase (fun _ _ heq ↦ Nat.add_right_cancel heq) idxs).symm
    refine ⟨p, hp, hid, { s.setRbt t' with sum := sum' }, ?_, ⟨⟨T', hT', hrb', herase, hsum'⟩,
      h.sorted.sublist erase_sublist, fun q hq ↦ h.nonneg q (mem_of_mem_erase hq),
      fun q hq ↦ h.desc q (mem_of_mem_erase hq), h.spaced.sublist erase_sublist⟩, rfl, rfl⟩
    have hbegin' : Rbt.rbtDeleteUpdateBegin s.tree (p + idxRbtNode) = .ok start := hbegin
    simp only [idxAlctDelete, hfind, hbegin', hdelete, setRbt, hend, ok_bind, pure_eq]
  · refine Or.inr ⟨hnone, ?_⟩
    simp only [idxAlctDelete, hfind, ok_bind, pure_eq]

end Calls

/-! ### The entries read off the memory -/

def idxs (s : IdxAlct) : List ℕ := s.rbt.nodes.map idxOf

/-- What `kmalloc` may return: memory for an entry that overlaps no entry of the tree. -/
def Fresh (s : IdxAlct) (idx : ℕ) : Prop :=
  IsIdx idx ∧ ∀ p ∈ s.idxs, p + idxTSize ≤ idx ∨ idx + idxTSize ≤ p

instance (s : IdxAlct) (idx : ℕ) : Decidable (s.Fresh idx) := by
  unfold Fresh IsIdx
  infer_instance

/-- What the rest of the kernel may do: write outside the entries. -/
structure Untouched (s s' : IdxAlct) : Prop where
  root : s'.root = s.root
  id : ∀ p ∈ s.idxs, s'.id p = s.id p
  addr : ∀ p ∈ s.idxs, s'.addr p = s.addr p
  sum : ∀ p ∈ s.idxs, s'.sum p = s.sum p
  tree : ∀ p ∈ s.idxs, s.tree.AgreeAt s'.tree (p + idxRbtNode)

variable {s : IdxAlct} {idxs : List ℕ}

theorem Valid.idxs_eq (h : Valid s idxs) : s.idxs = idxs := by
  obtain ⟨T, hT, -, hinorder, -⟩ := h.tree
  rw [IdxAlct.idxs, hT.nodes_eq, hinorder, idxNodes, map_map]
  exact (map_congr_left fun p hp ↦ idxOf_add (h.desc p hp)).trans (map_id idxs)

theorem Valid.id_injective (h : Valid s idxs) {p q : ℕ} (hp : p ∈ idxs) (hq : q ∈ idxs)
    (heq : s.id p = s.id q) : p = q := by
  have hnodup : (idxs.map s.id).Nodup := List.pairwise_map.mpr (h.sorted.imp fun hlt ↦ hlt.ne)
  exact inj_on_of_nodup_map hnodup hp hq heq

theorem Valid.nodup (h : Valid s idxs) : idxs.Nodup :=
  h.sorted.imp fun hlt heq ↦ hlt.ne (congrArg s.id heq)

theorem Untouched.valid {s' : IdxAlct} (h : Untouched s s') (hvalid : Valid s idxs) : Valid s' idxs := by
  obtain ⟨hroot, hid, -, hsum, htree⟩ := h
  rw [hvalid.idxs_eq] at hid hsum htree
  obtain ⟨T, hT, hrb, hinorder, hsummed⟩ := hvalid.tree
  have hnode : ∀ n ∈ T.inorder, s'.sum (idxOf n) = s.sum (idxOf n) := by
    intro n hn
    obtain ⟨p, hp, rfl⟩ := List.mem_map.mp (hinorder ▸ hn)
    rw [idxOf_add (hvalid.desc p hp)]
    exact hsum p hp
  have hT' : s'.rbt.Holds T := by
    rw [rbt, hroot]
    refine hT.congr fun z hz ↦ ?_
    obtain ⟨p, hp, rfl⟩ := List.mem_map.mp (hinorder ▸ hz)
    exact htree p hp
  have hsummed' : Summed (SumOf s'.sum) T := by
    refine hsummed.imp_of_mem fun a ha l r hl hr hsumof ↦ ?_
    refine ⟨fun h₁ h₂ ↦ ?_, fun h₁ h₂ ↦ ?_, fun h₁ h₂ ↦ ?_⟩
    all_goals grind [hsumof.leaf, hsumof.left, hsumof.both]
  refine ⟨⟨T, hT', hrb, hinorder, hsummed'⟩, hvalid.sorted.imp_of_mem fun {p q} hp hq hlt ↦ ?_,
    fun p hp ↦ ?_, hvalid.desc, hvalid.spaced⟩
  · rwa [hid p hp, hid q hq]
  · rw [hid p hp]
    exact hvalid.nonneg p hp

theorem idxAcltInit_valid (s : IdxAlct) : Valid s.idxAcltInit [] :=
  ⟨⟨.nil, ⟨rfl, trivial, .nil, by simp⟩, ⟨rfl, 0, rfl⟩, rfl, trivial⟩, .nil, by simp, by simp, .nil⟩

end IdxAlct

/-- The allocator, and the address that every live id was allocated with. -/
structure IdxState where
  alct : IdxAlct
  live : ℤ → Option ℕ

/-- The calls of the allocator, with the entry that `kmalloc` returns to `idx_alct_new`, and what the
rest of the kernel does in between. -/
inductive IdxCall
  | new (idx addr : ℕ)
  | find (id : ℤ)
  | delete (id : ℤ)
  | other

namespace IdxState

open IdxAlct hiding id

/-- The allocator after `idx_aclt_init` and any calls that return. -/
def system : System IdxState IdxCall where
  init st := ∃ s : IdxAlct, st = ⟨s.idxAcltInit, fun _ ↦ none⟩
  step st call st' :=
    match call with
    | .new idx addr => st.alct.Fresh idx ∧ ∃ id s',
        st.alct.idxAlctNew (.ok idx) addr = .ok (.ok, some id, s') ∧
        st' = ⟨s', Function.update st.live id (some addr)⟩
    | .find id => ∃ result, st.alct.idxAlctFind id = .ok result ∧ st' = st
    | .delete id => ∃ err s', st.alct.idxAlctDelete id = .ok (err, s') ∧
        st' = ⟨s', if err = .ok then Function.update st.live id none else st.live⟩
    | .other => ∃ s', st.alct.Untouched s' ∧ st' = { st with alct := s' }

/-- The condition on `idx_alct_new`: the left children are even. -/
def EvenAtNew (st : IdxState) : IdxCall → Prop
  | .new _ _ => st.alct.LeftEven
  | _ => True

/-- What every state between two calls satisfies: the tree has the live ids. -/
def Inv (st : IdxState) : Prop := ∃ idxs, Valid st.alct idxs ∧
  ∀ id a, st.live id = some a ↔ ∃ p ∈ idxs, st.alct.id p = id ∧ st.alct.addr p = a

variable {st st' : IdxState}

theorem inv_init (h : system.init st) : st.Inv := by
  obtain ⟨s, rfl⟩ := h
  exact ⟨[], idxAcltInit_valid s, by simp⟩

theorem live_ne_none {idxs : List ℕ}
    (hlive : ∀ id a, st.live id = some a ↔ ∃ p ∈ idxs, st.alct.id p = id ∧ st.alct.addr p = a)
    (id : ℤ) : st.live id ≠ none ↔ id ∈ idxs.map st.alct.id := by
  rw [Option.ne_none_iff_exists', mem_map]
  constructor
  · grind
  · rintro ⟨p, hp, hid⟩
    exact ⟨_, (hlive id _).mpr ⟨p, hp, hid, rfl⟩⟩

theorem inv_step {call : IdxCall} (h : st.Inv) (heven : st.EvenAtNew call)
    (hstep : system.step st call st') : st'.Inv := by
  obtain ⟨idxs, hvalid, hlive⟩ := h
  cases call with
  | new idx addr =>
    obtain ⟨⟨hidx, hfresh⟩, id, s', hrun, rfl⟩ := hstep
    rw [hvalid.idxs_eq] at hfresh
    obtain ⟨v, s'', xs, ys, hrun', rfl, hfree, hvalid', hids, haddr⟩ :=
      idxAlctNew_valid hvalid heven hidx hfresh addr
    obtain ⟨rfl, rfl⟩ : id = v ∧ s' = s'' := by simpa [hrun] using hrun'
    refine ⟨xs ++ idx :: ys, hvalid', fun i a ↦ ?_⟩
    have hne : ∀ p ∈ xs ++ ys, p ≠ idx := fun p hp heq ↦ by
      have := hfresh p hp
      simp only [idxTSize] at this
      omega
    simp only [hids, haddr, mem_append, mem_cons]
    grind [hfree.not_mem]
  | find id =>
    obtain ⟨result, -, rfl⟩ := hstep
    exact ⟨idxs, hvalid, hlive⟩
  | delete id =>
    obtain ⟨err, s', hrun, rfl⟩ := hstep
    obtain ⟨p, hp, hid, s'', hrun', hvalid', hids, haddr⟩ | ⟨hnone, hrun'⟩ :=
      idxAlctDelete_valid hvalid id
    · obtain ⟨rfl, rfl⟩ : err = .ok ∧ s' = s'' := by simpa [hrun] using hrun'
      refine ⟨idxs.erase p, hvalid', fun i a ↦ ?_⟩
      simp only [hids, haddr, if_true, hvalid.nodup.mem_erase_iff]
      by_cases hi : i = id
      · subst hi
        rw [Function.update_self]
        refine ⟨fun ha ↦ by simp at ha, fun ⟨q, ⟨hne, hq⟩, hqid, _⟩ ↦ ?_⟩
        exact absurd (hvalid.id_injective hq hp (hqid.trans hid.symm)) hne
      · rw [Function.update_of_ne hi, hlive]
        refine exists_congr fun q ↦ ⟨fun ⟨hq, hqid, ha⟩ ↦ ⟨⟨?_, hq⟩, hqid, ha⟩,
          fun ⟨⟨_, hq⟩, hqid, ha⟩ ↦ ⟨hq, hqid, ha⟩⟩
        rintro rfl
        exact hi (hqid.symm.trans hid)
    · obtain ⟨rfl, rfl⟩ : err = .notfound ∧ s' = st.alct := by simpa [hrun] using hrun'
      exact ⟨idxs, hvalid, by simpa using hlive⟩
  | other =>
    obtain ⟨s', huntouched, rfl⟩ := hstep
    refine ⟨idxs, huntouched.valid hvalid, fun id a ↦ (hlive id a).trans ?_⟩
    grind [hvalid.idxs_eq, huntouched.id, huntouched.addr]

/-- The contract of the allocator in a state.

The ids in the tree are distinct (`distinct`) and are the live ones (`entries`). When the left children
are even, `idx_alct_new` returns the least number that is not live (`new_least`). `idx_alct_find`
finds the live ids, with their addresses (`found`), and no others (`not_found`). `idx_alct_delete`
succeeds for a live id (`deleted`) and otherwise reports `E_NOTFOUND` and changes nothing
(`not_deleted`). -/
structure Contract (st : IdxState) : Prop where
  distinct : (st.alct.idxs.map st.alct.id).Nodup
  entries : ∀ i, st.live i ≠ none ↔ i ∈ st.alct.idxs.map st.alct.id
  new_least : st.alct.LeftEven → ∀ idx addr, st.alct.Fresh idx → ∃ i s',
    st.alct.idxAlctNew (.ok idx) addr = .ok (.ok, some i, s') ∧ 0 ≤ i ∧ st.live i = none ∧
      ∀ j, 0 ≤ j → j < i → st.live j ≠ none
  found : ∀ i a, st.alct.idxAlctFind i = .ok (.ok, some a) ↔ st.live i = some a
  not_found : ∀ i, st.alct.idxAlctFind i = .ok (.notfound, none) ↔ st.live i = none
  deleted : ∀ i, st.live i ≠ none → ∃ s', st.alct.idxAlctDelete i = .ok (.ok, s')
  not_deleted : ∀ i, st.live i = none ↔ ∃ s', st.alct.idxAlctDelete i = .ok (.notfound, s')
  unchanged : ∀ i s', st.alct.idxAlctDelete i = .ok (.notfound, s') → s' = st.alct

theorem Inv.contract (h : st.Inv) : st.Contract := by
  obtain ⟨idxs, hvalid, hlive⟩ := h
  have hmem := live_ne_none hlive
  have hidxs := hvalid.idxs_eq
  have hfind : ∀ i, (∃ a, st.live i = some a ∧ st.alct.idxAlctFind i = .ok (.ok, some a)) ∨
      st.live i = none ∧ st.alct.idxAlctFind i = .ok (.notfound, none) := fun i ↦ by
    grind [rbtFind_spec, idxAlctFind, ok_bind, pure_eq]
  have hdelete : ∀ i, (st.live i ≠ none ∧ ∃ s', st.alct.idxAlctDelete i = .ok (.ok, s')) ∨
      st.live i = none ∧ st.alct.idxAlctDelete i = .ok (.notfound, st.alct) := fun i ↦ by
    grind [idxAlctDelete_valid]
  refine ⟨?_, fun i ↦ hidxs ▸ hmem i, fun heven idx addr ⟨hidx, hfresh⟩ ↦ ?_, fun i a ↦ ?_,
    fun i ↦ ?_, fun i hi ↦ ?_, fun i ↦ ?_, fun i s' hrun ↦ ?_⟩
  · rw [hidxs]
    exact List.pairwise_map.mpr (hvalid.sorted.imp fun hlt ↦ hlt.ne)
  · rw [hidxs] at hfresh
    obtain ⟨v, s', -, -, hrun, -, hfree, -⟩ := idxAlctNew_valid hvalid heven hidx hfresh addr
    refine ⟨v, s', hrun, hfree.le, ?_, fun j hj hjv ↦ (hmem j).mpr (hfree.below j hj hjv)⟩
    by_contra hsome
    exact hfree.not_mem ((hmem v).mp hsome)
  all_goals grind

/-- In runs in which the left children are even at every `idx_alct_new`, the contract holds in every
state. -/
theorem even_run_contract {st : IdxState} (h : system.Run EvenAtNew st) : st.Contract :=
  (h.invariant (fun _ ↦ inv_init) fun _ _ _ ↦ inv_step).contract

instance (st : IdxState) (call : IdxCall) : Decidable (st.EvenAtNew call) := by
  cases call <;> unfold EvenAtNew <;> infer_instance

/-- A call in a state, which may be made to stop when the left children are not even. -/
def exampleCall (even : Bool) (st : IdxState) (call : IdxCall) : Result IdxState := do
  assert (even = true → st.EvenAtNew call)
  match call with
  | .new idx addr =>
    assert (st.alct.Fresh idx)
    let (err, id, s) ← st.alct.idxAlctNew (.ok idx) addr
    match err, id with
    | .ok, some id => return ⟨s, Function.update st.live id (some addr)⟩
    | _, _ => throw .unset
  | .delete id =>
    let (err, s) ← st.alct.idxAlctDelete id
    return ⟨s, if err = .ok then Function.update st.live id none else st.live⟩
  | _ => throw .unset

theorem exampleCall_step {even : Bool} {call : IdxCall} (h : exampleCall even st call = .ok st') :
    (even = true → st.EvenAtNew call) ∧ system.step st call st' := by
  obtain ⟨_, hassert, h⟩ := bind_eq_ok.mp h
  refine ⟨assert_eq_ok.mp hassert, ?_⟩
  cases call with
  | new idx addr =>
    obtain ⟨_, hfresh, h⟩ := bind_eq_ok.mp h
    obtain ⟨⟨err, id, s⟩, hrun, h⟩ := bind_eq_ok.mp h
    cases id with
    | none => cases err <;> simp [throw, throwThe, MonadExceptOf.throw] at h
    | some id =>
      by_cases herr : err = .ok
      · subst herr
        exact ⟨assert_eq_ok.mp hfresh, id, s, hrun, (Except.ok.inj h).symm⟩
      · cases err <;> first | exact absurd rfl herr | simp [throw, throwThe, MonadExceptOf.throw] at h
  | delete id =>
    obtain ⟨⟨err, s⟩, hrun, h⟩ := bind_eq_ok.mp h
    exact ⟨err, s, hrun, (Except.ok.inj h).symm⟩
  | find id => simp [throw, throwThe, MonadExceptOf.throw] at h
  | other => simp [throw, throwThe, MonadExceptOf.throw] at h

theorem exampleCalls_run {even : Bool} {calls : List IdxCall} {allowed : IdxState → IdxCall → Prop}
    (hallowed : ∀ st call, (even = true → st.EvenAtNew call) → allowed st call)
    (hrun : system.Run allowed st) (h : calls.foldlM (exampleCall even) st = .ok st') : system.Run allowed st' := by
  induction calls generalizing st with
  | nil =>
    obtain rfl : st = st' := Except.ok.inj h
    exact hrun
  | cons call calls ih =>
    rw [foldlM_cons] at h
    obtain ⟨st₁, hcall, hrest⟩ := bind_eq_ok.mp h
    obtain ⟨heven, hstep⟩ := exampleCall_step hcall
    exact ih (hrun.step (hallowed st call heven) hstep) hrest

def exampleInit : IdxState where
  alct := IdxAlct.idxAcltInit {
    root := 0
    id := fun _ ↦ 0
    addr := fun _ ↦ 0
    sum := fun _ ↦ 0
    tree := ⟨fun _ ↦ .red, fun _ ↦ 0, fun _ _ ↦ 0⟩ }
  live _ := none

/-- Three ids, the middle one deleted. -/
theorem even_run_contract_example :
    ∃ st, system.Run EvenAtNew st ∧ st.live 1 = none ∧ st.live 2 = some 12 ∧ st.Contract := by
  have hresult : ([IdxCall.new 0x1000 10, .new 0x1100 11, .new 0x1200 12, .delete 1].foldlM
      (exampleCall true) exampleInit).map (fun st ↦ (st.live 1, st.live 2)) =
        .ok (none, some 12) := by decide +kernel
  obtain ⟨st, hcalls, hresult⟩ := map_eq_ok.mp hresult
  obtain ⟨h₁, h₂⟩ : st.live 1 = none ∧ st.live 2 = some 12 := by simpa using hresult
  have hrun : system.Run EvenAtNew st :=
    exampleCalls_run (fun _ _ heven ↦ heven rfl) (.init ⟨_, rfl⟩) hcalls
  exact ⟨st, hrun, h₁, h₂, even_run_contract hrun⟩

def exampleUneven : List IdxCall :=
  [.new 0x1000 0, .new 0x1100 0, .new 0x1200 0, .new 0x1300 0, .new 0x1400 0, .new 0x1500 0,
    .new 0x1600 0, .new 0x1700 0, .delete 3, .new 0x1800 0]

def faultOf {α : Type} : Result α → Option Fault
  | .error fault => some fault
  | .ok _ => none

/-- `update` counts the left side of a node twice and not its right side. After these calls
`rbt_find_free_id` returns a live id, and `idx_alct_new` panics. -/
theorem reachable_panic : ∃ st, system.Reachable st ∧ st.alct.Fresh 0x1900 ∧
      st.alct.idxAlctNew (.ok 0x1900) 0 = .error .panic ∧ ¬ st.alct.LeftEven := by
  have hresult : (exampleUneven.foldlM (exampleCall false) exampleInit).map (fun st ↦
      (decide (st.alct.Fresh 0x1900), faultOf (st.alct.idxAlctNew (.ok 0x1900) 0),
        decide st.alct.LeftEven)) = .ok (true, some .panic, false) := by decide +kernel
  obtain ⟨st, hcalls, hresult⟩ := map_eq_ok.mp hresult
  obtain ⟨hfresh, hfault, huneven⟩ : st.alct.Fresh 0x1900 ∧
      faultOf (st.alct.idxAlctNew (.ok 0x1900) 0) = some .panic ∧ ¬ st.alct.LeftEven := by simpa using hresult
  refine ⟨st, exampleCalls_run (fun _ _ _ ↦ trivial) (.init ⟨_, rfl⟩) hcalls, hfresh, ?_, huneven⟩
  cases hnew : st.alct.idxAlctNew (.ok 0x1900) 0 with
  | error fault => simpa [hnew, faultOf] using hfault
  | ok result => simp [hnew, faultOf] at hfault

end IdxState

end Lanthorn
