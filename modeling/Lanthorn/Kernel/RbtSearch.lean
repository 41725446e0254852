import Lanthorn.Kernel.RbtDelete
import Mathlib.Algebra.Order.Ring.Int

/-!
# Descents and neighbours in a red-black tree

Every client of the kernel's red-black tree writes its own descents: a search for a key and an insertion loop that
follows the comparisons to an empty link. Here the comparison is a parameter: `cmp n` tells how what is sought
compares with the node `n`. `searchLoop_spec` and `linkLoop_spec` say what the two loops find when the comparison
is monotone along the tree (`Guides`), and `insertBy_holds` is the whole insertion: a red-black tree with the new
node between the smaller and the greater ones.

`rbtNext_eq` and `rbtPrev_eq` say that `rbt_next` and `rbt_prev` return the neighbours in order, and
`Holds.nodes_eq` that the nodes of a tree can be read off the memory.
-/

namespace Lanthorn.Rbt

open Library Tree

/-! ### Searching -/

/-- The loop of a search from the node `n`: null if nothing is found. -/
def searchLoop (m : TreeMem) (cmp : ℕ → Ordering) : ℕ → ℕ → Result ℕ
  | 0, _ => throw .endless
  | fuel + 1, n =>
    if n = 0 then return 0
    else match cmp n with
      | .lt => searchLoop m cmp fuel (m.child .left n)
      | .gt => searchLoop m cmp fuel (m.child .right n)
      | .eq => return n

def search (t : Rbt) (cmp : ℕ → Ordering) : Result ℕ := searchLoop t.mem cmp addressSpace t.root

/-- A comparison is monotone along a list: once what is sought is less than a node it is less than
the later ones, and once it is greater than a node it is greater than the earlier ones. -/
def Guides (cmp : ℕ → Ordering) (xs : List ℕ) : Prop :=
  xs.Pairwise fun x y ↦ (cmp x = .lt → cmp y = .lt) ∧ (cmp y = .gt → cmp x = .gt)

def compareKeys {κ : Type*} [LT κ] [DecidableLT κ] (a b : κ) : Ordering :=
  if a < b then .lt else if b < a then .gt else .eq

section CompareKeys

variable {κ : Type*} [LinearOrder κ] {a b : κ}

theorem compareKeys_eq_lt : compareKeys a b = .lt ↔ a < b := by
  unfold compareKeys
  split_ifs <;> simp_all

theorem compareKeys_eq_gt : compareKeys a b = .gt ↔ b < a := by
  unfold compareKeys
  split_ifs with hlt
  · simpa using hlt.le
  · simp_all
  · simp_all

theorem compareKeys_eq_eq : compareKeys a b = .eq ↔ a = b := by grind [compareKeys]

theorem guides_compareKeys {xs : List ℕ} (key : ℕ → κ) (k : κ)
    (h : xs.Pairwise fun x y ↦ key x < key y) : Guides (fun x ↦ compareKeys k (key x)) xs := by
  refine h.imp fun {x y} hxy ↦ ⟨fun hlt ↦ ?_, fun hgt ↦ ?_⟩
  all_goals grind [compareKeys_eq_lt, compareKeys_eq_gt]

end CompareKeys

variable {cmp : ℕ → Ordering} {m : TreeMem} {up fuel x : ℕ} {u T : Tree} {t : Rbt} {fs : List Frame}
  {xs ys : List ℕ}

theorem guides_node {l r : Tree} {a : ℕ} {c : Color} (h : Guides cmp (Library.Tree.node l a c r).inorder) :
    Guides cmp l.inorder ∧ Guides cmp r.inorder ∧ (cmp a = .gt → ∀ x ∈ l.inorder, cmp x = .gt) ∧
      (cmp a = .lt → ∀ x ∈ r.inorder, cmp x = .lt) := by grind [inorder_node, Guides, List.pairwise_cons]

theorem searchLoop_spec (h : Represents m up u) (hcmp : Guides cmp u.inorder) (hfuel : u.size < fuel) :
    (∃ x ∈ u.inorder, cmp x = .eq ∧ searchLoop m cmp fuel u.root = .ok x) ∨
      ((∀ x ∈ u.inorder, cmp x ≠ .eq) ∧ searchLoop m cmp fuel u.root = .ok 0) := by
  induction u generalizing up fuel with
  | nil =>
    obtain ⟨fuel, rfl⟩ := exists_succ hfuel
    exact Or.inr ⟨by simp, by simp [searchLoop]⟩
  | node l a c r ihl ihr =>
    obtain ⟨fuel, rfl⟩ := exists_succ hfuel
    obtain ⟨ha, -, -, hleft, hright, hl, hr⟩ := h
    obtain ⟨hgl, hgr, hgt, hlt⟩ := guides_node hcmp
    rw [size_node] at hfuel
    cases hc : cmp a with
    | lt =>
      have hrun : searchLoop m cmp (fuel + 1) a = searchLoop m cmp fuel l.root := by
        simp [searchLoop, ha, hc, hleft]
      rw [root_node, hrun]
      refine (ihl hl hgl (show l.size < fuel by omega)).imp ?_ ?_
      all_goals grind [inorder_node]
    | gt =>
      have hrun : searchLoop m cmp (fuel + 1) a = searchLoop m cmp fuel r.root := by
        simp [searchLoop, ha, hc, hright]
      rw [root_node, hrun]
      refine (ihr hr hgr (show r.size < fuel by omega)).imp ?_ ?_
      all_goals grind [inorder_node]
    | eq => exact Or.inl ⟨a, by simp, hc, by simp [searchLoop, ha, hc]⟩

theorem search_spec (h : Holds t T) (hcmp : Guides cmp T.inorder) :
    (∃ x ∈ T.inorder, cmp x = .eq ∧ search t cmp = .ok x) ∨
      ((∀ x ∈ T.inorder, cmp x ≠ .eq) ∧ search t cmp = .ok 0) := by
  rw [search, h.root_eq]
  exact searchLoop_spec h.rep hcmp h.size_lt

/-! ### Inserting by comparison -/

/-- The loop of `_rbt_insert` from the link on the side `d` of `parent`, which points at `n`: the
empty link at its end, or nothing when a node compares equal. -/
def linkLoop (m : TreeMem) (cmp : ℕ → Ordering) : ℕ → ℕ → ℕ → Side → Result (Option (ℕ × Side))
  | 0, _, _, _ => throw .endless
  | fuel + 1, n, parent, d =>
    if n = 0 then return some (parent, d)
    else match cmp n with
      | .lt => linkLoop m cmp fuel (m.child .left n) n .left
      | .gt => linkLoop m cmp fuel (m.child .right n) n .right
      | .eq => return none

/-- `_rbt_insert` followed by `rbt_insert_color`: nothing when a node compares equal. -/
def insertBy (t : Rbt) (cmp : ℕ → Ordering) (node : ℕ) : Result (Option Rbt) := do
  let link ← linkLoop t.mem cmp addressSpace t.root 0 .left
  match link with
  | none => return none
  | some (parent, d) => do
    let t ← rbtInsertColor (t.rbLinkNode node parent d) node
    return some t

theorem linkLoop_spec (fs : List Frame) (h : Represents m up u) (hcmp : Guides cmp u.inorder)
    (hne : ∀ x ∈ u.inorder, cmp x ≠ .eq) (hbefore : ∀ x ∈ before fs, cmp x = .gt)
    (hafter : ∀ x ∈ after fs, cmp x = .lt) (hfuel : u.size < fuel) : ∃ gs, plug gs .nil = plug fs u ∧
      linkLoop m cmp fuel u.root (hook fs) (innerSide fs) = .ok (some (hook gs, innerSide gs)) ∧
      (∀ x ∈ before gs, cmp x = .gt) ∧ (∀ x ∈ after gs, cmp x = .lt) := by
  induction u generalizing up fs fuel with
  | nil =>
    obtain ⟨fuel, rfl⟩ := exists_succ hfuel
    exact ⟨fs, rfl, by simp [linkLoop], hbefore, hafter⟩
  | node l a c r ihl ihr =>
    obtain ⟨fuel, rfl⟩ := exists_succ hfuel
    obtain ⟨ha, -, -, hleft, hright, hl, hr⟩ := h
    obtain ⟨hgl, hgr, hgt, hlt⟩ := guides_node hcmp
    rw [size_node] at hfuel
    have hnel : ∀ x ∈ l.inorder, cmp x ≠ .eq := fun x hx ↦ hne x (by simp [hx])
    have hner : ∀ x ∈ r.inorder, cmp x ≠ .eq := fun x hx ↦ hne x (by simp [hx])
    cases hc : cmp a with
    | lt =>
      have hafter' : ∀ x ∈ after (⟨.left, a, c, r⟩ :: fs), cmp x = .lt := by grind [after]
      obtain ⟨gs, hplug, hrun, hrest⟩ :=
        ihl (⟨.left, a, c, r⟩ :: fs) hl hgl hnel hbefore hafter' (show l.size < fuel by omega)
      refine ⟨gs, hplug, ?_, hrest⟩
      rw [← hrun]
      simp [linkLoop, ha, hc, hleft, innerSide]
    | gt =>
      have hbefore' : ∀ x ∈ before (⟨.right, a, c, l⟩ :: fs), cmp x = .gt := by grind [before]
      obtain ⟨gs, hplug, hrun, hrest⟩ :=
        ihr (⟨.right, a, c, l⟩ :: fs) hr hgr hner hbefore' hafter (show r.size < fuel by omega)
      refine ⟨gs, hplug, ?_, hrest⟩
      rw [← hrun]
      simp [linkLoop, ha, hc, hright, innerSide]
    | eq => exact absurd hc (hne a (by simp))

theorem linkLoop_cases (cmp : ℕ → Ordering) (fs : List Frame) (h : Represents m up u) (hfuel : u.size < fuel) :
    linkLoop m cmp fuel u.root (hook fs) (innerSide fs) = .ok none ∨ ∃ gs, plug gs .nil = plug fs u ∧
        linkLoop m cmp fuel u.root (hook fs) (innerSide fs) = .ok (some (hook gs, innerSide gs)) := by
  induction u generalizing up fs fuel with
  | nil =>
    obtain ⟨fuel, rfl⟩ := exists_succ hfuel
    exact .inr ⟨fs, rfl, by simp [linkLoop]⟩
  | node l a c r ihl ihr =>
    obtain ⟨fuel, rfl⟩ := exists_succ hfuel
    obtain ⟨ha, -, -, hleft, hright, hl, hr⟩ := h
    rw [size_node] at hfuel
    cases hc : cmp a with
    | lt =>
      have hrun : linkLoop m cmp (fuel + 1) a (hook fs) (innerSide fs) =
          linkLoop m cmp fuel l.root a .left := by simp [linkLoop, ha, hc, hleft]
      rw [root_node, hrun]
      exact ihl (⟨.left, a, c, r⟩ :: fs) hl (show l.size < fuel by omega)
    | gt =>
      have hrun : linkLoop m cmp (fuel + 1) a (hook fs) (innerSide fs) =
          linkLoop m cmp fuel r.root a .right := by simp [linkLoop, ha, hc, hright]
      rw [root_node, hrun]
      exact ihr (⟨.right, a, c, l⟩ :: fs) hr (show r.size < fuel by omega)
    | eq => exact .inl (by simp [linkLoop, ha, hc])

theorem insertBy_of_link (h : Holds t (plug fs .nil)) (hT : RedBlack (plug fs .nil)) (hx : x ≠ 0)
    (hword : x < addressSpace) (hfresh : x ∉ (plug fs .nil).inorder)
    (hlink : linkLoop t.mem cmp addressSpace t.root 0 .left = .ok (some (hook fs, innerSide fs))) :
    ∃ t', insertBy t cmp x = .ok (some t') ∧ Holds t' (paint .black (insertFix fs (.node .nil x .red .nil))) ∧
      Frames t t' (x :: (plug fs .nil).inorder) := by
  obtain ⟨n, hn, hfs, -⟩ := (redBlack_plug_iff _ _).mp hT
  obtain rfl : n = 0 := hn
  obtain ⟨hlinked, hframes⟩ := rbLinkNode_holds h hx hword hfresh
  obtain ⟨t', hcolor, hmoves⟩ := rbtInsertColor_moves hlinked hfs
  refine ⟨t', ?_, hmoves.holds, ?_⟩
  · simp only [insertBy, hlink, hcolor, ok_bind, pure_eq]
  · refine (hframes.trans hmoves.frames).mono fun z hz ↦ ?_
    grind [mem_plug, inorder_node]

/-- The insertion of a new node into a red-black tree, with the shape it leaves. Assumes: no node
compares equal, the comparison is monotone along the tree, and the new address is a non-null word
outside the tree. -/
theorem insertBy_shape (h : Holds t T) (hT : RedBlack T) (hcmp : Guides cmp T.inorder)
    (hne : ∀ y ∈ T.inorder, cmp y ≠ .eq) (hx : x ≠ 0) (hword : x < addressSpace) (hfresh : x ∉ T.inorder) :
    ∃ t' fs, insertBy t cmp x = .ok (some t') ∧ T = plug fs .nil ∧
      Holds t' (paint .black (insertFix fs (.node .nil x .red .nil))) ∧ Frames t t' (x :: T.inorder) ∧
      (∀ y ∈ before fs, cmp y = .gt) ∧ (∀ y ∈ after fs, cmp y = .lt) := by
  obtain ⟨fs, hplug, hrun, hbefore, hafter⟩ := linkLoop_spec [] h.rep hcmp hne
    (by simp [before]) (by simp [after]) h.size_lt
  rw [plug_nil] at hplug
  subst hplug
  obtain ⟨t', hinsert, hholds, hframes⟩ := insertBy_of_link h hT hx hword hfresh (h.root_eq ▸ hrun)
  exact ⟨t', fs, hinsert, rfl, hholds, hframes, hbefore, hafter⟩

theorem insertBy_cases (cmp : ℕ → Ordering) (h : Holds t T) (hT : RedBlack T) (hx : x ≠ 0)
    (hword : x < addressSpace) (hfresh : x ∉ T.inorder) :
    insertBy t cmp x = .ok none ∨ ∃ t' fs, insertBy t cmp x = .ok (some t') ∧ T = plug fs .nil ∧
      Holds t' (paint .black (insertFix fs (.node .nil x .red .nil))) ∧ Frames t t' (x :: T.inorder) := by
  obtain hnone | ⟨fs, hplug, hrun⟩ := linkLoop_cases cmp [] h.rep h.size_lt
  · grind [linkLoop, addressSpace, h.root_eq, insertBy, ok_bind, pure_eq]
  · rw [plug_nil] at hplug
    subst hplug
    obtain ⟨t', hinsert, hholds, hframes⟩ := insertBy_of_link h hT hx hword hfresh (h.root_eq ▸ hrun)
    exact .inr ⟨t', fs, hinsert, rfl, hholds, hframes⟩

theorem insertShape_spec (x : ℕ) (h : RedBlack (plug fs .nil)) :
    RedBlack (paint .black (insertFix fs (.node .nil x .red .nil))) ∧
      (plug fs .nil).inorder = before fs ++ after fs ∧
      (paint .black (insertFix fs (.node .nil x .red .nil))).inorder = before fs ++ x :: after fs := by
  obtain ⟨n, hn, hfs, -⟩ := (redBlack_plug_iff _ _).mp h
  obtain rfl : n = 0 := hn
  refine ⟨redBlack_insertFix (by simp [Library.Balanced]) rfl hfs, by simp [inorder_plug], ?_⟩
  rw [inorder_paint, inorder_insertFix fs (by simp), inorder_plug]
  simp

theorem pairwise_insert {α : Type*} {r : α → α → Prop} {xs ys : List α} {x : α}
    (h : (xs ++ ys).Pairwise r) (hbefore : ∀ y ∈ xs, r y x) (hafter : ∀ y ∈ ys, r x y) :
    (xs ++ x :: ys).Pairwise r := by grind [List.pairwise_cons]

theorem insertBy_holds (h : Holds t T) (hT : RedBlack T) (hcmp : Guides cmp T.inorder)
    (hne : ∀ y ∈ T.inorder, cmp y ≠ .eq) (hx : x ≠ 0) (hword : x < addressSpace) (hfresh : x ∉ T.inorder) :
    ∃ t' T' xs ys, insertBy t cmp x = .ok (some t') ∧ Holds t' T' ∧ RedBlack T' ∧
      T.inorder = xs ++ ys ∧ T'.inorder = xs ++ x :: ys ∧
      (∀ y ∈ xs, cmp y = .gt) ∧ (∀ y ∈ ys, cmp y = .lt) ∧ Frames t t' (x :: T.inorder) := by
  grind [insertBy_shape, insertShape_spec]

/-! ### Neighbours -/

def outward (d : Side) (t : Tree) : List ℕ := match d with
  | .left => t.inorder.reverse
  | .right => t.inorder

/-- The addresses beyond a position in the direction of a side, the nearest first. -/
def beyond (d : Side) (fs : List Frame) : List ℕ := match d with
  | .left => (before fs).reverse
  | .right => after fs

theorem outward_join (d : Side) (a : ℕ) (c : Color) (near far : Tree) :
    outward d (join d.flip a c near far) = outward d near ++ a :: outward d far := by
  cases d <;> simp [outward, join, Side.flip]

theorem outward_eq_nil_iff (d : Side) (t : Tree) : outward d t = [] ↔ t = .nil := by
  cases t with
  | nil => cases d <;> simp [outward]
  | node l a c r => cases d <;> simp [outward]

theorem beyond_cons (d : Side) (F : Frame) (fs : List Frame) : beyond d (F :: fs) =
      if F.side = d then beyond d fs else F.addr :: outward d F.sibling ++ beyond d fs := by
  obtain ⟨side, a, c, s⟩ := F
  cases d <;> cases side <;> simp [beyond, before, after, outward]

theorem descend_head {d : Side} (h : Represents m up u) (hu : u ≠ .nil) (hfuel : u.size ≤ fuel) :
    descend m d.flip fuel u.root = .ok ((outward d u).headD 0) := by
  induction fuel generalizing u up with
  | zero =>
    cases u with
    | nil => exact absurd rfl hu
    | node l a c r => simp at hfuel
  | succ fuel ih =>
    obtain ⟨near, far, hjoin⟩ := exists_join d.flip hu
    rw [hjoin, represents_join] at h
    obtain ⟨-, -, -, hnear, -, hn, -⟩ := h
    rw [descend, hnear]
    conv_rhs => rw [hjoin, outward_join]
    by_cases hnil : near = .nil
    · subst hnil
      have hempty : outward d .nil = [] := (outward_eq_nil_iff d .nil).mpr rfl
      simp [hempty]
    · have hsize : near.size ≤ fuel := by
        rw [hjoin, size_join] at hfuel
        omega
      obtain ⟨y, ys, hcons⟩ := List.exists_cons_of_ne_nil ((outward_eq_nil_iff d near).not.mpr hnil)
      rw [if_pos (hn.root_eq_zero_iff.not.mpr hnil), ih hn hnil hsize]
      simp [hcons]

theorem ascend_eq {d : Side} (h : Represents m 0 (plug fs u)) (hu : u ≠ .nil)
    (hnodup : (plug fs u).inorder.Nodup) (hfuel : fs.length < fuel) :
    ascend m d fuel u.root = .ok ((beyond d fs).headD 0) := by
  induction fs generalizing u fuel with
  | nil =>
    obtain ⟨fuel, rfl⟩ := exists_succ hfuel
    have hparent := h.parent_root hu
    simp only [plug_nil] at hparent
    cases d <;> simp [ascend, hparent, beyond, before, after]
  | cons F fs ih =>
    obtain ⟨fuel, rfl⟩ := exists_succ hfuel
    obtain ⟨hcontext, hrep⟩ := (represents_plug _ _ _).mp h
    have hparent := hrep.parent_root hu
    obtain ⟨hF, -, -, hnear, hfar, -, -⟩ := hcontext
    rw [hook_cons] at hparent
    have htest : u.root = m.child d F.addr ↔ F.side = d := by
      by_cases hd : F.side = d
      · subst hd
        simp [hnear]
      · obtain rfl : d = F.side.flip := side_eq_flip_of_ne (Ne.symm hd)
        rw [hfar]
        refine iff_of_false (ne_root_of_not_mem (hrep.ne_zero (mem_root hu)) fun hmem ↦ ?_) hd
        exact (List.nodup_append.mp (nodup_plug.mp hnodup)).2.2 _ (mem_root hu) _ (by simp [hmem]) rfl
    rw [ascend, beyond_cons]
    by_cases hd : F.side = d
    · have hlength : fs.length < fuel := by
        simp only [List.length_cons] at hfuel
        omega
      have hih := ih h join_ne_nil hnodup hlength
      rw [Frame.fill, root_join] at hih
      simp [hparent, hF, htest, hd, hih]
    · simp [hparent, htest, hd]

theorem neighbour_eq (d : Side) (h : Holds t (plug fs u)) (hu : u ≠ .nil) :
    neighbour d t.mem u.root = .ok ((outward d (u.child d) ++ beyond d fs).headD 0) := by
  have hlength := h.length_lt
  obtain ⟨hcontext, hrep⟩ := h.represents
  have hjoin := hrep
  rw [← join_child d hu, represents_join] at hjoin
  obtain ⟨-, -, -, hnear, -, hn, -⟩ := hjoin
  rw [neighbour, hnear]
  by_cases hnil : u.child d = .nil
  · have hempty : outward d (u.child d) = [] := (outward_eq_nil_iff d _).mpr hnil
    rw [if_neg (by simp [hnil]), hempty, List.nil_append]
    exact ascend_eq h.rep hu h.nodup hlength
  · have hsize : (u.child d).size ≤ addressSpace := by grind [length_le_size_plug, h.size_lt, join_child, size_join]
    obtain ⟨y, ys, hcons⟩ := List.exists_cons_of_ne_nil ((outward_eq_nil_iff d _).not.mpr hnil)
    rw [if_pos (hn.root_eq_zero_iff.not.mpr hnil), descend_head hn hnil hsize, hcons]
    rfl

theorem inorder_split_unique {xs' ys' : List ℕ} (h : xs ++ x :: ys = xs' ++ x :: ys')
    (hnodup : (xs ++ x :: ys).Nodup) : xs = xs' ∧ ys = ys' := by
  induction xs generalizing xs' with
  | nil =>
    cases xs' with
    | nil => simpa using h
    | cons a xs' => grind
  | cons a xs ih =>
    cases xs' with
    | nil => grind
    | cons b xs' =>
      simp only [List.cons_append, List.cons.injEq] at h
      obtain ⟨rfl, hrest⟩ := h
      obtain ⟨rfl, rfl⟩ := ih hrest (List.nodup_cons.mp hnodup).2
      exact ⟨rfl, rfl⟩

theorem rbtNext_eq (h : Holds t T) (hx : T.inorder = xs ++ x :: ys) : rbtNext t.mem x = .ok (ys.headD 0) := by
  obtain ⟨fs, l, c, r, rfl⟩ := exists_plug_of_mem (t := T) (x := x) (by simp [hx])
  have hsplit : (before fs ++ l.inorder) ++ x :: (r.inorder ++ after fs) = xs ++ x :: ys := by
    rw [← hx, inorder_plug]
    simp
  obtain ⟨-, rfl⟩ := inorder_split_unique hsplit (hsplit ▸ hx ▸ h.nodup)
  exact neighbour_eq .right h (by simp)

theorem rbtPrev_eq (h : Holds t T) (hx : T.inorder = xs ++ x :: ys) :
    rbtPrev t.mem x = .ok (xs.reverse.headD 0) := by
  obtain ⟨fs, l, c, r, rfl⟩ := exists_plug_of_mem (t := T) (x := x) (by simp [hx])
  have hsplit : (before fs ++ l.inorder) ++ x :: (r.inorder ++ after fs) = xs ++ x :: ys := by
    rw [← hx, inorder_plug]
    simp
  obtain ⟨rfl, -⟩ := inorder_split_unique hsplit (hsplit ▸ hx ▸ h.nodup)
  rw [List.reverse_append]
  exact neighbour_eq .left h (by simp)

/-! ### The nodes in order -/

/-- The nodes under `n` in order, as the memory links them. -/
def nodesFrom (m : TreeMem) : ℕ → ℕ → List ℕ
  | 0, _ => []
  | fuel + 1, n =>
    if n = 0 then []
    else nodesFrom m fuel (m.child .left n) ++ n :: nodesFrom m fuel (m.child .right n)

def nodes (t : Rbt) : List ℕ := nodesFrom t.mem addressSpace t.root

theorem nodesFrom_eq (h : Represents m up T) (hfuel : T.size < fuel) : nodesFrom m fuel T.root = T.inorder := by
  induction T generalizing up fuel with
  | nil =>
    obtain ⟨fuel, rfl⟩ := exists_succ hfuel
    rfl
  | node l a c r ihl ihr =>
    obtain ⟨fuel, rfl⟩ := exists_succ hfuel
    obtain ⟨ha, -, -, hleft, hright, hl, hr⟩ := h
    rw [Tree.size_node] at hfuel
    rw [root_node, nodesFrom, if_neg ha, hleft, hright, ihl hl (by omega), ihr hr (by omega)]
    rfl

theorem Holds.nodes_eq (h : Holds t T) : t.nodes = T.inorder := by
  rw [nodes, h.root_eq]
  exact nodesFrom_eq h.rep h.size_lt

end Lanthorn.Rbt
