import Lanthorn.Kernel.RbtRep

/-!
# Red-black trees with keys

A red-black tree whose nodes have strictly ascending keys in order is what every client of `lib/rbt.c` keeps
that looks nodes up by a key. `Keyed` is this invariant, for keys of any linear order, and each operation has
one lemma: `Keyed.search` and `Keyed.search_none`, `Keyed.insertBy` and `Keyed.insertBy_exist`,
`Keyed.rbtDelete`, and `Keyed.rbtFirst` for walks. `Keyed.congr` is the frame: a tree does
not depend on memory outside its nodes.
-/

namespace Lanthorn.Rbt

open Library Tree

theorem linkLoop_exist {m : TreeMem} {u : Tree} {cmp : ℕ → Ordering} {up fuel : ℕ}
    (h : Represents m up u) (hcmp : Guides cmp u.inorder) (hfuel : u.size < fuel)
    (hmem : ∃ x ∈ u.inorder, cmp x = .eq) (parent : ℕ) (d : Side) :
    linkLoop m cmp fuel u.root parent d = .ok none := by
  induction u generalizing up fuel parent d with
  | nil => simp at hmem
  | node l a c r ihl ihr =>
    obtain ⟨fuel, rfl⟩ := exists_succ hfuel
    obtain ⟨ha, -, -, hleft, hright, hl, hr⟩ := h
    obtain ⟨hgl, hgr, hgt, hlt⟩ := guides_node hcmp
    obtain ⟨x, hx, heq⟩ := hmem
    simp only [inorder_node, List.mem_append, List.mem_cons] at hx
    rw [size_node] at hfuel
    rw [root_node, linkLoop, if_neg ha]
    cases hc : cmp a with
    | lt => exact hleft ▸ ihl hl hgl (by omega) ⟨x, by grind, heq⟩ _ _
    | gt => exact hright ▸ ihr hr hgr (by omega) ⟨x, by grind, heq⟩ _ _
    | eq => rfl

/-- The nodes of a red-black tree, in order, are a list with strictly ascending keys. -/
structure Keyed {κ : Type*} [LinearOrder κ] (key : ℕ → κ) (t : Rbt) (xs : List ℕ) : Prop where
  tree : ∃ T, Holds t T ∧ RedBlack T ∧ T.inorder = xs
  sorted : xs.Pairwise fun x y ↦ key x < key y

namespace Keyed

variable {κ : Type*} [LinearOrder κ] {key key' : ℕ → κ} {t t' : Rbt} {xs ys : List ℕ} {x : ℕ} {k : κ}

theorem empty (key : ℕ → κ) (m : TreeMem) : Keyed key ⟨m, 0⟩ [] :=
  ⟨⟨.nil, ⟨rfl, trivial, by simp, by simp⟩, ⟨rfl, 0, rfl⟩, rfl⟩, .nil⟩

theorem nodup (h : Keyed key t xs) : xs.Nodup := by
  obtain ⟨T, hT, -, rfl⟩ := h.tree
  exact hT.nodup

theorem nodes_eq (h : Keyed key t xs) : t.nodes = xs := by
  obtain ⟨T, hT, -, rfl⟩ := h.tree
  exact hT.nodes_eq

theorem ne_zero (h : Keyed key t xs) (hx : x ∈ xs) : x ≠ 0 := by
  obtain ⟨T, hT, -, rfl⟩ := h.tree
  exact hT.rep.ne_zero hx

theorem length_lt (h : Keyed key t xs) : xs.length < addressSpace := by
  obtain ⟨T, hT, -, rfl⟩ := h.tree
  rw [length_inorder]
  exact hT.size_lt

theorem congr {m m' : TreeMem} {root : ℕ} (h : Keyed key ⟨m, root⟩ xs)
    (hmem : ∀ x ∈ xs, m.AgreeAt m' x) (hkey : ∀ x ∈ xs, key' x = key x) : Keyed key' ⟨m', root⟩ xs := by
  obtain ⟨T, hT, hred, rfl⟩ := h.tree
  refine ⟨⟨T, hT.congr hmem, hred, rfl⟩, h.sorted.imp_of_mem fun hx hy hlt ↦ ?_⟩
  rwa [hkey _ hx, hkey _ hy]

section

variable (h : Keyed key t xs)
include h

theorem key_inj {y : ℕ} (hx : x ∈ xs) (hy : y ∈ xs) (hkey : key x = key y) : x = y := by
  have hkeys : (xs.map key).Nodup := List.pairwise_map.mpr (h.sorted.imp fun hlt ↦ hlt.ne)
  exact List.inj_on_of_nodup_map hkeys hx hy hkey

theorem search (hx : x ∈ xs) : t.search (fun n ↦ compareKeys (key x) (key n)) = .ok x := by
  obtain ⟨T, hT, -, rfl⟩ := h.tree
  obtain ⟨y, hy, heq, hrun⟩ | ⟨hnone, -⟩ := search_spec hT (guides_compareKeys key (key x) h.sorted)
  all_goals grind [h.key_inj, compareKeys_eq_eq]

theorem search_none (hnone : ∀ x ∈ xs, key x ≠ k) : t.search (fun n ↦ compareKeys k (key n)) = .ok 0 := by
  obtain ⟨T, hT, -, rfl⟩ := h.tree
  obtain ⟨y, hy, heq, -⟩ | ⟨-, hrun⟩ := search_spec hT (guides_compareKeys key k h.sorted)
  · exact absurd (compareKeys_eq_eq.mp heq).symm (hnone y hy)
  · exact hrun

theorem insertBy (hx : x ≠ 0) (hword : x < addressSpace) (hfresh : x ∉ xs) (hnone : ∀ y ∈ xs, key y ≠ key x) :
    ∃ t' ys zs, t.insertBy (fun n ↦ compareKeys (key x) (key n)) x = .ok (some t') ∧ xs = ys ++ zs ∧
      Keyed key t' (ys ++ x :: zs) ∧ Frames t t' (x :: xs) := by
  obtain ⟨T, hT, hred, rfl⟩ := h.tree
  obtain ⟨t', T', ys, zs, hrun, hT', hred', hsplit, hinorder, hbefore, hafter, hframes⟩ :=
    insertBy_holds hT hred (guides_compareKeys key (key x) h.sorted)
      (fun y hy heq ↦ hnone y hy (compareKeys_eq_eq.mp heq).symm) hx hword hfresh
  refine ⟨t', ys, zs, hrun, hsplit, ⟨⟨T', hT', hred', hinorder⟩, ?_⟩, hframes⟩
  exact pairwise_insert (hsplit ▸ h.sorted) (fun y hy ↦ compareKeys_eq_gt.mp (hbefore y hy))
    fun y hy ↦ compareKeys_eq_lt.mp (hafter y hy)

theorem insertBy_exist (hx : x ∈ xs) (node : ℕ) :
    t.insertBy (fun n ↦ compareKeys (key x) (key n)) node = .ok none := by
  obtain ⟨T, hT, -, rfl⟩ := h.tree
  have hlink := linkLoop_exist hT.rep (guides_compareKeys key (key x) h.sorted) hT.size_lt
    ⟨x, hx, compareKeys_eq_eq.mpr rfl⟩ 0 .left
  rw [← hT.root_eq] at hlink
  simp [Rbt.insertBy, hlink]

theorem rbtDelete (hx : x ∈ xs) : ∃ t', t.rbtDelete x = .ok t' ∧ Keyed key t' (xs.erase x) ∧ Frames t t' xs := by
  obtain ⟨T, hT, hred, rfl⟩ := h.tree
  obtain ⟨t', T', hrun, hT', hred', hinorder, hframes⟩ := rbtDelete_holds hT hred hx
  exact ⟨t', hrun, ⟨⟨T', hT', hred', hinorder⟩, h.sorted.sublist List.erase_sublist⟩, hframes⟩

theorem rbtFirst : t.rbtFirst = .ok (xs.headD 0) := by
  obtain ⟨T, hT, -, rfl⟩ := h.tree
  exact rbtFirst_eq hT

end

theorem rbtRep_eq {σ : Type} (h : Keyed key t xs) (f : σ → ℕ → σ) (s : σ) :
    rbtRep (fun _ ↦ t.mem) (fun p s ↦ .ok (.ok, f s p)) addressSpace (xs.headD 0) s = .ok (.ok, xs.foldl f s) := by
  obtain ⟨T, hT, -, rfl⟩ := h.tree
  exact rbtRep_from hT f (List.nil_append _).symm h.length_lt s

end Keyed

end Lanthorn.Rbt
