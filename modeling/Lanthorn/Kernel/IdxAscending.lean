import Lanthorn.Kernel.IdxContract
import Lanthorn.Library.Ascending

/-!
# Ids that are never given back

While no id is deleted, the ids are given out in their order, every new entry becomes the last of the tree, and
the tree grows to the right only. Then all left children are even, `rbt_find_free_id` finds the next id, and
`idx_alct_new` succeeds (`IdxAlct.idxAlctNew_growing`).
-/

namespace Lanthorn.IdxAlct

open Library List

/-- The allocator while no id has been deleted: the ids are those from zero on. -/
structure Growing (s : IdxAlct) (idxs : List ℕ) : Prop where
  valid : Valid s idxs
  full : ∃ T, s.rbt.Holds T ∧ RedBlack T ∧ LeftFull T
  below : ∀ p ∈ idxs, ∀ j, 0 ≤ j → j < s.id p → j ∈ idxs.map s.id

section Growing

variable {s s' : IdxAlct} {idxs : List ℕ} {idx : ℕ}

theorem evenAt_of_leftPaired {m : TreeMem} {up : ℕ} {T : Tree} (hrep : Represents m up T) (hpaired : LeftPaired T)
    (hsize : T.size < addressSpace) : ∀ n ∈ T.inorder, EvenAt m (m.child .left n) := by
  induction T generalizing up with
  | nil => simp
  | node l a c r ihl ihr =>
    obtain ⟨-, -, -, hleft, -, hrepl, hrepr⟩ := hrep
    obtain ⟨heven, hl, hr⟩ := hpaired
    rw [Tree.size_node] at hsize
    intro n hn
    rw [Tree.inorder_node, mem_append, mem_cons] at hn
    rcases hn with hn | rfl | hn
    · exact ihl hrepl hl (by omega) n hn
    · rw [hleft]
      cases l with
      | nil => exact .inl rfl
      | node ll b c' lr =>
        obtain ⟨-, -, -, hll, hlr, hrepll, hreplr⟩ := hrepl
        rw [Tree.size_node] at hsize
        refine .inr (.inr ?_)
        rw [Tree.root_node, hll, hlr, Rbt.nodesFrom_eq hrepll (by omega), Rbt.nodesFrom_eq hreplr (by omega),
          Tree.length_inorder, Tree.length_inorder]
        exact heven
    · exact ihr hrepr hr (by omega) n hn

theorem Growing.leftEven (h : Growing s idxs) : s.LeftEven := by
  obtain ⟨T, hT, -, hfull⟩ := h.full
  intro n hn
  rw [hT.nodes_eq] at hn
  exact evenAt_of_leftPaired hT.rep hfull.leftPaired hT.size_lt n hn

theorem rbtInsert_full (h : Valid s idxs) (hfull : ∃ T, s.rbt.Holds T ∧ RedBlack T ∧ LeftFull T)
    (hidx : IsIdx idx) (hfresh : idx ∉ idxs) (hless : ∀ p ∈ idxs, s.id p < s.id idx)
    (hrun : s.rbtInsert idx = .ok s') : ∃ T, s'.rbt.Holds T ∧ RedBlack T ∧ LeftFull T := by
  obtain ⟨T, hT, hrb, hleft⟩ := hfull
  obtain ⟨T', hT', -, hinorder', -⟩ := h.tree
  have hinorder : T.inorder = idxNodes idxs := by rw [← hT.nodes_eq, hT'.nodes_eq, hinorder']
  have hgreater : ∀ n ∈ T.inorder, s.compareId (s.id idx) n = .gt := by
    rw [hinorder]
    intro n hn
    obtain ⟨p, hp, rfl⟩ := List.mem_map.mp hn
    rw [compareId_node (h.desc p hp), Rbt.compareKeys_eq_gt]
    exact hless p hp
  obtain ⟨t', fs, hinsert, rfl, hholds, -, -, hafter⟩ := Rbt.insertBy_shape hT hrb
    (hinorder ▸ guides_compareId h.desc h.sorted (s.id idx)) (fun n hn ↦ by rw [hgreater n hn]; simp)
    (show idx + idxRbtNode ≠ 0 by simp [idxRbtNode]) hidx.node_lt (by rwa [hinorder, mem_idxNodes])
  -- nothing lies behind the new entry
  have hend : after fs = [] := by
    refine List.eq_nil_iff_forall_not_mem.mpr fun n hn ↦ ?_
    grind [inorder_plug]
  obtain ⟨t, hsome, hrest⟩ := bind_eq_ok.mp hrun
  obtain rfl := Except.ok.inj (hinsert.symm.trans hsome)
  obtain ⟨sum, -, hret⟩ := bind_eq_ok.mp hrest
  cases hret
  exact ⟨_, hholds, (Rbt.insertShape_spec _ hrb).1, leftFull_insert _ hrb hleft hend⟩

theorem idxAlctNew_growing (h : Growing s idxs) (hidx : IsIdx idx)
    (hfresh : ∀ p ∈ idxs, p + idxTSize ≤ idx ∨ idx + idxTSize ≤ p) (addr : ℕ) :
    ∃ v s', s.idxAlctNew (.ok idx) addr = .ok (.ok, some v, s') ∧ FreeFrom 0 (idxs.map s.id) v ∧
      Growing s' (idxs ++ [idx]) ∧ s'.id = Function.update s.id idx v ∧
      s'.addr = Function.update s.addr idx addr := by
  obtain ⟨v, s', xs, ys, hrun, rfl, hfree, hvalid, hids, haddr⟩ :=
    idxAlctNew_valid h.valid h.leftEven hidx hfresh addr
  have hnew : idx ∉ xs ++ ys := fun hmem ↦ by
    have hsep := hfresh idx hmem
    simp only [idxTSize] at hsep
    omega
  have hkept : ∀ p ∈ xs ++ ys, s'.id p = s.id p := fun p hp ↦ by
    rw [hids, Function.update_of_ne]
    rintro rfl
    exact hnew hp
  have hself : s'.id idx = v := by rw [hids, Function.update_self]
  have hless : ∀ p ∈ xs ++ ys, s.id p < v := by
    intro p hp
    by_contra hle
    have hne : s.id p ≠ v := fun heq ↦ hfree.not_mem (heq ▸ mem_map_of_mem hp)
    exact hfree.not_mem (h.below p hp v hfree.le (by omega))
  obtain rfl : ys = [] := by
    refine List.eq_nil_iff_forall_not_mem.mpr fun p hp ↦ ?_
    grind [pairwise_cons, hvalid.sorted]
  rw [append_nil] at *
  refine ⟨v, s', hrun, hfree, ⟨hvalid, ?_, ?_⟩, hids, haddr⟩
  · obtain ⟨v', hfind, hrest⟩ := bind_eq_ok.mp hrun
    obtain ⟨s'', hinsert, hret⟩ := bind_eq_ok.mp hrest
    obtain ⟨-, hv, rfl⟩ := ok_triple_inj hret
    obtain rfl := Option.some_inj.mp hv
    have hkept' : ∀ p ∈ xs, (s.setEntry idx v' addr).id p = s.id p := by
      intro p hp
      refine Function.update_of_ne ?_ _ _
      rintro rfl
      exact hnew hp
    have hvalid' : Valid (s.setEntry idx v' addr) xs := by
      refine ⟨h.valid.tree, h.valid.sorted.imp_of_mem fun {p q} hp hq hlt ↦ ?_, fun p hp ↦ ?_, h.valid.desc,
        h.valid.spaced⟩
      · rwa [hkept' p hp, hkept' q hq]
      · rw [hkept' p hp]
        exact h.valid.nonneg p hp
    refine rbtInsert_full hvalid' h.full hidx hnew (fun p hp ↦ ?_) hinsert
    rw [hkept' p hp, show (s.setEntry idx v' addr).id idx = v' from Function.update_self _ _ _]
    exact hless p hp
  · rw [forall_mem_append, forall_mem_singleton, hself, map_append, map_singleton, hself]
    grind [map_congr_left, hfree.below]

theorem idxAcltInit_growing (s : IdxAlct) : Growing s.idxAcltInit [] :=
  ⟨idxAcltInit_valid s, ⟨.nil, ⟨rfl, trivial, .nil, by simp⟩, ⟨rfl, 0, rfl⟩, trivial⟩, by simp⟩

end Growing

end Lanthorn.IdxAlct
