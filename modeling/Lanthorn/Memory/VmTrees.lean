import Lanthorn.Library.Region
import Lanthorn.Memory.Vm

/-!
# The trees of the region allocator

`Trees s free live stale` says that the two trees are red-black trees of the descriptors `free` and `live`, in this
order, which are all different, and that `mx_size` is right in the free tree at every node but `stale`. It says
nothing about the regions themselves: the extents of linked regions may change, and the trees hold the same
descriptors (`Trees.setExtent`).

Each tree operation of `vm.c` has one lemma.
-/

namespace Lanthorn

open Library List

namespace VpageAlct

def rbtNodes (vps : List ℕ) : List ℕ := vps.map (· + vpageRbtNode)

@[simp] theorem mem_rbtNodes {vps : List ℕ} {vp : ℕ} : vp + vpageRbtNode ∈ rbtNodes vps ↔ vp ∈ vps := by
  simp [rbtNodes]

def IsDesc (vp : ℕ) : Prop := vp + vpageTSize ≤ addressSpace

theorem IsDesc.node_lt {vp : ℕ} (h : IsDesc vp) : vp + vpageRbtNode < addressSpace := by
  simp only [IsDesc, vpageTSize, vpageRbtNode] at *
  omega

theorem vpageOf_add {vp : ℕ} (h : IsDesc vp) : vpageOf (vp + vpageRbtNode) = vp :=
  containerOf_add h.node_lt

/-! ### `mx_size` -/

/-- The `mx_size` of a child, zero when there is none. -/
def childMx (mx : ℕ → ℕ) (node : ℕ) : ℕ := if node ≠ 0 then mx (vpageOf node) else 0

/-- The `mx_size` of a node is right for those of its children, or the node is `stale`. -/
def MxBut (stale : ℕ) (size mx : ℕ → ℕ) (a l r : ℕ) : Prop :=
  a = stale ∨ mx (vpageOf a) = max (max (childMx mx l) (childMx mx r)) (size (vpageOf a))

theorem vpageOf_injective {a b : ℕ} (ha : a < addressSpace) (hb : b < addressSpace)
    (h : vpageOf a = vpageOf b) : a = b := by
  simp only [vpageOf, containerOf, vpageRbtNode, addressSpace] at *
  omega

theorem update_eq (size : ℕ → ℕ) (m : TreeMem) (mx : ℕ → ℕ) (node : ℕ) :
    update size m mx node = Function.update mx (vpageOf node)
      (max (max (childMx mx (m.child .left node)) (childMx mx (m.child .right node))) (size (vpageOf node))) := by
  simp only [update, childMx]
  split_ifs <;> simp

theorem childMx_update {mx : ℕ → ℕ} {x n v : ℕ} (hx : x < addressSpace) (hn : n < addressSpace)
    (hne : n ≠ x) : childMx (Function.update mx (vpageOf x) v) n = childMx mx n := by
  have hvp : vpageOf n ≠ vpageOf x := fun h ↦ hne (vpageOf_injective hn hx h)
  simp [childMx, hvp]

theorem updates_update (stale : ℕ) (size : ℕ → ℕ) (m : TreeMem) :
    Rbt.Updates (MxBut stale size) m (update size m) where
  sets mx x l r hl hr hx hlw hrw hlx hrx := by
    right
    rw [update_eq, hl, hr, childMx_update hx hlw hlx, childMx_update hx hrw hrx]
    simp
  keeps mx x a l r hx ha hl hr hax hlx hrx h := by
    refine h.imp_right fun h ↦ ?_
    have hvp : vpageOf a ≠ vpageOf x := fun heq ↦ hax (vpageOf_injective ha hx heq)
    rw [update_eq, childMx_update hx hl hlx, childMx_update hx hr hrx]
    simpa [hvp] using h

/-! ### The trees -/

structure Trees (s : VpageAlct) (free live : List ℕ) (stale : ℕ) : Prop where
  free_tree : ∃ T, s.freeRbt.Holds T ∧ RedBlack T ∧ T.inorder = rbtNodes free ∧
    Summed (MxBut stale s.size s.mxSize) T
  live_tree : ∃ T, s.allocedRbt.Holds T ∧ RedBlack T ∧ T.inorder = rbtNodes live
  desc : ∀ vp ∈ free ++ live, IsDesc vp
  nodup : (free ++ live).Nodup

/-- A call that changes the trees and `mx_size` only. -/
structure SameExtents (s s' : VpageAlct) : Prop where
  addr : s'.addr = s.addr
  size : s'.size = s.size
  type : s'.type = s.type

theorem SameExtents.trans {s s' s'' : VpageAlct} (h : SameExtents s s') (h' : SameExtents s' s'') :
    SameExtents s s'' :=
  ⟨h'.addr.trans h.addr, h'.size.trans h.size, h'.type.trans h.type⟩

def Sorted (addr : ℕ → ℕ) (vps : List ℕ) : Prop := vps.Pairwise fun p q ↦ addr p < addr q

section Lemmas

variable {s : VpageAlct} {free live : List ℕ} {stale vp : ℕ}

variable {xs vps ys : List ℕ} {p now tmp : ℕ}

section

variable (h : Trees s free live stale) {m : TreeMem} (hframes : ∀ z, z ∉ rbtNodes xs → s.tree.AgreeAt m z)
include h hframes

theorem Trees.keep_live (hxs : ∀ p ∈ live, p ∉ xs) :
    ∃ T, (⟨m, s.allocedRoot⟩ : Rbt).Holds T ∧ RedBlack T ∧ T.inorder = rbtNodes live := by
  obtain ⟨T, hT, hrb, hinorder⟩ := h.live_tree
  refine ⟨T, hT.congr fun z hz ↦ hframes z ?_, hrb, hinorder⟩
  rw [hinorder] at hz
  obtain ⟨p, hp, rfl⟩ := List.mem_map.mp hz
  rw [mem_rbtNodes]
  exact hxs p hp

theorem Trees.keep_free (hxs : ∀ p ∈ free, p ∉ xs) :
    ∃ T, (⟨m, s.freeRoot⟩ : Rbt).Holds T ∧ RedBlack T ∧ T.inorder = rbtNodes free ∧
      Summed (MxBut stale s.size s.mxSize) T := by
  obtain ⟨T, hT, hrb, hinorder, hsummed⟩ := h.free_tree
  refine ⟨T, hT.congr fun z hz ↦ hframes z ?_, hrb, hinorder, hsummed⟩
  rw [hinorder] at hz
  obtain ⟨p, hp, rfl⟩ := List.mem_map.mp hz
  rw [mem_rbtNodes]
  exact hxs p hp

end

theorem Trees.not_mem_live (h : Trees s free live stale) (hp : p ∈ live) : p ∉ free :=
  fun hfree ↦ (List.nodup_append.mp h.nodup).2.2 p hfree p hp rfl

theorem rbtNodes_erase (vps : List ℕ) (vp : ℕ) :
    (rbtNodes vps).erase (vp + vpageRbtNode) = rbtNodes (vps.erase vp) :=
  (map_erase (fun _ _ heq ↦ Nat.add_right_cancel heq) vps).symm

theorem vmDeleteFree_trees (h : Trees s free live stale) (hvp : vp ∈ free) :
    ∃ s', s.vmDeleteFree vp = .ok s' ∧ Trees s' (free.erase vp) live stale ∧ SameExtents s s' := by
  obtain ⟨T, hT, hrb, hinorder, hsummed⟩ := h.free_tree
  have hmem : vp + vpageRbtNode ∈ T.inorder := by rwa [hinorder, mem_rbtNodes]
  obtain ⟨start, t', T', mx', hbegin, hdelete, hend, hT', hrb', hsummed', hinorder', hframes⟩ :=
    Rbt.rbtDelete_summed (updates_update stale s.size) hT hrb hsummed hmem
  refine ⟨{ s.setFreeRbt t' with mxSize := mx' }, ?_, ⟨⟨T', hT', hrb', ?_, hsummed'⟩,
    h.keep_live (hinorder ▸ hframes) fun p hp ↦ h.not_mem_live hp, fun p hp ↦ ?_, ?_⟩, rfl, rfl, rfl⟩
  · have hbegin' : Rbt.rbtDeleteUpdateBegin s.tree (vp + vpageRbtNode) = .ok start := hbegin
    have hend' : Rbt.rbtDeleteUpdateEnd t'.mem (update s.size t'.mem) start s.mxSize = .ok mx' := hend
    simp [vmDeleteFree, hbegin', hdelete, setFreeRbt, hend']
  · rw [hinorder', hinorder, rbtNodes_erase]
  · grind [h.desc]
  · exact h.nodup.sublist (List.erase_sublist.append_right live)

theorem guides_compareAddr (hdesc : ∀ p ∈ vps, IsDesc p) (hsorted : Sorted s.addr vps) (a : ℕ) :
    Rbt.Guides (s.compareAddr a) (rbtNodes vps) := by
  refine Rbt.guides_compareKeys (fun n ↦ s.addr (vpageOf n)) a ?_
  grind [rbtNodes, hsorted.imp_of_mem, vpageOf_add]

theorem compareAddr_node (hp : IsDesc p) (a : ℕ) :
    s.compareAddr a (p + vpageRbtNode) = Rbt.compareKeys a (s.addr p) := by rw [compareAddr, vpageOf_add hp]

theorem exists_split {a : ℕ} (hdesc : ∀ p ∈ vps, IsDesc p) (hsplit : rbtNodes vps = xs ++ ys)
    (hgt : ∀ n ∈ xs, s.compareAddr a n = .gt) (hlt : ∀ n ∈ ys, s.compareAddr a n = .lt) :
    ∃ before after, vps = before ++ after ∧ xs = rbtNodes before ∧ ys = rbtNodes after ∧
      (∀ p ∈ before, s.addr p < a) ∧ ∀ p ∈ after, a < s.addr p := by
  obtain ⟨before, after, rfl, rfl, rfl⟩ := List.map_eq_append_iff.mp hsplit
  refine ⟨before, after, rfl, rfl, rfl, fun p hp ↦ ?_, fun p hp ↦ ?_⟩
  · grind [mem_map_of_mem, compareAddr_node, Rbt.compareKeys_eq_gt]
  grind [mem_map_of_mem, compareAddr_node, Rbt.compareKeys_eq_lt]

theorem compareAddr_ne_eq {a : ℕ} (hdesc : ∀ p ∈ vps, IsDesc p) (hne : ∀ p ∈ vps, s.addr p ≠ a)
    (n : ℕ) (hn : n ∈ rbtNodes vps) : s.compareAddr a n ≠ .eq := by
  obtain ⟨p, hp, rfl⟩ := List.mem_map.mp hn
  rw [compareAddr_node (hdesc p hp), Ne, Rbt.compareKeys_eq_eq]
  exact (hne p hp).symm

section

variable (h : Trees s free live stale) (hvp : vp ∉ free ++ live) (hdesc : IsDesc vp) {t' : Rbt} {T' : Tree}
include h hvp hdesc

theorem Trees.insertFree {mx' : ℕ → ℕ} (hsplit : free = xs ++ ys) (hT' : t'.Holds T') (hrb' : RedBlack T')
    (hinorder' : T'.inorder = rbtNodes (xs ++ vp :: ys)) (hsummed' : Summed (MxBut stale s.size mx') T')
    (hframes : ∀ z, z ∉ (vp + vpageRbtNode) :: rbtNodes free → s.tree.AgreeAt t'.mem z) :
    Trees { s.setFreeRbt t' with mxSize := mx' } (xs ++ vp :: ys) live stale := by
  subst hsplit
  have hperm : (xs ++ vp :: ys ++ live).Perm (vp :: (xs ++ ys ++ live)) := by simp
  refine ⟨⟨T', hT', hrb', hinorder', hsummed'⟩, ?_, fun p hp ↦ ?_, ?_⟩
  · have hframes' : ∀ z, z ∉ rbtNodes (vp :: (xs ++ ys)) → s.tree.AgreeAt t'.mem z := fun z hz ↦
      hframes z (by simpa [rbtNodes] using hz)
    refine h.keep_live hframes' fun p hp hmem ↦ ?_
    grind [h.not_mem_live]
  all_goals grind [h.desc, h.nodup]

theorem Trees.insertLive (hsplit : live = xs ++ ys) (hT' : t'.Holds T') (hrb' : RedBlack T')
    (hinorder' : T'.inorder = rbtNodes (xs ++ vp :: ys))
    (hframes : ∀ z, z ∉ (vp + vpageRbtNode) :: rbtNodes live → s.tree.AgreeAt t'.mem z) :
    Trees (s.setAllocedRbt t') free (xs ++ vp :: ys) stale := by
  subst hsplit
  have hperm : (free ++ (xs ++ vp :: ys)).Perm (vp :: (free ++ (xs ++ ys))) := by
    rw [← append_assoc, ← append_assoc]
    exact perm_middle
  refine ⟨?_, ⟨T', hT', hrb', hinorder'⟩, fun p hp ↦ ?_, ?_⟩
  · have hframes' : ∀ z, z ∉ rbtNodes (vp :: (xs ++ ys)) → s.tree.AgreeAt t'.mem z := fun z hz ↦
      hframes z (by simpa [rbtNodes] using hz)
    refine h.keep_free hframes' fun p hp hmem ↦ ?_
    grind [h.not_mem_live]
  all_goals grind [h.desc, h.nodup]

end

theorem rbtNodes_split {before after : List ℕ} (h : before ++ after = rbtNodes vps) :
    ∃ xs ys, vps = xs ++ ys ∧ before ++ (vp + vpageRbtNode) :: after = rbtNodes (xs ++ vp :: ys) := by
  obtain ⟨xs, ys, rfl, rfl, rfl⟩ := List.map_eq_append_iff.mp h.symm
  exact ⟨xs, ys, rfl, by simp [rbtNodes]⟩

section

variable (h : Trees s free live stale)
include h

theorem insertFree_trees (hsorted : Sorted s.addr free) (hvp : vp ∉ free ++ live) (hdesc : IsDesc vp)
    (hne : ∀ p ∈ free, s.addr p ≠ s.addr vp) : ∃ t' mx' xs ys, s.rbtInsert s.freeRbt vp = .ok (.ok, t') ∧
      Rbt.rbtInsertUpdate t'.mem (update s.size t'.mem) (vp + vpageRbtNode) s.mxSize = .ok mx' ∧
      free = xs ++ ys ∧ Trees { s.setFreeRbt t' with mxSize := mx' } (xs ++ vp :: ys) live stale ∧
      Sorted s.addr (xs ++ vp :: ys) := by
  obtain ⟨T, hT, hrb, hinorder, hsummed⟩ := h.free_tree
  have hfree : ∀ p ∈ free, IsDesc p := fun p hp ↦ h.desc p (mem_append_left _ hp)
  have hguides := guides_compareAddr hfree hsorted (s.addr vp)
  have hneq := compareAddr_ne_eq hfree hne
  have hfresh : vp + vpageRbtNode ∉ rbtNodes free := by
    rw [mem_rbtNodes]
    exact fun hmem ↦ hvp (mem_append_left _ hmem)
  rw [← hinorder] at hguides hneq hfresh
  obtain ⟨t', T', nxs, nys, mx', hrun, hupdate, hT', hrb', hsummed', hsplit, hinorder', hgt, hlt,
    hframes⟩ := Rbt.insertBy_summed (updates_update stale s.size) hT hrb hsummed hguides hneq
      (by simp [vpageRbtNode]) hdesc.node_lt hfresh
  obtain ⟨xs, ys, rfl, rfl, rfl, hbefore, hafter⟩ :=
    exists_split hfree (hinorder.symm.trans hsplit) hgt hlt
  refine ⟨t', mx', xs, ys, ?_, hupdate, rfl, h.insertFree hvp hdesc rfl hT' hrb' ?_ hsummed'
    (hinorder ▸ hframes), Rbt.pairwise_insert hsorted hbefore hafter⟩
  · simp [rbtInsert, hrun]
  · rw [hinorder']
    simp [rbtNodes]

theorem insertFree_cases (hvp : vp ∉ free ++ live) (hdesc : IsDesc vp) :
    s.rbtInsert s.freeRbt vp = .ok (.exist, s.freeRbt) ∨ ∃ t' mx' xs ys, s.rbtInsert s.freeRbt vp = .ok (.ok, t') ∧
        Rbt.rbtInsertUpdate t'.mem (update s.size t'.mem) (vp + vpageRbtNode) s.mxSize = .ok mx' ∧
        free = xs ++ ys ∧ Trees { s.setFreeRbt t' with mxSize := mx' } (xs ++ vp :: ys) live stale := by
  obtain ⟨T, hT, hrb, hinorder, hsummed⟩ := h.free_tree
  have hfresh : vp + vpageRbtNode ∉ T.inorder := by
    rw [hinorder, mem_rbtNodes]
    exact fun hmem ↦ hvp (mem_append_left _ hmem)
  obtain hnone | ⟨t', fs, hrun, rfl, hT', hframes⟩ := Rbt.insertBy_cases (s.compareAddr (s.addr vp)) hT
    hrb (by simp [vpageRbtNode]) hdesc.node_lt hfresh
  · exact .inl (by simp [rbtInsert, hnone])
  · obtain ⟨mx', hupdate, hsummed'⟩ :=
      Rbt.insertUpdate_summed (updates_update stale s.size t'.mem) hT' hsummed.of_plug.2
    obtain ⟨hrb', hbefore, hafter⟩ := Rbt.insertShape_spec (vp + vpageRbtNode) hrb
    obtain ⟨xs, ys, hsplit, hnodes⟩ := rbtNodes_split (hbefore.symm.trans hinorder)
    refine .inr ⟨t', mx', xs, ys, ?_, hupdate, hsplit, h.insertFree hvp hdesc hsplit hT' hrb'
      (hafter.trans hnodes) hsummed' (hinorder ▸ hframes)⟩
    simp [rbtInsert, hrun]

theorem vmInsertAlloced_trees (hsorted : Sorted s.addr live) (hvp : vp ∉ free ++ live) (hdesc : IsDesc vp)
    (hne : ∀ p ∈ live, s.addr p ≠ s.addr vp) : ∃ s' xs ys, s.vmInsertAlloced vp = .ok (.ok, s') ∧ live = xs ++ ys ∧
      Trees s' free (xs ++ vp :: ys) stale ∧ SameExtents s s' ∧ Sorted s.addr (xs ++ vp :: ys) := by
  obtain ⟨T, hT, hrb, hinorder⟩ := h.live_tree
  have hlive : ∀ p ∈ live, IsDesc p := fun p hp ↦ h.desc p (mem_append_right _ hp)
  have hguides := guides_compareAddr hlive hsorted (s.addr vp)
  have hneq := compareAddr_ne_eq hlive hne
  have hfresh : vp + vpageRbtNode ∉ rbtNodes live := by
    rw [mem_rbtNodes]
    exact fun hmem ↦ hvp (mem_append_right _ hmem)
  rw [← hinorder] at hguides hneq hfresh
  obtain ⟨t', T', nxs, nys, hrun, hT', hrb', hsplit, hinorder', hgt, hlt, hframes⟩ :=
    Rbt.insertBy_holds hT hrb hguides hneq (by simp [vpageRbtNode]) hdesc.node_lt hfresh
  obtain ⟨xs, ys, rfl, rfl, rfl, hbefore, hafter⟩ :=
    exists_split hlive (hinorder.symm.trans hsplit) hgt hlt
  refine ⟨s.setAllocedRbt t', xs, ys, ?_, rfl, h.insertLive hvp hdesc rfl hT' hrb' ?_
    (hinorder ▸ hframes), ⟨rfl, rfl, rfl⟩, Rbt.pairwise_insert hsorted hbefore hafter⟩
  · simp [vmInsertAlloced, rbtInsert, hrun]
  · rw [hinorder']
    simp [rbtNodes]

theorem vmInsertAlloced_cases (hvp : vp ∉ free ++ live) (hdesc : IsDesc vp) :
    s.vmInsertAlloced vp = .ok (.exist, s) ∨ ∃ s' xs ys, s.vmInsertAlloced vp = .ok (.ok, s') ∧ live = xs ++ ys ∧
        Trees s' free (xs ++ vp :: ys) stale ∧ SameExtents s s' := by
  obtain ⟨T, hT, hrb, hinorder⟩ := h.live_tree
  have hfresh : vp + vpageRbtNode ∉ T.inorder := by
    rw [hinorder, mem_rbtNodes]
    exact fun hmem ↦ hvp (mem_append_right _ hmem)
  obtain hnone | ⟨t', fs, hrun, rfl, hT', hframes⟩ := Rbt.insertBy_cases (s.compareAddr (s.addr vp)) hT
    hrb (by simp [vpageRbtNode]) hdesc.node_lt hfresh
  · have hinsert : s.rbtInsert s.allocedRbt vp = .ok (.exist, s.allocedRbt) := by simp [rbtInsert, hnone]
    exact .inl (by rw [vmInsertAlloced, hinsert]; rfl)
  · obtain ⟨hrb', hbefore, hafter⟩ := Rbt.insertShape_spec (vp + vpageRbtNode) hrb
    obtain ⟨xs, ys, hsplit, hnodes⟩ := rbtNodes_split (hbefore.symm.trans hinorder)
    refine .inr ⟨s.setAllocedRbt t', xs, ys, ?_, hsplit, h.insertLive hvp hdesc hsplit hT' hrb'
      (hafter.trans hnodes) (hinorder ▸ hframes), rfl, rfl, rfl⟩
    simp [vmInsertAlloced, rbtInsert, hrun]

theorem deleteAlloced_trees (hvp : vp ∈ live) : ∃ t', s.allocedRbt.rbtDelete (vp + vpageRbtNode) = .ok t' ∧
      Trees (s.setAllocedRbt t') free (live.erase vp) stale := by
  obtain ⟨T, hT, hrb, hinorder⟩ := h.live_tree
  have hmem : vp + vpageRbtNode ∈ T.inorder := by rwa [hinorder, mem_rbtNodes]
  obtain ⟨t', T', hrun, hT', hrb', hinorder', hframes⟩ := Rbt.rbtDelete_holds hT hrb hmem
  refine ⟨t', hrun, h.keep_free (hinorder ▸ hframes) fun p hp hmem ↦ h.not_mem_live hmem hp,
    ⟨T', hT', hrb', ?_⟩, fun p hp ↦ ?_, ?_⟩
  · rw [hinorder', hinorder, rbtNodes_erase]
  · grind [h.desc]
  · exact h.nodup.sublist (List.erase_sublist.append_left free)

end

/-! ### Extents -/

theorem Trees.setExtent (h : Trees s free live 0) (addr size : ℕ) :
    Trees (s.setExtent vp addr size) free live (vp + vpageRbtNode) := by
  obtain ⟨T, hT, hrb, hinorder, hsummed⟩ := h.free_tree
  refine ⟨⟨T, hT, hrb, hinorder, hsummed.imp_of_mem fun a ha l r _ _ hright ↦ ?_⟩, h.live_tree, h.desc, h.nodup⟩
  obtain ⟨p, hp, rfl⟩ := List.mem_map.mp (hinorder ▸ ha)
  have hdesc := h.desc p (mem_append_left _ hp)
  by_cases hpv : p = vp
  · exact Or.inl (by rw [hpv])
  · refine hright.imp (fun h0 ↦ absurd h0 (by simp [vpageRbtNode])) fun hright ↦ ?_
    simpa [VpageAlct.setExtent, vpageOf_add hdesc, hpv] using hright

theorem Trees.setExtent_of_not_free (h : Trees s free live stale) (hvp : vp ∉ free) (addr size : ℕ) :
    Trees (s.setExtent vp addr size) free live stale := by
  obtain ⟨T, hT, hrb, hinorder, hsummed⟩ := h.free_tree
  refine ⟨⟨T, hT, hrb, hinorder, hsummed.imp_of_mem fun a ha l r _ _ hright ↦ ?_⟩, h.live_tree, h.desc, h.nodup⟩
  obtain ⟨p, hp, rfl⟩ := List.mem_map.mp (hinorder ▸ ha)
  have hdesc := h.desc p (mem_append_left _ hp)
  have hpv : p ≠ vp := fun heq ↦ hvp (heq ▸ hp)
  refine hright.imp_right fun hright ↦ ?_
  simpa [VpageAlct.setExtent, vpageOf_add hdesc, hpv] using hright

theorem rbtUpdate_trees (h : Trees s free live (vp + vpageRbtNode)) (hvp : vp ∈ free) :
    ∃ s', s.rbtUpdate (vp + vpageRbtNode) = .ok s' ∧ Trees s' free live 0 ∧ SameExtents s s' := by
  obtain ⟨T, hT, hrb, hinorder, hsummed⟩ := h.free_tree
  have hmem : vp + vpageRbtNode ∈ T.inorder := by rwa [hinorder, mem_rbtNodes]
  have hrepair : Repairable (MxBut 0 s.size s.mxSize) (vp + vpageRbtNode) T :=
    repairable_of_forall_ne hsummed hmem hT.nodup fun a _ hne l r hright ↦
      Or.inr (hright.resolve_left hne)
  obtain ⟨mx', hrun, hsummed'⟩ :=
    Rbt.rbtUpdate_summed (updates_update 0 s.size s.freeRbt.mem) hT hrepair
  refine ⟨{ s with mxSize := mx' }, ?_, ⟨⟨T, hT, hrb, hinorder, hsummed'⟩, h.live_tree, h.desc,
    h.nodup⟩, rfl, rfl, rfl⟩
  have hrun' : Rbt.rbtUpdate s.tree (update s.size s.tree) (vp + vpageRbtNode) s.mxSize = .ok mx' :=
    hrun
  simp [rbtUpdate, hrun']

/-! ### Merging -/

theorem Trees.next_eq (h : Trees s (xs ++ p :: ys) live stale) :
    Rbt.rbtNext s.tree (p + vpageRbtNode) = .ok ((rbtNodes ys).headD 0) := by
  obtain ⟨T, hT, -, hinorder, -⟩ := h.free_tree
  exact Rbt.rbtNext_eq hT (hinorder.trans (by simp [rbtNodes]; rfl))

theorem Trees.prev_eq (h : Trees s (xs ++ p :: ys) live stale) :
    Rbt.rbtPrev s.tree (p + vpageRbtNode) = .ok ((rbtNodes xs).reverse.headD 0) := by
  obtain ⟨T, hT, -, hinorder, -⟩ := h.free_tree
  exact Rbt.rbtPrev_eq hT (hinorder.trans (by simp [rbtNodes]; rfl))

theorem Trees.length_lt (h : Trees s free live stale) : free.length < addressSpace := by
  obtain ⟨T, hT, -, hinorder, -⟩ := h.free_tree
  grind [hT.size_lt, Tree.length_inorder, rbtNodes]

theorem join_trees (h : Trees s free live 0) (hnow : now ∈ free) (htmp : tmp ∈ free) (hne : now ≠ tmp) (a n : ℕ) :
    ∃ s₁ s₂, (s.setExtent now a n).vmDeleteFree tmp = .ok s₁ ∧
      s₁.rbtUpdate (now + vpageRbtNode) = .ok s₂ ∧ Trees s₂ (free.erase tmp) live 0 ∧
      SameExtents (s.setExtent now a n) s₂ := by
  have hnow' : now ∈ free.erase tmp := by rwa [(List.nodup_append.mp h.nodup).1.mem_erase_iff, and_iff_right hne]
  have htrees : Trees (s.setExtent now a n) free live (now + vpageRbtNode) := h.setExtent a n
  obtain ⟨s₁, hrun₁, htrees₁, hsame₁⟩ := vmDeleteFree_trees htrees htmp
  obtain ⟨s₂, hrun₂, htrees₂, hsame₂⟩ := rbtUpdate_trees htrees₁ hnow'
  exact ⟨s₁, s₂, hrun₁, hrun₂, htrees₂, hsame₁.trans hsame₂⟩

theorem erase_behind (h : (xs ++ now :: tmp :: ys).Nodup) :
    now ≠ tmp ∧ (xs ++ now :: tmp :: ys).erase tmp = xs ++ now :: ys := by grind

theorem erase_before (h : (xs ++ [tmp] ++ now :: ys).Nodup) :
    now ≠ tmp ∧ (xs ++ [tmp] ++ now :: ys).erase tmp = xs ++ now :: ys := by grind

/-- The rule for the first loop of `vm_merge`: what taking over the next region keeps, the loop keeps.
The loop stops before a region that does not follow immediately, and tells whether there is one. -/
theorem mergeNext_rule {P : VpageAlct → List ℕ → Prop}
    (htrees : ∀ s ys, P s ys → ∃ xs live, Trees s (xs ++ now :: ys) live 0)
    (hjoin : ∀ s tmp ys, P s (tmp :: ys) → wordAdd (s.addr now) (s.size now) = s.addr tmp →
      ∃ s₁ s₂, (s.setExtent now (s.addr now) (wordAdd (s.size now) (s.size tmp))).vmDeleteFree tmp =
          .ok s₁ ∧ s₁.rbtUpdate (now + vpageRbtNode) = .ok s₂ ∧ P s₂ ys) {fuel : ℕ} (h : P s ys)
    (hfuel : ys.length < fuel) :
    ∃ s' ys', mergeNext (now + vpageRbtNode) fuel s = .ok (s', !ys'.isEmpty) ∧ P s' ys' ∧ ys' ⊆ ys ∧
      ∀ q ∈ ys'.head?, wordAdd (s'.addr now) (s'.size now) ≠ s'.addr q := by
  induction ys generalizing s fuel with
  | nil =>
    obtain ⟨fuel, rfl⟩ := exists_succ hfuel
    obtain ⟨xs, live, ht⟩ := htrees s [] h
    refine ⟨s, [], ?_, h, List.Subset.refl _, by simp⟩
    simp [mergeNext, ht.next_eq, rbtNodes]
  | cons tmp ys ih =>
    obtain ⟨fuel, rfl⟩ := exists_succ hfuel
    obtain ⟨xs, live, ht⟩ := htrees s (tmp :: ys) h
    have hvp_now := vpageOf_add (ht.desc now (by simp))
    have hvp_tmp := vpageOf_add (ht.desc tmp (by simp))
    have hnext : Rbt.rbtNext s.tree (now + vpageRbtNode) = .ok (tmp + vpageRbtNode) := ht.next_eq
    have hne0 : vpageRbtNode ≠ 0 := by decide
    by_cases hadjacent : wordAdd (s.addr now) (s.size now) = s.addr tmp
    · obtain ⟨s₁, s₂, hrun₁, hrun₂, h₂⟩ := hjoin s tmp ys h hadjacent
      obtain ⟨s', ys', hrun', h', hsub, hstop⟩ := ih h₂ (show ys.length < fuel by simpa using hfuel)
      refine ⟨s', ys', ?_, h', subset_cons_of_subset _ hsub, hstop⟩
      simp [mergeNext, hnext, hne0, hvp_now, hvp_tmp, hadjacent, hrun₁, hrun₂, hrun']
    · refine ⟨s, tmp :: ys, ?_, h, List.Subset.refl _, by simpa using hadjacent⟩
      simp [mergeNext, hnext, hne0, hvp_now, hvp_tmp, hadjacent]

theorem mergePrev_rule {P : VpageAlct → List ℕ → Prop}
    (htrees : ∀ s xs, P s xs → ∃ ys live, Trees s (xs ++ now :: ys) live 0)
    (hjoin : ∀ s tmp xs, P s (xs ++ [tmp]) → wordAdd (s.addr tmp) (s.size tmp) = s.addr now →
      ∃ s₁ s₂, (s.setExtent now (s.addr tmp) (wordAdd (s.size now) (s.size tmp))).vmDeleteFree tmp =
          .ok s₁ ∧ s₁.rbtUpdate (now + vpageRbtNode) = .ok s₂ ∧ P s₂ xs) {fuel : ℕ} (h : P s xs)
    (hfuel : xs.length < fuel) : ∃ s' xs', mergePrev (now + vpageRbtNode) fuel s = .ok s' ∧ P s' xs' ∧ xs' ⊆ xs ∧
      ∀ q ∈ xs'.getLast?, wordAdd (s'.addr q) (s'.size q) ≠ s'.addr now := by
  induction xs using List.reverseRecOn generalizing s fuel with
  | nil =>
    obtain ⟨fuel, rfl⟩ := exists_succ hfuel
    obtain ⟨ys, live, ht⟩ := htrees s [] h
    refine ⟨s, [], ?_, h, List.Subset.refl _, by simp⟩
    simp [mergePrev, ht.prev_eq, rbtNodes]
  | append_singleton xs tmp ih =>
    obtain ⟨fuel, rfl⟩ := exists_succ hfuel
    obtain ⟨ys, live, ht⟩ := htrees s (xs ++ [tmp]) h
    have hvp_now := vpageOf_add (ht.desc now (by simp))
    have hvp_tmp := vpageOf_add (ht.desc tmp (by simp))
    have hprev : Rbt.rbtPrev s.tree (now + vpageRbtNode) = .ok (tmp + vpageRbtNode) := by
      simpa [rbtNodes] using ht.prev_eq
    have hne0 : vpageRbtNode ≠ 0 := by decide
    by_cases hadjacent : wordAdd (s.addr tmp) (s.size tmp) = s.addr now
    · obtain ⟨s₁, s₂, hrun₁, hrun₂, h₂⟩ := hjoin s tmp xs h hadjacent
      obtain ⟨s', xs', hrun', h', hsub, hstop⟩ := ih h₂ (show xs.length < fuel by simpa using hfuel)
      refine ⟨s', xs', ?_, h', subset_append_of_subset_left _ hsub, hstop⟩
      simp [mergePrev, hprev, hne0, hvp_now, hvp_tmp, hadjacent, hrun₁, hrun₂, hrun']
    · refine ⟨s, xs ++ [tmp], ?_, h, List.Subset.refl _, by simpa using hadjacent⟩
      simp [mergePrev, hprev, hne0, hvp_now, hvp_tmp, hadjacent]

/-- Merging: what both loops keep, `vm_merge` keeps. -/
theorem vmMerge_rule {P : VpageAlct → List ℕ → List ℕ → Prop} {ys : List ℕ}
    (htrees : ∀ s xs ys, P s xs ys → ∃ live, Trees s (xs ++ now :: ys) live 0)
    (hnext : ∀ s tmp xs ys, P s xs (tmp :: ys) → wordAdd (s.addr now) (s.size now) = s.addr tmp →
      ∃ s₁ s₂, (s.setExtent now (s.addr now) (wordAdd (s.size now) (s.size tmp))).vmDeleteFree tmp = .ok s₁ ∧
        s₁.rbtUpdate (now + vpageRbtNode) = .ok s₂ ∧ P s₂ xs ys)
    (hprev : ∀ s tmp xs ys, P s (xs ++ [tmp]) ys → wordAdd (s.addr tmp) (s.size tmp) = s.addr now →
      ∃ s₁ s₂, (s.setExtent now (s.addr tmp) (wordAdd (s.size now) (s.size tmp))).vmDeleteFree tmp = .ok s₁ ∧
        s₁.rbtUpdate (now + vpageRbtNode) = .ok s₂ ∧ P s₂ xs ys) (h : P s xs ys) :
    ∃ s' xs' ys', s.vmMerge now = .ok s' ∧ P s' xs' ys' ∧ xs' ++ now :: ys' ⊆ xs ++ now :: ys := by
  obtain ⟨live, htrees₀⟩ := htrees s xs ys h
  have hlength := htrees₀.length_lt
  rw [List.length_append, List.length_cons] at hlength
  obtain ⟨s₁, ys', hrun₁, h₁, hsub₁, -⟩ := mergeNext_rule (P := fun s ys ↦ P s xs ys)
    (fun s ys h ↦ ⟨xs, htrees s xs ys h⟩) (fun s tmp ys ↦ hnext s tmp xs ys) h
      (show ys.length < addressSpace by omega)
  cases hys : ys'.isEmpty with
  | false => exact ⟨s₁, xs, ys', by simp [vmMerge, hrun₁, hys], h₁, by grind⟩
  | true =>
    obtain ⟨s', xs', hrun', h', hsub', -⟩ := mergePrev_rule (P := fun s xs ↦ P s xs ys')
      (fun s xs h ↦ ⟨ys', htrees s xs ys' h⟩) (fun s tmp xs ↦ hprev s tmp xs ys') h₁
      (show xs.length < addressSpace by omega)
    exact ⟨s', xs', ys', by simp [vmMerge, hrun₁, hys, hrun'], h', by grind⟩

/-! ### Taking from a free region -/

theorem take_trees (h : Trees s free live 0) (hvp : vp ∉ free) {res : ℕ} (hres : res ∈ free) (n : ℕ) :
    ∃ s', (if (s.setExtent vp (s.addr res) n).size res = n
        then (s.setExtent vp (s.addr res) n).vmDeleteFree res
        else (s.setExtent vp (s.addr res) n).takeLow res n) = .ok s' ∧
      (s.size res = n ∧ Trees s' (free.erase res) live 0 ∧ SameExtents (s.setExtent vp (s.addr res) n) s' ∨
        s.size res ≠ n ∧ Trees s' free live 0 ∧ SameExtents ((s.setExtent vp (s.addr res) n).setExtent res
          (wordAdd (s.addr res) n) (s.size res - n)) s') := by
  have hne : res ≠ vp := fun heq ↦ hvp (heq ▸ hres)
  have hsize : (s.setExtent vp (s.addr res) n).size res = s.size res := by simp [setExtent, hne]
  have haddr : (s.setExtent vp (s.addr res) n).addr res = s.addr res := by simp [setExtent, hne]
  have htrees := h.setExtent_of_not_free hvp (s.addr res) n
  rw [hsize]
  split_ifs with hexact
  · grind [vmDeleteFree_trees]
  · obtain ⟨s', hrun, htrees', hsame⟩ :=
      rbtUpdate_trees (htrees.setExtent (wordAdd (s.addr res) n) (s.size res - n)) hres
    refine ⟨s', ?_, .inr ⟨hexact, htrees', hsame⟩⟩
    rw [takeLow, hsize, haddr, hrun]

end Lemmas

end VpageAlct

end Lanthorn
