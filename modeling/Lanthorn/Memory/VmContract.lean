import Lanthorn.Library.Run
import Lanthorn.Memory.VmTrees

/-!
# The calls of the region allocator

`Valid s free live covered` is the state of the allocator between two calls. The trees hold the free and the live
regions in the order of their starts, and the regions partition the addresses `covered`. Each call of `vm.c` has a
theorem that it ends and leaves the allocator valid: `vmInsert_valid`, `vmAlloc_valid`, `vmFree_valid` and
`vmSlice_valid`, and `vmSearchAddr_spec` says what `vm_search_addr` finds.

The keys of linked nodes change in place in two calls. `vm_alloc` moves the start of a free region up, but not past
its own end (`take_valid`), and `vm_merge` moves it down to the start of the region in front, which it then deletes
(`join_valid`).
-/

namespace Lanthorn

open Library List

namespace VpageAlct

/-- The state of the allocator between two calls: the free and the live regions in the order of
their starts, and the addresses they cover. -/
structure Valid (s : VpageAlct) (free live : List ℕ) (covered : ℕ → Prop) : Prop where
  trees : Trees s free live 0
  free_sorted : Sorted s.addr free
  live_sorted : Sorted s.addr live
  regions : Regions pageSize addressSpace s.addr s.size (free ++ live) covered

/-- A call that may change the extents of `vps` only. -/
structure SameBut (s s' : VpageAlct) (vps : List ℕ) : Prop where
  addr : ∀ p, p ∉ vps → s'.addr p = s.addr p
  size : ∀ p, p ∉ vps → s'.size p = s.size p
  type : s'.type = s.type

theorem SameBut.refl (s : VpageAlct) (vps : List ℕ) : SameBut s s vps :=
  ⟨fun _ _ ↦ rfl, fun _ _ ↦ rfl, rfl⟩

theorem SameBut.trans {s s' s'' : VpageAlct} {vps : List ℕ} (h : SameBut s s' vps)
    (h' : SameBut s' s'' vps) : SameBut s s'' vps :=
  ⟨fun p hp ↦ (h'.addr p hp).trans (h.addr p hp), fun p hp ↦ (h'.size p hp).trans (h.size p hp),
    h'.type.trans h.type⟩

section Calls

variable {s : VpageAlct} {free live : List ℕ} {covered : ℕ → Prop} {vp : ℕ}

theorem Sorted.congr {addr addr' : ℕ → ℕ} {vps : List ℕ} (h : Sorted addr vps)
    (hagree : ∀ p ∈ vps, addr' p = addr p) : Sorted addr' vps :=
  h.imp_of_mem fun {p q} hp hq hlt ↦ by rwa [hagree p hp, hagree q hq]

/-! ### Merging -/

variable {addr now tmp fuel size vpo bound : ℕ} {xs ys : List ℕ}

theorem join_valid (h : Valid s free live covered) {a : ℕ} (hnow : now ∈ free) (htmp : tmp ∈ free)
    (hne : now ≠ tmp) (hadjacent : a = s.addr now ∧ s.addr now + s.size now = s.addr tmp ∨
      a = s.addr tmp ∧ s.addr tmp + s.size tmp = s.addr now) :
    ∃ s₁ s₂, (s.setExtent now a (wordAdd (s.size now) (s.size tmp))).vmDeleteFree tmp = .ok s₁ ∧
      s₁.rbtUpdate (now + vpageRbtNode) = .ok s₂ ∧ Valid s₂ (free.erase tmp) live covered ∧
      SameBut s s₂ [now] ∧ s₂.addr now = a ∧ s₂.size now = s.size now + s.size tmp := by
  obtain ⟨htrees, hfree, hlive, hregions⟩ := h
  obtain ⟨s₁, s₂, hrun₁, hrun₂, htrees₂, hsame⟩ :=
    join_trees htrees hnow htmp hne a (wordAdd (s.size now) (s.size tmp))
  have haddr₂ : s₂.addr = Function.update s.addr now a := hsame.addr
  have hsize₂ : s₂.size = Function.update s.size now (wordAdd (s.size now) (s.size tmp)) := hsame.size
  have hmem_now : now ∈ free ++ live := mem_append_left _ hnow
  have hmem_tmp : tmp ∈ free ++ live := mem_append_left _ htmp
  have hbound_now := hregions.bound now hmem_now
  have hbound_tmp := hregions.bound tmp hmem_tmp
  have hpos_now := hregions.pos now hmem_now
  have hpos_tmp := hregions.pos tmp hmem_tmp
  have hword : wordAdd (s.size now) (s.size tmp) = s.size now + s.size tmp :=
    wordAdd_of_lt (by omega)
  have hsub : ∀ p ∈ free.erase tmp, p ∈ free ++ live := fun p hp ↦
    mem_append_left _ (mem_of_mem_erase hp)
  refine ⟨s₁, s₂, hrun₁, hrun₂, ⟨htrees₂, ?_, ?_, ?_⟩, ⟨fun p hp ↦ ?_, fun p hp ↦ ?_, hsame.type⟩,
    by simp [haddr₂], by simp [hsize₂, hword]⟩
  · refine (hfree.sublist erase_sublist).imp_of_mem fun {p q} hp hq hlt ↦ ?_
    have hp' := (List.nodup_append.mp htrees.nodup).1.mem_erase_iff.mp hp
    rw [haddr₂]
    by_cases hpn : p = now
    · -- the region may start earlier than before
      grind
    by_cases hqn : q = now
    · subst hqn
      simp only [Function.update_self, Function.update_of_ne hpn]
      have hapart := hregions.apart.forall (hsub p hp) hmem_tmp hp'.1
      have hpos := hregions.pos p (hsub p hp)
      unfold Apart at hapart
      omega
    · simpa only [Function.update_of_ne hpn, Function.update_of_ne hqn] using hlt
  · refine hlive.congr fun p hp ↦ ?_
    have hpn : p ≠ now := fun heq ↦ htrees.not_mem_live (heq ▸ hp) hnow
    rw [haddr₂, Function.update_of_ne hpn]
  · rw [haddr₂, hsize₂, hword, ← erase_append_left _ htmp]
    exact hregions.join hmem_now hmem_tmp hne hadjacent
  · rw [haddr₂, Function.update_of_ne (by simpa using hp)]
  · rw [hsize₂, Function.update_of_ne (by simpa using hp)]

theorem joinNext_valid (h : Valid s (xs ++ now :: tmp :: ys) live covered)
    (hadjacent : wordAdd (s.addr now) (s.size now) = s.addr tmp) :
    ∃ s₁ s₂, (s.setExtent now (s.addr now) (wordAdd (s.size now) (s.size tmp))).vmDeleteFree tmp =
        .ok s₁ ∧ s₁.rbtUpdate (now + vpageRbtNode) = .ok s₂ ∧ Valid s₂ (xs ++ now :: ys) live covered ∧
      SameBut s s₂ [now] ∧ s₂.addr now = s.addr now ∧ s₂.size now = s.size now + s.size tmp := by
  obtain ⟨hne, herase⟩ := erase_behind (List.nodup_append.mp h.trees.nodup).1
  rw [wordAdd_of_lt (h.regions.bound now (by simp))] at hadjacent
  have hjoin := join_valid h (by simp) (by simp) hne (Or.inl ⟨rfl, hadjacent⟩)
  rwa [herase] at hjoin

theorem joinPrev_valid (h : Valid s (xs ++ [tmp] ++ now :: ys) live covered)
    (hadjacent : wordAdd (s.addr tmp) (s.size tmp) = s.addr now) :
    ∃ s₁ s₂, (s.setExtent now (s.addr tmp) (wordAdd (s.size now) (s.size tmp))).vmDeleteFree tmp =
        .ok s₁ ∧ s₁.rbtUpdate (now + vpageRbtNode) = .ok s₂ ∧ Valid s₂ (xs ++ now :: ys) live covered ∧
      SameBut s s₂ [now] ∧ s₂.addr now = s.addr tmp ∧ s₂.size now = s.size now + s.size tmp := by
  obtain ⟨hne, herase⟩ := erase_before (List.nodup_append.mp h.trees.nodup).1
  rw [wordAdd_of_lt (h.regions.bound tmp (by simp))] at hadjacent
  have hjoin := join_valid h (by simp) (by simp) hne (Or.inr ⟨rfl, hadjacent⟩)
  rwa [herase] at hjoin

theorem vmMerge_valid (h : Valid s free live covered) (hvp : vp ∈ free) :
    ∃ s' free', s.vmMerge vp = .ok s' ∧ Valid s' free' live covered ∧ free' ⊆ free ∧
      SameBut s s' [vp] := by
  obtain ⟨xs, ys, rfl⟩ := append_of_mem hvp
  obtain ⟨s', xs', ys', hrun, ⟨h', hsame⟩, hsub⟩ := vmMerge_rule
    (P := fun s' xs ys ↦ Valid s' (xs ++ vp :: ys) live covered ∧ SameBut s s' [vp])
    (fun _ _ _ h ↦ ⟨live, h.1.trees⟩) (fun s' tmp xs ys h hadjacent ↦ by
      obtain ⟨s₁, s₂, hrun₁, hrun₂, h₂, hsame₂, -⟩ := joinNext_valid h.1 hadjacent
      exact ⟨s₁, s₂, hrun₁, hrun₂, h₂, h.2.trans hsame₂⟩) (fun s' tmp xs ys h hadjacent ↦ by
      obtain ⟨s₁, s₂, hrun₁, hrun₂, h₂, hsame₂, -⟩ := joinPrev_valid h.1 hadjacent
      exact ⟨s₁, s₂, hrun₁, hrun₂, h₂, h.2.trans hsame₂⟩) ⟨h, .refl s _⟩
  exact ⟨s', _, hrun, h', hsub, hsame⟩

/-! ### `vm_insert` and `vm_free` -/

theorem vmInsertFree_links (htrees : Trees s free live 0) (hfree : Sorted s.addr free)
    (hlive : Sorted s.addr live) (hvp : vp ∉ free ++ live) (hdesc : IsDesc vp)
    (hregions : Regions pageSize addressSpace s.addr s.size (vp :: (free ++ live)) covered) :
    ∃ s₁ xs ys, s.vmInsertFree vp = (s₁.vmMerge vp).map (.ok, ·) ∧ free = xs ++ ys ∧
      Valid s₁ (xs ++ vp :: ys) live covered ∧ SameExtents s s₁ := by
  have hne : ∀ p ∈ free, s.addr p ≠ s.addr vp := by grind [hregions.start_ne]
  obtain ⟨t', mx', xs, ys, hinsert, hupdate, rfl, htrees₁, hsorted₁⟩ :=
    insertFree_trees htrees hfree hvp hdesc hne
  have hperm : (vp :: (xs ++ ys ++ live)).Perm (xs ++ vp :: ys ++ live) := by simpa using List.perm_middle.symm
  refine ⟨{ s.setFreeRbt t' with mxSize := mx' }, xs, ys, ?_, rfl,
    ⟨htrees₁, hsorted₁, hlive, hregions.perm hperm⟩, rfl, rfl, rfl⟩
  simp [vmInsertFree, hinsert, setFreeRbt, hupdate]
  rfl

section

variable (h : Valid s free live covered) (hvp : vp ∉ free ++ live) (hdesc : IsDesc vp)
  (haddr : addr % pageSize = 0) (hsize : size % pageSize = 0) (hpos : 0 < size)
  (hbound : addr + size < addressSpace) (hnew : ∀ x, addr ≤ x → x < addr + size → ¬ covered x)
include h hvp hdesc haddr hsize hpos hbound hnew

theorem vmInsert_links :
    ∃ s₁ xs ys, s.vmInsert (.ok vp) addr size = (s₁.vmMerge vp).map (.ok, ·) ∧ free = xs ++ ys ∧
      Valid s₁ (xs ++ vp :: ys) live (fun x ↦ covered x ∨ addr ≤ x ∧ x < addr + size) ∧
      SameExtents (s.setExtent vp addr size) s₁ := by
  obtain ⟨htrees, hfree, hlive, hregions⟩ := h
  have hne : ∀ p ∈ free ++ live, p ≠ vp := fun p hp heq ↦ hvp (heq ▸ hp)
  have hregions₁ : Regions pageSize addressSpace (s.setExtent vp addr size).addr
      (s.setExtent vp addr size).size (free ++ live) covered :=
    hregions.congr fun p hp ↦ by simp [setExtent, hne p hp]
  have hin : ∀ x, InRegion (s.setExtent vp addr size).addr (s.setExtent vp addr size).size vp x ↔
      addr ≤ x ∧ x < addr + size := by simp [InRegion, setExtent]
  have hregions₂ := hregions₁.add (p := vp) (by simpa [setExtent] using haddr)
    (by simpa [setExtent] using hsize) (by simpa [setExtent] using hpos)
    (by simpa [setExtent] using hbound) fun x hx ↦ hnew x ((hin x).mp hx).1 ((hin x).mp hx).2
  simp only [hin] at hregions₂
  have hfree' : vp ∉ free := fun hmem ↦ hvp (mem_append_left _ hmem)
  obtain ⟨s₁, xs, ys, hrun, hsplit, hvalid₁, hsame⟩ :=
    vmInsertFree_links (htrees.setExtent_of_not_free hfree' addr size)
      (hfree.congr fun p hp ↦ by simp [setExtent, hne p (mem_append_left _ hp)])
      (hlive.congr fun p hp ↦ by simp [setExtent, hne p (mem_append_right _ hp)])
      hvp hdesc hregions₂
  refine ⟨s₁, xs, ys, ?_, hsplit, hvalid₁, hsame⟩
  simp [vmInsert, haddr, hsize, vpageNew, hrun]

theorem vmInsert_valid : ∃ s' free', s.vmInsert (.ok vp) addr size = .ok (.ok, s') ∧
      Valid s' free' live (fun x ↦ covered x ∨ addr ≤ x ∧ x < addr + size) ∧
      free' ⊆ vp :: free ∧ SameBut s s' [vp] := by
  obtain ⟨s₁, xs, ys, hrun, rfl, hvalid₁, hsame₁⟩ :=
    vmInsert_links h hvp hdesc haddr hsize hpos hbound hnew
  obtain ⟨s', free', hmerge, hvalid', hsub, hsame⟩ :=
    vmMerge_valid hvalid₁ (show vp ∈ xs ++ vp :: ys by simp)
  refine ⟨s', free', by rw [hrun, hmerge]; rfl, hvalid', by grind, fun p hp ↦ ?_, fun p hp ↦ ?_,
    hsame.type.trans hsame₁.type⟩
  · rw [hsame.addr p hp, hsame₁.addr]
    simp [setExtent, show p ≠ vp by simpa using hp]
  · rw [hsame.size p hp, hsame₁.size]
    simp [setExtent, show p ≠ vp by simpa using hp]

end

theorem vmFree_links (h : Valid s free live covered) (hvp : vp ∈ live) :
    ∃ s₁ xs ys, s.vmFree vp = (s₁.vmMerge vp).map (.ok, ·) ∧ free = xs ++ ys ∧
      Valid s₁ (xs ++ vp :: ys) (live.erase vp) covered ∧ SameExtents s s₁ := by
  obtain ⟨htrees, hfree, hlive, hregions⟩ := h
  obtain ⟨t', hdelete, htrees₁⟩ := deleteAlloced_trees htrees hvp
  have hnodup := (List.nodup_append.mp htrees.nodup).2.1
  have hvp₁ : vp ∉ free ++ live.erase vp := by simp [htrees.not_mem_live hvp, hnodup.mem_erase_iff]
  have hperm : (free ++ live).Perm (vp :: (free ++ live.erase vp)) :=
    ((perm_cons_erase hvp).append_left free).trans perm_middle
  obtain ⟨s₁, xs, ys, hrun, hsplit, hvalid₁, hsame⟩ :=
    vmInsertFree_links htrees₁ hfree (hlive.sublist erase_sublist) hvp₁
      (htrees.desc vp (mem_append_right _ hvp)) (hregions.perm hperm)
  refine ⟨s₁, xs, ys, ?_, hsplit, hvalid₁, hsame.addr, hsame.size, hsame.type⟩
  simp [vmFree, hdelete, hrun]

theorem vmFree_valid (h : Valid s free live covered) (hvp : vp ∈ live) :
    ∃ s' free', s.vmFree vp = .ok (.ok, s') ∧ Valid s' free' (live.erase vp) covered ∧ SameBut s s' [vp] := by
  obtain ⟨s₁, xs, ys, hrun, rfl, hvalid₁, hsame₁⟩ := vmFree_links h hvp
  obtain ⟨s', free', hmerge, hvalid', -, hsame⟩ :=
    vmMerge_valid hvalid₁ (show vp ∈ xs ++ vp :: ys by simp)
  refine ⟨s', free', by rw [hrun, hmerge]; rfl, hvalid', fun p hp ↦ ?_, fun p hp ↦ ?_,
    hsame.type.trans hsame₁.type⟩
  · rw [hsame.addr p hp, hsame₁.addr]
  · rw [hsame.size p hp, hsame₁.size]

/-! ### `vm_search_addr` -/

theorem compareRegion_node {p : ℕ} (hp : IsDesc p) (hbound : s.addr p + s.size p < addressSpace)
    (a : ℕ) : s.compareRegion a (p + vpageRbtNode) =
      if a < s.addr p then .lt else if s.addr p + s.size p ≤ a then .gt else .eq := by
  rw [compareRegion, vpageOf_add hp, wordAdd_of_lt hbound]

theorem vmSearchAddr_spec (h : Valid s free live covered) (a : ℕ) :
    (∃ p ∈ live, InRegion s.addr s.size p a ∧ s.vmSearchAddr a = .ok (some p)) ∨
      (∀ p ∈ live, ¬ InRegion s.addr s.size p a) ∧ s.vmSearchAddr a = .ok none := by
  obtain ⟨T, hT, -, hinorder⟩ := h.trees.live_tree
  have hmem : ∀ p ∈ live, p ∈ free ++ live := fun p hp ↦ mem_append_right _ hp
  have hcmp : ∀ p ∈ live, s.compareRegion a (p + vpageRbtNode) =
      if a < s.addr p then .lt else if s.addr p + s.size p ≤ a then .gt else .eq := fun p hp ↦
    compareRegion_node (h.trees.desc p (hmem p hp)) (h.regions.bound p (hmem p hp)) a
  have hguides : Rbt.Guides (s.compareRegion a) T.inorder := by
    rw [hinorder, Rbt.Guides, rbtNodes, pairwise_map]
    refine h.live_sorted.imp_of_mem fun {p q} hp hq hlt ↦ ?_
    have hbefore := h.regions.before (hmem p hp) (hmem q hq) hlt
    rw [hcmp p hp, hcmp q hq]
    split_ifs <;> simp <;> omega
  have hrun : s.vmSearchAddr a = (s.allocedRbt.search (s.compareRegion a)).bind fun n ↦
      .ok (if n = 0 then none else some (vpageOf n)) := rfl
  obtain ⟨n, hn, heq, hsearch⟩ | ⟨hnone, hsearch⟩ := Rbt.search_spec hT hguides
  · rw [hinorder] at hn
    obtain ⟨p, hp, rfl⟩ := List.mem_map.mp hn
    grind [vpageRbtNode, InRegion, Except.bind, vpageOf_add, h.trees.desc]
  grind [Except.bind, mem_rbtNodes, InRegion]

/-! ### `vm_alloc` -/

theorem searchChild_cases (s : VpageAlct) (size n : ℕ) : (s.searchChild size n).2 = 0 ∨
    ∃ d, (s.searchChild size n).2 = s.tree.child d n := by grind [searchChild]

theorem searchSizeLoop_node {n : ℕ} (hn : n ≠ 0) : s.searchSizeLoop size (fuel + 1) n =
    if size ≤ s.size (vpageOf n) ∧ s.size (vpageOf n) < (s.searchChild size n).1 then .ok (some (vpageOf n))
    else s.searchSizeLoop size fuel (s.searchChild size n).2 := by
  rw [searchSizeLoop, if_neg hn]
  rfl

theorem searchSizeLoop_spec {u : Tree} {up : ℕ} (h : Represents s.tree up u) (hfuel : u.size < fuel) :
    ∃ res, s.searchSizeLoop size fuel u.root = .ok res ∧
      ∀ vp, res = some vp → ∃ n ∈ u.inorder, vp = vpageOf n ∧ size ≤ s.size vp := by
  induction u generalizing up fuel with
  | nil =>
    obtain ⟨fuel, rfl⟩ := exists_succ hfuel
    exact ⟨none, rfl, by simp⟩
  | node l n c r ihl ihr =>
    obtain ⟨fuel, rfl⟩ := exists_succ hfuel
    obtain ⟨hn, -, -, hleft, hright, hl, hr⟩ := h
    rw [Tree.size_node] at hfuel
    rw [Tree.root_node, searchSizeLoop_node hn]
    split_ifs with hhere
    · exact ⟨_, rfl, fun vp hvp ↦ ⟨n, by simp, by simpa [eq_comm] using hvp,
        by obtain rfl := Option.some.inj hvp; exact hhere.1⟩⟩
    rcases searchChild_cases s size n with hnext | ⟨d, hnext⟩
    · obtain ⟨fuel, rfl⟩ := Nat.exists_eq_add_one_of_ne_zero (show fuel ≠ 0 by omega)
      rw [hnext]
      exact ⟨none, rfl, by simp⟩
    · cases d with
      | left =>
        obtain ⟨res, hres, hmem⟩ := ihl hl (show l.size < fuel by omega)
        rw [hnext, hleft]
        refine ⟨res, hres, fun vp hvp ↦ ?_⟩
        obtain ⟨n', hn', hrest⟩ := hmem vp hvp
        exact ⟨n', by simp [hn'], hrest⟩
      | right =>
        obtain ⟨res, hres, hmem⟩ := ihr hr (show r.size < fuel by omega)
        rw [hnext, hright]
        refine ⟨res, hres, fun vp hvp ↦ ?_⟩
        obtain ⟨n', hn', hrest⟩ := hmem vp hvp
        exact ⟨n', by simp [hn'], hrest⟩

theorem rbtSearchSize_spec {stale : ℕ} (h : Trees s free live stale) (size : ℕ) : s.rbtSearchSize size = .ok none ∨
      ∃ res ∈ free, s.rbtSearchSize size = .ok (some res) ∧ size ≤ s.size res := by
  obtain ⟨T, hT, -, hinorder, -⟩ := h.free_tree
  obtain ⟨res, hrun, hres⟩ : ∃ res, s.searchSizeLoop size addressSpace T.root = .ok res ∧
      ∀ vp, res = some vp → ∃ n ∈ T.inorder, vp = vpageOf n ∧ size ≤ s.size vp :=
    searchSizeLoop_spec hT.rep hT.size_lt
  have hrun' : s.rbtSearchSize size = .ok res := by
    rw [rbtSearchSize, ← hrun]
    exact congrArg _ hT.root_eq
  cases res with
  | none => exact Or.inl hrun'
  | some vp =>
    obtain ⟨n, hn, hvp, hsize⟩ := hres vp rfl
    rw [hinorder] at hn
    obtain ⟨p, hp, rfl⟩ := List.mem_map.mp hn
    grind [vpageOf_add, h.desc]

theorem vmInsertAlloced_valid (htrees : Trees s free live 0) (hfree : Sorted s.addr free)
    (hlive : Sorted s.addr live) (hvp : vp ∉ free ++ live) (hdesc : IsDesc vp)
    (hregions : Regions pageSize addressSpace s.addr s.size (vp :: (free ++ live)) covered) :
    ∃ s' live', s.vmInsertAlloced vp = .ok (.ok, s') ∧ Valid s' free live' covered ∧
      live'.Perm (vp :: live) ∧ SameExtents s s' := by
  have hne : ∀ p ∈ live, s.addr p ≠ s.addr vp := by grind [hregions.start_ne]
  obtain ⟨s', xs, ys, hrun, rfl, htrees', hsame, hsorted⟩ :=
    vmInsertAlloced_trees htrees hlive hvp hdesc hne
  have hperm : (vp :: (free ++ (xs ++ ys))).Perm (free ++ (xs ++ vp :: ys)) :=
    List.perm_middle.symm.trans (List.perm_middle.symm.append_left free)
  refine ⟨s', xs ++ vp :: ys, hrun, ⟨htrees', ?_, ?_, ?_⟩, perm_middle, hsame⟩
  · rwa [hsame.addr]
  · rwa [hsame.addr]
  · rw [hsame.addr, hsame.size]
    exact hregions.perm hperm

/-- `vm_alloc` has taken `n` bytes from the low end of the free region `res` for the region `vp`. -/
structure Takes (s s' : VpageAlct) (free free' : List ℕ) (vp res n : ℕ) : Prop where
  addr : s'.addr vp = s.addr res
  size : s'.size vp = n
  frees : s.size res = n ∧ free' = free.erase res ∨ s.size res ≠ n ∧ free' = free ∧
    s'.addr res = wordAdd (s.addr res) n ∧ s'.size res = s.size res - n
  others : ∀ p, p ≠ vp → p ≠ res → s'.addr p = s.addr p ∧ s'.size p = s.size p
  type : s'.type = s.type

/-- What `vm_alloc` has done before it links the new region. -/
theorem vmAlloc_unlinked (h : Trees s free live 0) (hvp : vp ∉ free ++ live) {res : ℕ} (hres : res ∈ free)
    (hsearch : s.rbtSearchSize (roundUp size pageSize) = .ok (some res)) :
    ∃ s₁ free', Trees s₁ free' live 0 ∧ free' ⊆ free ∧ Takes s s₁ free free' vp res (roundUp size pageSize) ∧
      ∀ err s', s₁.vmInsertAlloced vp = .ok (err, s') → s.vmAlloc (.ok vp) size = .ok (.ok, some vp, s') := by
  have hne : res ≠ vp := fun heq ↦ hvp (heq ▸ mem_append_left _ hres)
  obtain ⟨n, hn⟩ : ∃ n, n = roundUp size pageSize := ⟨_, rfl⟩
  rw [← hn] at hsearch ⊢
  obtain ⟨s₁, hrun₁, hcase⟩ := take_trees h (fun hmem ↦ hvp (mem_append_left _ hmem)) hres n
  have hrun : ∀ err s', s₁.vmInsertAlloced vp = .ok (err, s') →
      s.vmAlloc (.ok vp) size = .ok (.ok, some vp, s') := by
    intro err s' hinsert
    simp only [vmAlloc, ← hn, hsearch, vpageNew, bind, Except.bind, pure, Except.pure]
    split_ifs at hrun₁ ⊢ <;> simp only [hrun₁, hinsert]
  obtain ⟨hexact, htrees₁, hsame⟩ | ⟨hexact, htrees₁, hsame⟩ := hcase
  · refine ⟨s₁, free.erase res, htrees₁, erase_subset, ⟨?_, ?_, .inl ⟨hexact, rfl⟩, fun p hp _ ↦ ?_, hsame.type⟩,
      hrun⟩
    · simp [hsame.addr, VpageAlct.setExtent]
    · simp [hsame.size, VpageAlct.setExtent]
    · simp [hsame.addr, hsame.size, VpageAlct.setExtent, hp]
  · refine ⟨s₁, free, htrees₁, Subset.refl _, ⟨?_, ?_, .inr ⟨hexact, rfl, ?_, ?_⟩, fun p hp hp_res ↦ ?_,
      hsame.type⟩, hrun⟩
    · simp [hsame.addr, VpageAlct.setExtent, hne.symm]
    · simp [hsame.size, VpageAlct.setExtent, hne.symm]
    · simp [hsame.addr, VpageAlct.setExtent]
    · simp [hsame.size, VpageAlct.setExtent]
    · simp [hsame.addr, hsame.size, VpageAlct.setExtent, hp, hp_res]

theorem Takes.regions {s' : VpageAlct} {free' : List ℕ} {res n : ℕ} (htakes : Takes s s' free free' vp res n)
    (h : Valid s free live covered) (hvp : vp ∉ free ++ live) (hres : res ∈ free) (hpos : 0 < n)
    (hunit : n % pageSize = 0) (hle : n ≤ s.size res) : Sorted s'.addr free' ∧
      Regions pageSize addressSpace s'.addr s'.size (vp :: (free' ++ live)) covered := by
  obtain ⟨htrees, hfree, -, hregions⟩ := h
  have hne : ∀ p ∈ free ++ live, p ≠ vp := fun p hp heq ↦ hvp (heq ▸ hp)
  have hmem_res : res ∈ free ++ live := mem_append_left _ hres
  obtain ⟨hexact, rfl⟩ | ⟨hexact, rfl, haddr_res, hsize_res⟩ := htakes.frees
  · constructor
    · refine Sorted.congr (hfree.sublist erase_sublist) fun p hp ↦ (htakes.others p ?_ ?_).1
      · exact hne p (mem_append_left _ (mem_of_mem_erase hp))
      · exact ((List.nodup_append.mp htrees.nodup).1.mem_erase_iff.mp hp).1
    · rw [← erase_append_left _ hres]
      exact hregions.rename hmem_res (fun r hr hr_res ↦ htakes.others r (hne r hr) hr_res) htakes.addr
        (htakes.size.trans hexact.symm)
  · have hbound := hregions.bound res hmem_res
    rw [wordAdd_of_lt (show s.addr res + n < addressSpace by omega)] at haddr_res
    constructor
    · -- the start of `res` moves, but not past the regions behind
      refine hfree.imp_of_mem fun {p q} hp hq hlt ↦ ?_
      have hbefore := hregions.before (mem_append_left _ hp) (mem_append_left _ hq) hlt
      grind [htakes.others]
    · exact hregions.cut hmem_res hpos (by omega) hunit (fun r hr hne_res ↦ htakes.others r (hne r hr) hne_res)
        (Or.inr ⟨htakes.addr, htakes.size, haddr_res, hsize_res⟩)

theorem roundUp_spec (hpos : 0 < size) (hle : size ≤ addressSpace - pageSize) :
    size ≤ roundUp size pageSize ∧ roundUp size pageSize % pageSize = 0 := by
  unfold roundUp pageSize addressSpace at *
  omega

theorem vmAlloc_valid (h : Valid s free live covered) (hvp : vp ∉ free ++ live) (hdesc : IsDesc vp)
    (hpos : 0 < size) (hsize : size ≤ addressSpace - pageSize) :
    s.rbtSearchSize (roundUp size pageSize) = .ok none ∧ s.vmAlloc (.ok vp) size = .ok (.nomem, none, s) ∨
      ∃ s' free' live', s.vmAlloc (.ok vp) size = .ok (.ok, some vp, s') ∧
        Valid s' free' live' covered ∧ free' ⊆ free ∧ live'.Perm (vp :: live) ∧ s'.size vp = roundUp size pageSize ∧
        (∀ p ∈ live, s'.addr p = s.addr p ∧ s'.size p = s.size p) ∧ s'.type = s.type := by
  obtain ⟨hround, hunit⟩ := roundUp_spec hpos hsize
  rcases rbtSearchSize_spec h.trees (roundUp size pageSize) with hnone | ⟨res, hres, hsome, hle⟩
  · exact Or.inl ⟨hnone, by simp [vmAlloc, hnone]⟩
  right
  have hlive : ∀ p ∈ live, p ≠ vp ∧ p ≠ res := fun p hp ↦
    ⟨fun heq ↦ hvp (heq ▸ mem_append_right _ hp), fun heq ↦ h.trees.not_mem_live hp (heq ▸ hres)⟩
  obtain ⟨s₁, free', htrees₁, hsub, htakes, hrun⟩ := vmAlloc_unlinked h.trees hvp hres hsome
  obtain ⟨hfree₁, hregions₁⟩ := htakes.regions h hvp hres (Nat.lt_of_lt_of_le hpos hround) hunit hle
  have hkept : ∀ p ∈ live, s₁.addr p = s.addr p ∧ s₁.size p = s.size p := fun p hp ↦
    htakes.others p (hlive p hp).1 (hlive p hp).2
  obtain ⟨s', live', hinsert, hvalid', hperm, hsame'⟩ := vmInsertAlloced_valid htrees₁ hfree₁
    (h.live_sorted.congr fun p hp ↦ (hkept p hp).1) (by grind) hdesc hregions₁
  refine ⟨s', free', live', hrun _ _ hinsert, hvalid', hsub, hperm, ?_, fun p hp ↦ ?_, hsame'.type.trans htakes.type⟩
  · rw [hsame'.size, htakes.size]
  · rw [hsame'.addr, hsame'.size]
    exact hkept p hp

theorem vmAlloc_error (h : Valid s free live covered) (err : Errno) (size : ℕ) :
    s.vmAlloc (.error err) size = .ok (.nomem, none, s) ∨ s.vmAlloc (.error err) size = .ok (err, none, s) := by
  rcases rbtSearchSize_spec h.trees (roundUp size pageSize) with hnone | ⟨res, -, hsome, -⟩
  · exact Or.inl (by simp [vmAlloc, hnone])
  · exact Or.inr (by simp [vmAlloc, hsome, vpageNew])

/-! ### `vm_slice` -/

theorem vmSliceAt_bounds {new : Except Errno ℕ} {result : Errno × Option ℕ × VpageAlct}
    (h : Valid s free live covered) (hvpo : vpo ∈ live) (hrun : s.vmSliceAt new vpo bound = .ok result) :
    s.addr vpo < bound ∧ bound < s.addr vpo + s.size vpo ∧ bound % pageSize = 0 := by
  have hmem : vpo ∈ free ++ live := mem_append_right _ hvpo
  have hbound := h.regions.bound vpo hmem
  have hpos := h.regions.pos vpo hmem
  obtain ⟨_, hassert, -⟩ := bind_eq_ok.mp hrun
  grind [assert_eq_ok, addressSpace]

/-- A slice at a bound inside a live region: the region leaves the tree, the two parts get their extents, and both go
into the tree. -/
theorem vmSliceAt_parts (h : Trees s free live 0) (hvp : vp ∉ free ++ live) (hvpo : vpo ∈ live)
    (hassert : bound > s.addr vpo ∧ bound < (s.addr vpo + s.size vpo + addressSpace - 1) % addressSpace ∧
      bound % pageSize = 0) :
    ∃ s₂, Trees s₂ free (live.erase vpo) 0 ∧ s₂.addr = Function.update s.addr vp bound ∧
      s₂.size = Function.update (Function.update s.size vp
        ((s.addr vpo + s.size vpo + addressSpace - bound) % addressSpace)) vpo (bound - s.addr vpo) ∧
      s₂.type = Function.update s.type vp (s.type vpo) ∧ s.vmSliceAt (.ok vp) vpo bound = (do
        let left ← s₂.vmInsertAlloced vpo
        assert (left.1 = .ok)
        let right ← left.2.vmInsertAlloced vp
        assert (right.1 = .ok)
        return (right.1, some vp, right.2)) := by
  have hne : vpo ≠ vp := fun heq ↦ hvp (heq ▸ mem_append_right _ hvpo)
  obtain ⟨t', hdelete, htrees₁⟩ := deleteAlloced_trees h hvpo
  obtain ⟨rest, hrest⟩ : ∃ rest, rest = (s.addr vpo + s.size vpo + addressSpace - bound) % addressSpace := ⟨_, rfl⟩
  obtain ⟨hfree_tree, hlive_tree, hdescs, hnodup⟩ := (htrees₁.setExtent_of_not_free
    (fun hp ↦ hvp (mem_append_left _ hp)) bound rest).setExtent_of_not_free (h.not_mem_live hvpo) (s.addr vpo)
    (bound - s.addr vpo)
  refine ⟨{ ((s.setAllocedRbt t').setExtent vp bound rest).setExtent vpo (s.addr vpo) (bound - s.addr vpo) with
    type := Function.update s.type vp (s.type vpo) }, ⟨hfree_tree, hlive_tree, hdescs, hnodup⟩, ?_, ?_, rfl, ?_⟩
  · funext p
    by_cases hp : p = vpo <;> simp [setExtent, setAllocedRbt, Function.update_apply, hp, hne]
  · rw [← hrest]
    rfl
  · simp only [vmSliceAt, assert_of_true hassert, hdelete, vpageNew, ok_bind]
    rw [show ((s.setAllocedRbt t').addr vpo + (s.setAllocedRbt t').size vpo + addressSpace - bound) % addressSpace =
      rest from hrest.symm]
    simp [setExtent, setAllocedRbt, hne]

theorem vmSliceAt_valid (h : Valid s free live covered) (hvp : vp ∉ free ++ live) (hdesc : IsDesc vp)
    (hvpo : vpo ∈ live) (hlow : s.addr vpo < bound) (hhigh : bound < s.addr vpo + s.size vpo)
    (hunit : bound % pageSize = 0) :
    ∃ s' live', s.vmSliceAt (.ok vp) vpo bound = .ok (.ok, some vp, s') ∧ Valid s' free live' covered ∧
      live'.Perm (vp :: live) ∧ s'.addr = Function.update s.addr vp bound ∧
      s'.size = Function.update (Function.update s.size vp (s.addr vpo + s.size vpo - bound)) vpo
        (bound - s.addr vpo) ∧ s'.type = Function.update s.type vp (s.type vpo) := by
  obtain ⟨htrees, hfree, hlive, hregions⟩ := h
  have hmem : vpo ∈ free ++ live := mem_append_right _ hvpo
  have hne : ∀ p ∈ free ++ live, p ≠ vp := fun p hp heq ↦ hvp (heq ▸ hp)
  have hvpo_vp : vpo ≠ vp := hne vpo hmem
  have hbound := hregions.bound vpo hmem
  have haddr_unit := hregions.start_unit vpo hmem
  have hsize_unit := hregions.len_unit vpo hmem
  have hrest : (s.addr vpo + s.size vpo + addressSpace - bound) % addressSpace =
      s.addr vpo + s.size vpo - bound := by
    unfold addressSpace at *
    omega
  obtain ⟨s₂, htrees₂, haddr₂, hsize₂, htype₂, hrun⟩ := vmSliceAt_parts htrees hvp hvpo
    ⟨show bound > s.addr vpo by omega, by unfold addressSpace pageSize at *; omega⟩
  rw [hrest] at hsize₂
  have hregions₂ : Regions pageSize addressSpace s₂.addr s₂.size (vp :: (free ++ live)) covered := by
    refine hregions.cut hmem (show 0 < bound - s.addr vpo by omega) (by omega)
      (by unfold pageSize at *; omega) (fun r hr hne_vpo ↦ ?_) (Or.inl ?_)
    · simp [haddr₂, hsize₂, hne r hr, hne_vpo]
    · simp only [haddr₂, hsize₂, Function.update_self, Function.update_of_ne hvpo_vp,
        Function.update_of_ne hvpo_vp.symm]
      exact ⟨trivial, trivial, by omega, by omega⟩
  have hsorted₂ : ∀ vps, vps ⊆ free ++ live → Sorted s.addr vps → Sorted s₂.addr vps :=
    fun vps hsub hsorted ↦ hsorted.congr fun p hp ↦ by simp [haddr₂, hne p (hsub hp)]
  have hnodup := (List.nodup_append.mp htrees.nodup).2.1
  have herase : live.erase vpo ⊆ free ++ live := fun p hp ↦ mem_append_right _ (mem_of_mem_erase hp)
  have hvpo₂ : vpo ∉ free ++ live.erase vpo := by simp [htrees.not_mem_live hvpo, hnodup.mem_erase_iff]
  have hne₂ : ∀ p ∈ live.erase vpo, s₂.addr p ≠ s₂.addr vpo := by grind [hregions₂.start_ne]
  obtain ⟨s₃, xs, ys, hrun₃, hsplit, htrees₃, hsame₃, hsorted₃⟩ :=
    vmInsertAlloced_trees htrees₂ (hsorted₂ _ herase (hlive.sublist erase_sublist)) hvpo₂
      (htrees.desc vpo hmem) hne₂
  have hperm₃ : (xs ++ vpo :: ys).Perm live := by
    refine perm_middle.trans ?_
    rw [← hsplit]
    exact (perm_cons_erase hvpo).symm
  have hvp₃ : vp ∉ free ++ (xs ++ vpo :: ys) := by rwa [(hperm₃.append_left free).mem_iff]
  have hregions₃ : Regions pageSize addressSpace s₃.addr s₃.size (vp :: (free ++ (xs ++ vpo :: ys))) covered := by
    rw [hsame₃.addr, hsame₃.size]
    exact hregions₂.perm ((hperm₃.symm.append_left free).cons vp)
  obtain ⟨s', live', hrun', hvalid', hperm', hsame'⟩ := vmInsertAlloced_valid htrees₃
    (by rw [hsame₃.addr]; exact hsorted₂ _ (subset_append_left _ _) hfree)
    (by rwa [hsame₃.addr]) hvp₃ hdesc hregions₃
  refine ⟨s', live', ?_, hvalid', hperm'.trans (hperm₃.cons vp), ?_, ?_, ?_⟩
  · simp [hrun, hrun₃, hrun', assert]
  · rw [hsame'.addr, hsame₃.addr, haddr₂]
  · rw [hsame'.size, hsame₃.size, hsize₂]
  · rw [hsame'.type, hsame₃.type, htype₂]

theorem vmSliceAt_inv (h : Valid s free live covered) (hvp : vp ∉ free ++ live) (hdesc : IsDesc vp)
    {result : Errno × Option ℕ × VpageAlct} (hvpo : vpo ∈ live)
    (hrun : s.vmSliceAt (.ok vp) vpo bound = .ok result) : result.1 = .ok ∧ result.2.1 = some vp ∧
      (∀ p ∈ free, result.2.2.addr p = s.addr p ∧ result.2.2.size p = s.size p) ∧
      ∃ live', Valid result.2.2 free live' covered ∧ live'.Perm (vp :: live) := by
  obtain ⟨hlow, hhigh, hunit⟩ := vmSliceAt_bounds h hvpo hrun
  obtain ⟨s', live', hrun', hvalid', hperm, haddr, hsize, -⟩ :=
    vmSliceAt_valid h hvp hdesc hvpo hlow hhigh hunit
  obtain rfl : (.ok, some vp, s') = result := by simpa [hrun'] using hrun
  refine ⟨rfl, rfl, fun p hp ↦ ?_, live', hvalid', hperm⟩
  have hp_vp : p ≠ vp := fun heq ↦ hvp (heq ▸ mem_append_left _ hp)
  have hp_vpo : p ≠ vpo := fun heq ↦ h.trees.not_mem_live hvpo (heq ▸ hp)
  simp [haddr, hsize, hp_vp, hp_vpo]

theorem vmSlice_valid (h : Valid s free live covered) {new₁ new₂ vpage res : ℕ} {s' : VpageAlct}
    (hvpage : vpage ∈ live) (hnew₁ : new₁ ∉ free ++ live) (hdesc₁ : IsDesc new₁)
    (hnew₂ : new₂ ∉ free ++ live) (hdesc₂ : IsDesc new₂) (hne : new₁ ≠ new₂)
    (hrun : s.vmSlice (.ok new₁) (.ok new₂) vpage addr size = .ok (.ok, some res, s')) :
    ∃ live', Valid s' free live' covered ∧ s'.addr res = addr ∧ s'.size res = size ∧
      ∀ p ∈ free, s'.addr p = s.addr p ∧ s'.size p = s.size p := by
  obtain ⟨_, -, hrun⟩ := bind_eq_ok.mp hrun
  obtain ⟨_, -, hrun⟩ := bind_eq_ok.mp hrun
  obtain ⟨_, -, hrun⟩ := bind_eq_ok.mp hrun
  obtain ⟨⟨err₁, vpage₁, s₁⟩, hfront, hrun⟩ := bind_eq_ok.mp hrun
  have hstage₁ : ∃ v live₁, err₁ = .ok ∧ vpage₁ = some v ∧ v ∈ live₁ ∧
      Valid s₁ free live₁ covered ∧ new₂ ∉ free ++ live₁ ∧
      ∀ p ∈ free, s₁.addr p = s.addr p ∧ s₁.size p = s.size p := by
    unfold sliceFront at hfront
    split_ifs at hfront
    · obtain ⟨hok, hsome, hkept, live₁, hvalid₁, hperm⟩ := vmSliceAt_inv h hnew₁ hdesc₁ hvpage hfront
      grind
    · obtain ⟨rfl, rfl, rfl⟩ : .ok = err₁ ∧ some vpage = vpage₁ ∧ s = s₁ := by simpa using hfront
      exact ⟨vpage, live, rfl, rfl, hvpage, h, hnew₂, fun _ _ ↦ ⟨rfl, rfl⟩⟩
  obtain ⟨v, live₁, rfl, rfl, hv, hvalid₁, hnew₂, hkept₁⟩ := hstage₁
  obtain ⟨⟨err₂, vpage₂, s₂⟩, hback, hrun⟩ := bind_eq_ok.mp hrun
  have hstage₂ : ∃ live₂, err₂ = .ok ∧ Valid s₂ free live₂ covered ∧
      ∀ p ∈ free, s₂.addr p = s₁.addr p ∧ s₂.size p = s₁.size p := by
    unfold sliceBack at hback
    split_ifs at hback
    · obtain ⟨hok, -, hkept, live₂, hvalid₂, -⟩ := vmSliceAt_inv hvalid₁ hnew₂ hdesc₂ hv hback
      exact ⟨live₂, hok, hvalid₂, hkept⟩
    · obtain ⟨rfl, -, rfl⟩ : .ok = err₂ ∧ none = vpage₂ ∧ s₁ = s₂ := by simpa using hback
      exact ⟨live₁, rfl, hvalid₁, fun _ _ ↦ ⟨rfl, rfl⟩⟩
  obtain ⟨live₂, rfl, hvalid₂, hkept₂⟩ := hstage₂
  obtain ⟨_, hassert, hrun⟩ := bind_eq_ok.mp hrun
  obtain ⟨haddr, hsize⟩ := assert_eq_ok.mp hassert
  obtain ⟨rfl, rfl⟩ : v = res ∧ s₂ = s' := by simpa using hrun
  grind

end Calls

end VpageAlct

end Lanthorn
