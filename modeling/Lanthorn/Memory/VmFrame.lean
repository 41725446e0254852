import Lanthorn.Kernel.RbtRep
import Lanthorn.Memory.VmRuns

/-!
# What the tree operations of the region allocator write

The descriptors of several allocators lie in one memory. `Writes s s' vps` says that a call has written the
descriptors `vps` only; an allocator with other descriptors is then untouched (`Writes.untouched`).

`vmInsertAlloced_writes` and `vmInsertFree_valid` say what the two insertions write: the new descriptor and
those of their tree.
-/

namespace Lanthorn

open Library List

namespace VpageAlct

/-- Only the descriptors `vps` have been written. -/
structure Writes (s s' : VpageAlct) (vps : List ℕ) : Prop where
  addr : ∀ p, p ∉ vps → s'.addr p = s.addr p
  size : ∀ p, p ∉ vps → s'.size p = s.size p
  mxSize : ∀ p, p ∉ vps → s'.mxSize p = s.mxSize p
  type : ∀ p, p ∉ vps → s'.type p = s.type p
  tree : ∀ z, z ∉ rbtNodes vps → s.tree.AgreeAt s'.tree z

def withRoots (s : VpageAlct) (freeRoot allocedRoot : ℕ) : VpageAlct :=
  { s with freeRoot := freeRoot, allocedRoot := allocedRoot }

section Writes

variable {s s' s'' : VpageAlct} {free live vps : List ℕ} {covered : ℕ → Prop} {vp stale : ℕ}

theorem Writes.refl (s : VpageAlct) (vps : List ℕ) : Writes s s vps :=
  ⟨fun _ _ ↦ rfl, fun _ _ ↦ rfl, fun _ _ ↦ rfl, fun _ _ ↦ rfl, fun _ _ ↦ .refl _ _⟩

theorem Writes.trans (h : Writes s s' vps) (h' : Writes s' s'' vps) : Writes s s'' vps where
  addr p hp := (h'.addr p hp).trans (h.addr p hp)
  size p hp := (h'.size p hp).trans (h.size p hp)
  mxSize p hp := (h'.mxSize p hp).trans (h.mxSize p hp)
  type p hp := (h'.type p hp).trans (h.type p hp)
  tree z hz := (h.tree z hz).trans (h'.tree z hz)

theorem Writes.mono {wps : List ℕ} (h : Writes s s' vps) (hsub : vps ⊆ wps) : Writes s s' wps where
  addr p hp := h.addr p fun hmem ↦ hp (hsub hmem)
  size p hp := h.size p fun hmem ↦ hp (hsub hmem)
  mxSize p hp := h.mxSize p fun hmem ↦ hp (hsub hmem)
  type p hp := h.type p fun hmem ↦ hp (hsub hmem)
  tree z hz := h.tree z fun hmem ↦ hz (map_subset _ hsub hmem)

theorem Writes.untouched (h : Writes s s' vps) (hfree : s'.freeRoot = s.freeRoot)
    (halloced : s'.allocedRoot = s.allocedRoot) (hapart : ∀ p ∈ s.frees ++ s.lives, p ∉ vps) : Untouched s s' where
  freeRoot := hfree
  allocedRoot := halloced
  addr p hp := h.addr p (hapart p hp)
  size p hp := h.size p (hapart p hp)
  mxSize p hp := h.mxSize p (hapart p hp)
  tree p hp := h.tree _ (by rw [mem_rbtNodes]; exact hapart p hp)

/-! ### The operations -/

theorem setExtent_writes (s : VpageAlct) (vp addr size : ℕ) : Writes s (s.setExtent vp addr size) [vp] where
  addr p hp := Function.update_of_ne (by simpa using hp) _ _
  size p hp := Function.update_of_ne (by simpa using hp) _ _
  mxSize _ _ := rfl
  type _ _ := rfl
  tree _ _ := .refl _ _

theorem update_keeps {size mx mx' : ℕ → ℕ} {m : TreeMem} {node : ℕ} (hdesc : ∀ p ∈ vps, IsDesc p)
    (hnode : node ∈ rbtNodes vps) (h : ∀ p, p ∉ vps → mx' p = mx p) :
    ∀ p, p ∉ vps → update size m mx' node p = mx p := by
  intro p hp
  obtain ⟨q, hq, rfl⟩ := List.mem_map.mp hnode
  have hne : p ≠ q := fun heq ↦ hp (heq ▸ hq)
  rw [update_eq, vpageOf_add (hdesc q hq), Function.update_of_ne hne, h p hp]

section

variable (h : Trees s free live stale)
include h

theorem vmInsertAlloced_writes (hvp : vp ∉ live) (hdesc : IsDesc vp) {err : Errno}
    (hrun : s.vmInsertAlloced vp = .ok (err, s')) : Writes s s' (vp :: live) := by
  obtain ⟨T, hT, hrb, hinorder⟩ := h.live_tree
  have hfresh : vp + vpageRbtNode ∉ T.inorder := by rwa [hinorder, mem_rbtNodes]
  obtain hnone | ⟨t', fs, hinsert, -, -, hframes⟩ := Rbt.insertBy_cases (s.compareAddr (s.addr vp)) hT hrb
    (by simp [vpageRbtNode]) hdesc.node_lt hfresh
  · have hinsert : s.rbtInsert s.allocedRbt vp = .ok (.exist, s.allocedRbt) := by simp [rbtInsert, hnone]
    have hsame : s.vmInsertAlloced vp = .ok (.exist, s) := by
      rw [vmInsertAlloced, hinsert]
      rfl
    obtain ⟨-, rfl⟩ := ok_pair_inj (hsame.symm.trans hrun)
    exact .refl s _
  · have hlinked : s.vmInsertAlloced vp = .ok (.ok, s.setAllocedRbt t') := by
      simp [vmInsertAlloced, rbtInsert, hinsert]
    obtain ⟨-, rfl⟩ := ok_pair_inj (hlinked.symm.trans hrun)
    refine ⟨fun _ _ ↦ rfl, fun _ _ ↦ rfl, fun _ _ ↦ rfl, fun _ _ ↦ rfl, fun z hz ↦ hframes z ?_⟩
    rwa [hinorder]

theorem insertFree_writes (hvp : vp ∉ free) (hdesc : IsDesc vp) {t' : Rbt} {mx' : ℕ → ℕ}
    (hinsert : s.rbtInsert s.freeRbt vp = .ok (.ok, t'))
    (hupdate : Rbt.rbtInsertUpdate t'.mem (update s.size t'.mem) (vp + vpageRbtNode) s.mxSize = .ok mx') :
    Writes s { s.setFreeRbt t' with mxSize := mx' } (vp :: free) := by
  obtain ⟨T, hT, hrb, hinorder, -⟩ := h.free_tree
  have hfresh : vp + vpageRbtNode ∉ T.inorder := by rwa [hinorder, mem_rbtNodes]
  obtain hnone | ⟨t'', fs, hinsert', rfl, hT', hframes⟩ := Rbt.insertBy_cases (s.compareAddr (s.addr vp)) hT hrb
    (by simp [vpageRbtNode]) hdesc.node_lt hfresh
  · simp [rbtInsert, hnone] at hinsert
  · have hlinked : s.rbtInsert s.freeRbt vp = .ok (.ok, t'') := by simp [rbtInsert, hinsert']
    obtain ⟨-, rfl⟩ := ok_pair_inj (hlinked.symm.trans hinsert)
    obtain ⟨-, hbefore, hafter⟩ := Rbt.insertShape_spec (vp + vpageRbtNode) hrb
    obtain ⟨xs, ys, rfl, hnodes⟩ : ∃ xs ys, _ ∧ _ ++ (vp + vpageRbtNode) :: _ = _ :=
      rbtNodes_split (hbefore.symm.trans hinorder)
    have hmem : ∀ n, n ∈ rbtNodes (xs ++ vp :: ys) ↔ n ∈ rbtNodes (vp :: (xs ++ ys)) := by
      simp [rbtNodes, or_left_comm]
    have hdescs : ∀ p ∈ vp :: (xs ++ ys), IsDesc p := List.forall_mem_cons.mpr
      ⟨hdesc, fun p hp ↦ h.desc p (mem_append_left _ hp)⟩
    have hmx : ∀ p, p ∉ vp :: (xs ++ ys) → mx' p = s.mxSize p := by
      refine Rbt.rbtInsertUpdate_keeps (P := fun mx : ℕ → ℕ ↦ ∀ p, p ∉ vp :: (xs ++ ys) → mx p = s.mxSize p) hT' ?_
        (fun mx n hn hkept ↦ update_keeps hdescs ?_ hkept) (fun _ _ ↦ rfl) hupdate
      · rw [hafter, hnodes, mem_rbtNodes]
        simp
      · rwa [hafter, hnodes, hmem] at hn
    refine ⟨fun _ _ ↦ rfl, fun _ _ ↦ rfl, hmx, fun _ _ ↦ rfl, fun z hz ↦ hframes z ?_⟩
    rwa [hinorder]

theorem vmDeleteFree_writes (hvp : vp ∈ free) (hrun : s.vmDeleteFree vp = .ok s') : Writes s s' free := by
  obtain ⟨T, hT, hrb, hinorder, -⟩ := h.free_tree
  have hmem : vp + vpageRbtNode ∈ T.inorder := by rwa [hinorder, mem_rbtNodes]
  obtain ⟨start, hbegin, hrun⟩ := bind_eq_ok.mp hrun
  obtain ⟨t', hdelete, hrun⟩ := bind_eq_ok.mp hrun
  obtain ⟨mx', hend, hrun⟩ := bind_eq_ok.mp hrun
  cases hrun
  obtain ⟨t'', T', hdelete', -, -, -, hframes⟩ := Rbt.rbtDelete_holds hT hrb hmem
  obtain rfl := Except.ok.inj (hdelete.symm.trans hdelete')
  have hfree : ∀ p ∈ free, IsDesc p := fun p hp ↦ h.desc p (mem_append_left _ hp)
  have hmx : ∀ p, p ∉ free → mx' p = s.mxSize p :=
    Rbt.rbtDeleteUpdateEnd_keeps (P := fun mx : ℕ → ℕ ↦ ∀ p, p ∉ free → mx p = s.mxSize p) hT hrb hmem hbegin hdelete
      (fun mx n hn hkept ↦ update_keeps hfree (hinorder ▸ hn) hkept) (fun _ _ ↦ rfl) hend
  refine ⟨fun _ _ ↦ rfl, fun _ _ ↦ rfl, hmx, fun _ _ ↦ rfl, fun z hz ↦ hframes z ?_⟩
  rwa [hinorder]

theorem rbtUpdate_writes (hvp : vp ∈ free) (hrun : s.rbtUpdate (vp + vpageRbtNode) = .ok s') : Writes s s' free := by
  obtain ⟨T, hT, hrb, hinorder, -⟩ := h.free_tree
  have hmem : vp + vpageRbtNode ∈ T.inorder := by rwa [hinorder, mem_rbtNodes]
  have hfree : ∀ p ∈ free, IsDesc p := fun p hp ↦ h.desc p (mem_append_left _ hp)
  obtain ⟨mx', hupdate, hrun⟩ := bind_eq_ok.mp hrun
  cases hrun
  have hmx : ∀ p, p ∉ free → mx' p = s.mxSize p :=
    Rbt.rbtUpdate_keeps (P := fun mx : ℕ → ℕ ↦ ∀ p, p ∉ free → mx p = s.mxSize p) hT hmem
      (fun mx n hn hkept ↦ update_keeps hfree (hinorder ▸ hn) hkept) (fun _ _ ↦ rfl) hupdate
  exact ⟨fun _ _ ↦ rfl, fun _ _ ↦ rfl, hmx, fun _ _ ↦ rfl, fun _ _ ↦ .refl _ _⟩

end

theorem join_writes (h : Trees s free live 0) {now tmp a n : ℕ} (hnow : now ∈ free) (htmp : tmp ∈ free)
    (hne : now ≠ tmp) {s₁ s₂ : VpageAlct} (hdelete : (s.setExtent now a n).vmDeleteFree tmp = .ok s₁)
    (hupdate : s₁.rbtUpdate (now + vpageRbtNode) = .ok s₂) : Writes s s₂ free := by
  have htrees : Trees (s.setExtent now a n) free live (now + vpageRbtNode) := h.setExtent a n
  obtain ⟨s₁', hdelete', htrees₁, -⟩ := vmDeleteFree_trees htrees htmp
  obtain rfl := Except.ok.inj (hdelete.symm.trans hdelete')
  have hnow' : now ∈ free.erase tmp := by rwa [(List.nodup_append.mp h.nodup).1.mem_erase_iff, and_iff_right hne]
  have hextent := (setExtent_writes s now a n).mono (show [now] ⊆ free by simpa using hnow)
  exact (hextent.trans (vmDeleteFree_writes htrees htmp hdelete)).trans
    ((rbtUpdate_writes htrees₁ hnow' hupdate).mono erase_subset)

theorem vmMerge_writes (h : Valid s free live covered) (hvp : vp ∈ free) (hrun : s.vmMerge vp = .ok s') :
    Writes s s' free := by
  obtain ⟨xs, ys, rfl⟩ := append_of_mem hvp
  obtain ⟨s₂, xs', ys', hrun', ⟨-, -, hwrites⟩, -⟩ := vmMerge_rule
    (P := fun s' xs' ys' ↦ Valid s' (xs' ++ vp :: ys') live covered ∧
      xs' ++ vp :: ys' ⊆ xs ++ vp :: ys ∧ Writes s s' (xs ++ vp :: ys)) (fun _ _ _ h ↦ ⟨live, h.1.trees⟩)
    (fun s' tmp xs' ys' h hadjacent ↦ by
      obtain ⟨hvalid, hsub, hwrites⟩ := h
      obtain ⟨s₁, s₂, hrun₁, hrun₂, h₂, -⟩ := joinNext_valid hvalid hadjacent
      have hne := (erase_behind (List.nodup_append.mp hvalid.trees.nodup).1).1
      have hjoin := join_writes hvalid.trees (by simp) (by simp) hne hrun₁ hrun₂
      exact ⟨s₁, s₂, hrun₁, hrun₂, h₂, fun p hp ↦ hsub (by grind), hwrites.trans (hjoin.mono hsub)⟩)
    (fun s' tmp xs' ys' h hadjacent ↦ by
      obtain ⟨hvalid, hsub, hwrites⟩ := h
      obtain ⟨s₁, s₂, hrun₁, hrun₂, h₂, -⟩ := joinPrev_valid hvalid hadjacent
      have hne := (erase_before (List.nodup_append.mp hvalid.trees.nodup).1).1
      have hjoin := join_writes hvalid.trees (by simp) (by simp) hne hrun₁ hrun₂
      exact ⟨s₁, s₂, hrun₁, hrun₂, h₂, fun p hp ↦ hsub (by grind), hwrites.trans (hjoin.mono hsub)⟩)
    ⟨h, List.Subset.refl _, .refl s _⟩
  obtain rfl := Except.ok.inj (hrun.symm.trans hrun')
  exact hwrites

theorem vmInsertFree_valid (htrees : Trees s free live 0) (hfree : Sorted s.addr free)
    (hlive : Sorted s.addr live) (hvp : vp ∉ free ++ live) (hdesc : IsDesc vp)
    (hregions : Regions pageSize addressSpace s.addr s.size (vp :: (free ++ live)) covered) :
    ∃ s' free', s.vmInsertFree vp = .ok (.ok, s') ∧ Valid s' free' live covered ∧ free' ⊆ vp :: free ∧
      SameBut s s' [vp] ∧ Writes s s' (vp :: free) := by
  have hvp' : vp ∉ free := fun hmem ↦ hvp (mem_append_left _ hmem)
  have hne : ∀ p ∈ free, s.addr p ≠ s.addr vp := by
    intro p hp
    exact hregions.start_ne (by simp [hp]) (by simp) fun heq ↦ hvp' (heq ▸ hp)
  obtain ⟨t', mx', xs, ys, hinsert, hupdate, rfl, htrees₁, hsorted₁⟩ :=
    insertFree_trees htrees hfree hvp hdesc hne
  have hvalid₁ : Valid { s.setFreeRbt t' with mxSize := mx' } (xs ++ vp :: ys) live covered :=
    ⟨htrees₁, hsorted₁, hlive, hregions.perm (by simpa using List.perm_middle.symm)⟩
  have hmem : vp ∈ xs ++ vp :: ys := by simp
  obtain ⟨s', free', hmerge, hvalid', hsub, hsame⟩ := vmMerge_valid hvalid₁ hmem
  have hwrites := (insertFree_writes htrees hvp' hdesc hinsert hupdate).trans
    ((vmMerge_writes hvalid₁ hmem hmerge).mono (by grind))
  refine ⟨s', free', ?_, hvalid', by grind, ⟨hsame.addr, hsame.size, hsame.type⟩, hwrites⟩
  refine bind_eq_ok.mpr ⟨_, hinsert, ?_⟩
  exact bind_eq_ok.mpr ⟨_, hupdate, bind_eq_ok.mpr ⟨_, hmerge, rfl⟩⟩

/-! ### New descriptors -/

theorem Untouched.trans (h : Untouched s s') (h' : Untouched s' s'') (hvalid : Valid s free live covered) :
    Untouched s s'' := by
  have hfrees : s'.frees = s.frees := by rw [(h.valid hvalid).trees.frees_eq, hvalid.trees.frees_eq]
  have hlives : s'.lives = s.lives := by rw [(h.valid hvalid).trees.lives_eq, hvalid.trees.lives_eq]
  have hmem : ∀ p, p ∈ s.frees ++ s.lives → p ∈ s'.frees ++ s'.lives := by
    rw [hfrees, hlives]
    exact fun p hp ↦ hp
  exact ⟨h'.freeRoot.trans h.freeRoot, h'.allocedRoot.trans h.allocedRoot,
    fun p hp ↦ (h'.addr p (hmem p hp)).trans (h.addr p hp),
    fun p hp ↦ (h'.size p (hmem p hp)).trans (h.size p hp),
    fun p hp ↦ (h'.mxSize p (hmem p hp)).trans (h.mxSize p hp),
    fun p hp ↦ (h.tree p hp).trans (h'.tree p (hmem p hp))⟩

theorem Valid.write_new (h : Valid s free live covered) (hwrites : Writes s s' [vp])
    (hfreeRoot : s'.freeRoot = s.freeRoot) (hallocedRoot : s'.allocedRoot = s.allocedRoot)
    (hvp : vp ∉ free ++ live) (hstart : s'.addr vp % pageSize = 0) (hlen : s'.size vp % pageSize = 0)
    (hpos : 0 < s'.size vp) (hbound : s'.addr vp + s'.size vp < addressSpace)
    (hnew : ∀ x, InRegion s'.addr s'.size vp x → ¬ covered x) :
    Trees s' free live 0 ∧ Sorted s'.addr free ∧ Sorted s'.addr live ∧
      Regions pageSize addressSpace s'.addr s'.size (vp :: (free ++ live))
        fun x ↦ covered x ∨ InRegion s'.addr s'.size vp x := by
  have huntouched : Untouched s s' := by grind [hwrites.untouched, h.trees.frees_eq, h.trees.lives_eq]
  obtain ⟨htrees, hfree, hlive, hregions⟩ := huntouched.valid h
  exact ⟨htrees, hfree, hlive, hregions.add hstart hlen hpos hbound hnew⟩

theorem Sorted.eq_of_perm {addr : ℕ → ℕ} {vps wps : List ℕ} (h : Sorted addr vps) (h' : Sorted addr wps)
    (hperm : vps.Perm wps) : vps = wps :=
  hperm.eq_of_pairwise (fun _ _ _ _ hlt hlt' ↦ absurd hlt (Nat.lt_asymm hlt')) h h'

end Writes

end VpageAlct

end Lanthorn
