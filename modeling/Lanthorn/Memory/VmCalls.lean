import Lanthorn.Kernel.RbtAugment
import Lanthorn.Memory.VmSlice
import Mathlib.Order.Bounds.Basic

/-!
# The region allocator under any calls

`VpageAlct.system` is the allocator after `vm_init` and any calls at all: ranges that overlap, sizes that wrap,
calls that fail, `mm_ops.alloc` without memory. Its regions need not be disjoint or sorted, but `Sound` holds
in every state that is reached (`reachable_sound`): both trees are red-black trees, `mx_size` is right in the
free one, and the extents are of whole pages.

That is all that `rbt_search_size` needs. `mx_size` is the largest size in the subtree (`mxSize_isGreatest`),
so the search finds a region whenever one is large enough (`rbtSearchSize_eq_none`), and `vm_alloc` fails
with `E_NOMEM` only if there is none (`vmAlloc_complete`). The free tree is one client of the summaries of
`lib/rbt.c`; `rbt_augmentation` is about all of them.
-/

namespace Lanthorn

open Library List

namespace VpageAlct

structure Paged (addr size : ℕ) : Prop where
  addr_unit : addr % pageSize = 0
  size_unit : size % pageSize = 0
  addr_lt : addr < addressSpace
  size_lt : size < addressSpace

/-- The trees with their `mx_size`, and regions of whole pages. -/
structure Sound (s : VpageAlct) (free live : List ℕ) : Prop where
  trees : Trees s free live 0
  paged : ∀ p ∈ free ++ live, Paged (s.addr p) (s.size p)

theorem Paged.wordAdd {a b m n : ℕ} (h : Paged a m) (h' : Paged b n) :
    wordAdd m n % pageSize = 0 ∧ wordAdd m n < addressSpace := by
  have := h.size_unit
  have := h'.size_unit
  unfold Lanthorn.wordAdd pageSize addressSpace at *
  omega

section Calls

variable {s s' : VpageAlct} {free live : List ℕ} {vp : ℕ}

theorem Sound.of_same (h : Sound s free live) {free' live' : List ℕ} (htrees : Trees s' free' live' 0)
    (hpaged : ∀ p ∈ free' ++ live', Paged (s'.addr p) (s'.size p) ∨
      p ∈ free ++ live ∧ s'.addr p = s.addr p ∧ s'.size p = s.size p) : Sound s' free' live' := by
  refine ⟨htrees, fun p hp ↦ ?_⟩
  grind [h.paged]

/-! ### `vm_insert` and `vm_free` -/

section

variable (h : Sound s free live)
include h

theorem join_sound {now tmp a : ℕ} (hnow : now ∈ free) (htmp : tmp ∈ free) (hne : now ≠ tmp)
    (ha : a = s.addr now ∨ a = s.addr tmp) :
    ∃ s₁ s₂, (s.setExtent now a (wordAdd (s.size now) (s.size tmp))).vmDeleteFree tmp = .ok s₁ ∧
      s₁.rbtUpdate (now + vpageRbtNode) = .ok s₂ ∧ Sound s₂ (free.erase tmp) live := by
  obtain ⟨s₁, s₂, hrun₁, hrun₂, htrees, hsame⟩ :=
    join_trees h.trees hnow htmp hne a (wordAdd (s.size now) (s.size tmp))
  have hpaged_now := h.paged now (mem_append_left _ hnow)
  have hpaged_tmp := h.paged tmp (mem_append_left _ htmp)
  refine ⟨s₁, s₂, hrun₁, hrun₂, h.of_same htrees fun p hp ↦ ?_⟩
  rw [hsame.addr, hsame.size]
  by_cases hp_now : p = now
  · subst hp_now
    obtain ⟨hunit, hlt⟩ := hpaged_now.wordAdd hpaged_tmp
    simp only [setExtent, Function.update_self]
    rcases ha with rfl | rfl
    · exact .inl ⟨hpaged_now.addr_unit, hunit, hpaged_now.addr_lt, hlt⟩
    · exact .inl ⟨hpaged_tmp.addr_unit, hunit, hpaged_tmp.addr_lt, hlt⟩
  · refine .inr ⟨?_, by simp [setExtent, hp_now], by simp [setExtent, hp_now]⟩
    grind

theorem vmMerge_sound (hvp : vp ∈ free) : ∃ s' free', s.vmMerge vp = .ok s' ∧ Sound s' free' live := by
  obtain ⟨xs, ys, rfl⟩ := append_of_mem hvp
  obtain ⟨s', xs', ys', hrun, h', -⟩ := vmMerge_rule (P := fun s' xs ys ↦ Sound s' (xs ++ vp :: ys) live)
    (fun _ _ _ h ↦ ⟨live, h.trees⟩) (fun s' tmp xs ys h _ ↦ by
      obtain ⟨hne, herase⟩ := erase_behind (List.nodup_append.mp h.trees.nodup).1
      obtain ⟨s₁, s₂, hrun₁, hrun₂, h₂⟩ := join_sound h (by simp) (by simp) hne (.inl rfl)
      exact ⟨s₁, s₂, hrun₁, hrun₂, herase ▸ h₂⟩) (fun s' tmp xs ys h _ ↦ by
      obtain ⟨hne, herase⟩ := erase_before (List.nodup_append.mp h.trees.nodup).1
      obtain ⟨s₁, s₂, hrun₁, hrun₂, h₂⟩ := join_sound h (by simp) (by simp) hne (.inr rfl)
      exact ⟨s₁, s₂, hrun₁, hrun₂, herase ▸ h₂⟩) h
  exact ⟨s', _, hrun, h'⟩

theorem vmInsertFree_sound (hvp : vp ∉ free ++ live) (hdesc : IsDesc vp) (hpaged : Paged (s.addr vp) (s.size vp)) :
    ∃ err s' free', s.vmInsertFree vp = .ok (err, s') ∧ Sound s' free' live := by
  obtain hexist | ⟨t', mx', xs, ys, hinsert, hupdate, rfl, htrees⟩ := insertFree_cases h.trees hvp hdesc
  · refine ⟨.exist, s, free, ?_, h⟩
    rw [vmInsertFree, hexist]
    rfl
  · have hsound : Sound { s.setFreeRbt t' with mxSize := mx' } (xs ++ vp :: ys) live := by
      refine h.of_same htrees fun p hp ↦ ?_
      by_cases hp_vp : p = vp
      · exact .inl (hp_vp ▸ hpaged)
      · exact .inr ⟨by simpa [hp_vp] using hp, rfl, rfl⟩
    obtain ⟨s', free', hrun, hsound'⟩ := vmMerge_sound hsound (show vp ∈ xs ++ vp :: ys by simp)
    refine ⟨.ok, s', free', ?_, hsound'⟩
    simp only [setFreeRbt] at hrun
    simp [vmInsertFree, hinsert, setFreeRbt, hupdate, hrun]

theorem Sound.setExtent (hvp : vp ∉ free ++ live) (addr size : ℕ) : Sound (s.setExtent vp addr size) free live := by
  refine h.of_same (h.trees.setExtent_of_not_free (fun hmem ↦ hvp (mem_append_left _ hmem)) _ _)
    fun p hp ↦ ?_
  have hne : p ≠ vp := fun heq ↦ hvp (heq ▸ hp)
  exact .inr ⟨hp, by simp [VpageAlct.setExtent, hne], by simp [VpageAlct.setExtent, hne]⟩

end

variable {new : Except Errno ℕ} {size : ℕ} {err : Errno} {res : Option ℕ}

theorem Sound.supply (h : Sound s free live) (hnew : s.Supply new) (hok : new = .ok vp) :
    IsDesc vp ∧ vp ∉ free ++ live := by
  subst hok
  have hfresh : s.Fresh vp := hnew
  rwa [Fresh, h.trees.frees_eq, h.trees.lives_eq] at hfresh

theorem vmInsert_sound (h : Sound s free live) {addr : ℕ} (hnew : s.Supply new)
    (haddr : addr < addressSpace) (hsize : size < addressSpace)
    (hrun : s.vmInsert new addr size = .ok (err, s')) : ∃ free', Sound s' free' live := by
  obtain ⟨_, hassert, hrun⟩ := bind_eq_ok.mp hrun
  obtain ⟨haddr_unit, hsize_unit⟩ := assert_eq_ok.mp hassert
  cases hres : new with
  | error err' =>
    rw [hres] at hrun
    cases hrun
    exact ⟨free, h⟩
  | ok vp =>
    obtain ⟨hdesc, hvp⟩ := h.supply hnew hres
    rw [hres] at hrun
    have hpaged : Paged ((s.setExtent vp addr size).addr vp) ((s.setExtent vp addr size).size vp) := by
      simpa [setExtent] using ⟨haddr_unit, hsize_unit, haddr, hsize⟩
    obtain ⟨err', s'', free', hrun', hsound⟩ :=
      vmInsertFree_sound (h.setExtent hvp addr size) hvp hdesc hpaged
    obtain ⟨-, rfl⟩ := ok_pair_inj (hrun'.symm.trans hrun)
    exact ⟨free', hsound⟩

theorem vmFree_sound (h : Sound s free live) (hvp : vp ∈ live) (hrun : s.vmFree vp = .ok (err, s')) :
    ∃ free', Sound s' free' (live.erase vp) := by
  obtain ⟨t', hdelete, htrees⟩ := deleteAlloced_trees h.trees hvp
  have hnodup := (List.nodup_append.mp h.trees.nodup).2.1
  have hvp' : vp ∉ free ++ live.erase vp := by simp [h.trees.not_mem_live hvp, hnodup.mem_erase_iff]
  have hsound : Sound (s.setAllocedRbt t') free (live.erase vp) := by
    refine h.of_same htrees fun p hp ↦ .inr ⟨?_, rfl, rfl⟩
    grind
  obtain ⟨err', s'', free', hrun', hsound'⟩ := vmInsertFree_sound hsound hvp'
    (h.trees.desc vp (mem_append_right _ hvp)) (h.paged vp (mem_append_right _ hvp))
  rw [vmFree, hdelete] at hrun
  obtain ⟨-, rfl⟩ := ok_pair_inj (hrun'.symm.trans hrun)
  exact ⟨free', hsound'⟩

/-! ### `vm_alloc` -/

theorem vmAlloc_takes (h : Trees s free live 0) (hvp : vp ∉ free ++ live) (hdesc : IsDesc vp) {res : ℕ}
    (hres : res ∈ free) (hsearch : s.rbtSearchSize (roundUp size pageSize) = .ok (some res)) :
    ∃ s' free' live', s.vmAlloc (.ok vp) size = .ok (.ok, some vp, s') ∧ Trees s' free' live' 0 ∧
      Takes s s' free free' vp res (roundUp size pageSize) ∧ ∀ p, p ≠ vp → (p ∈ live' ↔ p ∈ live) := by
  obtain ⟨s₁, free', htrees₁, hsub, htakes₁, hrun⟩ := vmAlloc_unlinked h hvp hres hsearch
  obtain hexist | ⟨s', xs, ys, hinsert, rfl, htrees', hsame⟩ :=
    vmInsertAlloced_cases htrees₁ (show vp ∉ free' ++ live by grind) hdesc
  · exact ⟨s₁, free', live, hrun _ _ hexist, htrees₁, htakes₁, fun _ _ ↦ Iff.rfl⟩
  · refine ⟨s', free', _, hrun _ _ hinsert, htrees', ?_, fun p hp ↦ by simp [hp]⟩
    obtain ⟨haddr, hsize, hfrees, hothers, htype⟩ := htakes₁
    rw [← hsame.addr, ← hsame.size] at *
    exact ⟨haddr, hsize, hfrees, hothers, hsame.type.trans htype⟩

theorem roundUp_page (size : ℕ) : roundUp size pageSize % pageSize = 0 ∧ roundUp size pageSize < addressSpace := by
  unfold roundUp pageSize addressSpace
  omega

theorem vmAlloc_sound (h : Sound s free live) (hnew : s.Supply new)
    (hrun : s.vmAlloc new size = .ok (err, res, s')) : ∃ free' live', Sound s' free' live' := by
  rcases rbtSearchSize_spec h.trees (roundUp size pageSize) with hnone | ⟨r, hr, hsome, hle⟩
  · grind [vmAlloc, ok_bind, pure_eq]
  cases hres : new with
  | error err' => grind [vmAlloc, vpageNew, ok_bind, pure_eq]
  | ok vp =>
    obtain ⟨hdesc, hvp⟩ := h.supply hnew hres
    obtain ⟨s'', free', live', hrun', htrees, htakes, hlive⟩ := vmAlloc_takes h.trees hvp hdesc hr hsome
    obtain rfl : s'' = s' := by
      rw [hres, hrun'] at hrun
      exact (ok_triple_inj hrun).2.2
    obtain ⟨hunit, hlt⟩ := roundUp_page size
    have hpaged := h.paged r (mem_append_left _ hr)
    have hfree : ∀ p ∈ free', p ∈ free := by grind [htakes.frees]
    refine ⟨free', live', h.of_same htrees fun p hp ↦ ?_⟩
    by_cases hp_vp : p = vp
    · subst hp_vp
      rw [htakes.addr, htakes.size]
      exact .inl ⟨hpaged.addr_unit, hunit, hpaged.addr_lt, hlt⟩
    have hmem : p ∈ free ++ live := by grind
    by_cases hp_r : p = r
    · subst hp_r
      obtain ⟨-, rfl⟩ | ⟨-, -, haddr, hsize⟩ := htakes.frees
      · -- a region that was taken as a whole is in neither tree
        grind [h.trees.nodup]
      · rw [haddr, hsize]
        obtain ⟨haddr_unit, hsize_unit, haddr_lt, hsize_lt⟩ := hpaged
        refine .inl ⟨?_, ?_, ?_, ?_⟩ <;> unfold wordAdd pageSize addressSpace at * <;> omega
    · exact .inr ⟨hmem, htakes.others p hp_vp hp_r⟩

/-! ### `vm_slice` -/

theorem vmInsertAlloced_sound (h : Sound s free live) (hvp : vp ∉ free ++ live) (hdesc : IsDesc vp)
    (hpaged : Paged (s.addr vp) (s.size vp)) (hrun : s.vmInsertAlloced vp = .ok (.ok, s')) :
    SameExtents s s' ∧ ∃ live', Sound s' free live' ∧ live'.Perm (vp :: live) := by
  obtain hexist | ⟨s'', xs, ys, hinsert, rfl, htrees, hsame⟩ := vmInsertAlloced_cases h.trees hvp hdesc
  · rw [hexist] at hrun
    cases hrun
  grind [h.of_same, perm_middle, hsame.addr, hsame.size]

theorem vmSliceAt_sound (h : Sound s free live) {vpo bound : ℕ} (hvpo : vpo ∈ live)
    (hnew : ∀ vp, new = .ok vp → IsDesc vp ∧ vp ∉ free ++ live) (hbound : bound < addressSpace)
    (hrun : s.vmSliceAt new vpo bound = .ok (err, res, s')) :
    ∃ live', Sound s' free live' ∧ (∀ p ∈ live', p ∈ live ∨ new = .ok p) ∧ ∀ r, res = some r → r ∈ live' := by
  obtain ⟨_, hassert, hrest⟩ := bind_eq_ok.mp hrun
  have hassert := assert_eq_ok.mp hassert
  have hmem : vpo ∈ free ++ live := mem_append_right _ hvpo
  have hnodup := (List.nodup_append.mp h.trees.nodup).2.1
  have hvpo₁ : vpo ∉ free ++ live.erase vpo := by simp [h.trees.not_mem_live hvpo, hnodup.mem_erase_iff]
  have herase : ∀ p ∈ free ++ live.erase vpo, p ∈ free ++ live := fun p hp ↦ by grind
  cases hres : new with
  | error err' =>
    obtain ⟨t', hdelete, htrees⟩ := deleteAlloced_trees h.trees hvpo
    rw [hres, hdelete] at hrest
    obtain ⟨-, hrest⟩ := ok_pair_inj hrest
    grind [h.of_same htrees fun p hp ↦ .inr ⟨herase p hp, rfl, rfl⟩]
  | ok vp =>
    obtain ⟨hdesc, hvp⟩ := hnew vp hres
    have hne : vpo ≠ vp := fun heq ↦ hvp (heq ▸ hmem)
    obtain ⟨s₂, htrees₂, haddr₂, hsize₂, -, hparts⟩ := vmSliceAt_parts h.trees hvp hvpo hassert
    obtain ⟨haddr_unit, hsize_unit, haddr_lt, -⟩ := h.paged vpo hmem
    have hsound₂ : Sound s₂ free (live.erase vpo) := h.of_same htrees₂ fun p hp ↦ by
      have hp_vpo : p ≠ vpo := fun heq ↦ hvpo₁ (heq ▸ hp)
      have hp_vp : p ≠ vp := fun heq ↦ hvp (heq ▸ herase p hp)
      exact .inr ⟨herase p hp, by simp [haddr₂, hp_vp], by simp [hsize₂, hp_vp, hp_vpo]⟩
    have hpaged_vpo : Paged (s₂.addr vpo) (s₂.size vpo) := by
      simp only [haddr₂, hsize₂, Function.update_self, Function.update_of_ne hne]
      refine ⟨haddr_unit, ?_, haddr_lt, ?_⟩ <;> unfold pageSize addressSpace at * <;> omega
    have hpaged_vp : Paged (s₂.addr vp) (s₂.size vp) := by
      simp only [haddr₂, hsize₂, Function.update_self, Function.update_of_ne hne.symm]
      refine ⟨hassert.2.2, ?_, hbound, ?_⟩ <;> unfold pageSize addressSpace at * <;> omega
    rw [hres, hparts] at hrun
    obtain ⟨⟨err₃, s₃⟩, hinsert₃, hrun⟩ := bind_eq_ok.mp hrun
    obtain ⟨_, hok₃, hrun⟩ := bind_eq_ok.mp hrun
    obtain ⟨⟨err₄, s₄⟩, hinsert₄, hrun⟩ := bind_eq_ok.mp hrun
    obtain ⟨_, hok₄, hrun⟩ := bind_eq_ok.mp hrun
    obtain rfl := assert_eq_ok.mp hok₃
    obtain rfl := assert_eq_ok.mp hok₄
    obtain ⟨-, rfl, rfl⟩ : _ ∧ some vp = res ∧ s₄ = s' := by simpa using hrun
    obtain ⟨hsame₃, live₃, hsound₃, hperm₃⟩ :=
      vmInsertAlloced_sound hsound₂ hvpo₁ (h.trees.desc vpo hmem) hpaged_vpo hinsert₃
    have hlive₃ : ∀ p, p ∈ live₃ ↔ p ∈ live := fun p ↦ by rw [hperm₃.mem_iff, (perm_cons_erase hvpo).mem_iff]
    obtain ⟨-, live₄, hsound₄, hperm₄⟩ := vmInsertAlloced_sound hsound₃
      (by simpa [hlive₃] using hvp) hdesc (by rwa [hsame₃.addr, hsame₃.size]) hinsert₄
    grind

theorem vmSlice_sound (h : Sound s free live) {new₁ new₂ : Except Errno ℕ} {vpage addr : ℕ}
    (hvpage : vpage ∈ live) (hnew₁ : s.Supply new₁) (hnew₂ : s.Supply new₂)
    (hne : ∀ vp, new₁ = .ok vp → new₂ ≠ .ok vp) (haddr : addr < addressSpace)
    (hrun : s.vmSlice new₁ new₂ vpage addr size = .ok (err, res, s')) : ∃ live', Sound s' free live' := by
  obtain ⟨_, -, hrun⟩ := bind_eq_ok.mp hrun
  obtain ⟨_, -, hrun⟩ := bind_eq_ok.mp hrun
  obtain ⟨_, -, hrun⟩ := bind_eq_ok.mp hrun
  obtain ⟨⟨err₁, vpage₁, s₁⟩, hfront, hrun⟩ := bind_eq_ok.mp hrun
  have hstage₁ : ∃ live₁, Sound s₁ free live₁ ∧ (∀ p ∈ live₁, p ∈ live ∨ new₁ = .ok p) ∧
      ∀ r, vpage₁ = some r → r ∈ live₁ := by
    unfold sliceFront at hfront
    split_ifs at hfront
    · exact vmSliceAt_sound h hvpage (fun vp hok ↦ h.supply hnew₁ hok) haddr hfront
    · obtain ⟨-, rfl, rfl⟩ : _ ∧ some vpage = vpage₁ ∧ s = s₁ := by simpa using hfront
      exact ⟨live, h, fun p hp ↦ .inl hp, fun r hr ↦ Option.some_inj.mp hr ▸ hvpage⟩
  obtain ⟨live₁, hsound₁, hlive₁, hres₁⟩ := hstage₁
  have hdone : ∀ {result : Errno × Option ℕ × VpageAlct}, result = (err, res, s') →
      result.2.2 = s₁ → ∃ live', Sound s' free live' := by
    rintro _ rfl rfl
    exact ⟨live₁, hsound₁⟩
  cases hv : vpage₁ with
  | none =>
    rw [hv] at hrun
    cases err₁ <;> exact hdone (Except.ok.inj hrun) rfl
  | some v =>
    rw [hv] at hrun
    cases err₁ with
    | ok =>
      obtain ⟨⟨err₂, vpage₂, s₂⟩, hback, hrun⟩ := bind_eq_ok.mp hrun
      have hstage₂ : ∃ live₂, Sound s₂ free live₂ := by
        unfold sliceBack at hback
        split_ifs at hback
        · obtain ⟨live₂, hsound₂, -⟩ := vmSliceAt_sound hsound₁ (hres₁ v hv) (fun vp hok ↦ by
            grind [h.supply]) (Nat.mod_lt _ (by decide)) hback
          exact ⟨live₂, hsound₂⟩
        · obtain ⟨-, -, rfl⟩ : _ ∧ none = vpage₂ ∧ s₁ = s₂ := by simpa using hback
          exact ⟨live₁, hsound₁⟩
      simp only [ne_eq] at hrun
      split_ifs at hrun
      · obtain ⟨_, -, hrun⟩ := bind_eq_ok.mp hrun
        obtain ⟨-, -, rfl⟩ : _ ∧ _ ∧ s₂ = s' := by simpa using hrun
        exact hstage₂
      · obtain ⟨-, -, rfl⟩ : _ ∧ _ ∧ s₂ = s' := by simpa using hrun
        exact hstage₂
    | _ => exact hdone (Except.ok.inj hrun) rfl

/-! ### Runs -/

/-- The calls of the allocator with what `mm_ops.alloc` returns to them, and what the rest of the kernel
does in between. -/
inductive Call
  | insert (new : Except Errno ℕ) (addr size : ℕ)
  | alloc (new : Except Errno ℕ) (size : ℕ)
  | free (vp : ℕ)
  | slice (new₁ new₂ : Except Errno ℕ) (vpage addr size : ℕ)
  | other

/-- The allocator after `vm_init` and any calls that return, whatever they return: only frees and slices are
of live regions. -/
def system : System VpageAlct Call where
  init s := ∃ s₀ : VpageAlct, s = s₀.vmInit
  step s call s' :=
    match call with
    | .insert new addr size => addr < addressSpace ∧ size < addressSpace ∧ s.Supply new ∧
        ∃ err, s.vmInsert new addr size = .ok (err, s')
    | .alloc new size => size < addressSpace ∧ s.Supply new ∧
        ∃ err res, s.vmAlloc new size = .ok (err, res, s')
    | .free vp => vp ∈ s.lives ∧ ∃ err, s.vmFree vp = .ok (err, s')
    | .slice new₁ new₂ vpage addr size => vpage ∈ s.lives ∧ addr < addressSpace ∧
        size < addressSpace ∧ s.Supply new₁ ∧ s.Supply new₂ ∧ (∀ vp, new₁ = .ok vp → new₂ ≠ .ok vp) ∧
        ∃ err res, s.vmSlice new₁ new₂ vpage addr size = .ok (err, res, s')
    | .other => s.Untouched s'

theorem sound_step {call : Call} (h : ∃ free live, Sound s free live) (hstep : system.step s call s') :
    ∃ free live, Sound s' free live := by
  obtain ⟨free, live, h⟩ := h
  cases call with
  | insert new addr size =>
    obtain ⟨haddr, hsize, hnew, err, hrun⟩ := hstep
    grind [vmInsert_sound]
  | alloc new size =>
    obtain ⟨-, hnew, err, res, hrun⟩ := hstep
    exact vmAlloc_sound h hnew hrun
  | free vp =>
    obtain ⟨hvp, err, hrun⟩ := hstep
    grind [h.trees.lives_eq, vmFree_sound]
  | slice new₁ new₂ vpage addr size =>
    obtain ⟨hvpage, haddr, -, hnew₁, hnew₂, hne, err, res, hrun⟩ := hstep
    rw [h.trees.lives_eq] at hvpage
    obtain ⟨live', hsound⟩ := vmSlice_sound h hvpage hnew₁ hnew₂ hne haddr hrun
    exact ⟨free, live', hsound⟩
  | other =>
    have haddr := hstep.addr
    have hsize := hstep.size
    rw [h.trees.frees_eq, h.trees.lives_eq] at haddr hsize
    exact ⟨free, live, h.of_same (hstep.trees h.trees) fun p hp ↦ .inr ⟨hp, haddr p hp, hsize p hp⟩⟩

theorem reachable_sound (h : system.Reachable s) : Sound s s.frees s.lives := by
  obtain ⟨free, live, hsound⟩ := h.invariant (P := fun s ↦ ∃ free live, Sound s free live)
    (by
      rintro s ⟨s₀, rfl⟩
      exact ⟨[], [], (vmInit_valid s₀).trees, by simp⟩)
    fun s call s' hs hstep ↦ sound_step hs hstep
  rwa [hsound.trees.frees_eq, hsound.trees.lives_eq]

/-! ### `mx_size` and `rbt_search_size` -/

/-- How `update` combines the size of a region with the `mx_size` of its children. -/
def maxSize (size : ℕ) (l r : Option ℕ) : ℕ := max (max (l.getD 0) (r.getD 0)) size

theorem MxBut.combines {size mx : ℕ → ℕ} {a l r : ℕ} (h : MxBut 0 size mx a l r) (ha : a ≠ 0) :
    Combines maxSize (size ∘ vpageOf) (mx ∘ vpageOf) a l r := by
  have hchild : ∀ n, (childSummary (mx ∘ vpageOf) n).getD 0 = childMx mx n := by
    intro n
    unfold childSummary childMx
    split_ifs <;> simp_all
  rw [Combines, maxSize, hchild, hchild]
  exact h.resolve_left ha

theorem value_maxSize (size : ℕ → ℕ) {t : Tree} (ht : t ≠ .nil) :
    ∃ v, value maxSize size t = some v ∧ IsGreatest {k | ∃ n ∈ t.inorder, size n = k} v := by
  induction t with
  | nil => exact absurd rfl ht
  | node l a c r ihl ihr =>
    refine ⟨_, rfl, ?_⟩
    have hpart : ∀ u : Tree, (u ≠ .nil → ∃ v, value maxSize size u = some v ∧
        IsGreatest {k | ∃ n ∈ u.inorder, size n = k} v) →
        (∀ n ∈ u.inorder, size n ≤ (value maxSize size u).getD 0) ∧
        ((value maxSize size u).getD 0 = 0 ∨ ∃ n ∈ u.inorder, size n = (value maxSize size u).getD 0) := by
      intro u ih
      by_cases hu : u = .nil
      · subst hu
        exact ⟨by simp, .inl rfl⟩
      · obtain ⟨v, hv, hmem, hle⟩ := ih hu
        rw [hv]
        exact ⟨fun n hn ↦ hle ⟨n, hn, rfl⟩, .inr hmem⟩
    obtain ⟨hle_l, hmem_l⟩ := hpart l ihl
    obtain ⟨hle_r, hmem_r⟩ := hpart r ihr
    simp only [maxSize, Tree.inorder_node, mem_append, mem_cons]
    constructor
    · -- the largest of the three is the size of a node
      grind
    · rintro k ⟨n, hn | rfl | hn, rfl⟩
      · have := hle_l n hn
        omega
      · omega
      · have := hle_r n hn
        omega

theorem mxSize_isGreatest {up : ℕ} {u : Tree} (h : Represents s.tree up u)
    (hsummed : Summed (MxBut 0 s.size s.mxSize) u) (hu : u ≠ .nil) :
    IsGreatest {k | ∃ n ∈ u.inorder, s.size (vpageOf n) = k} (s.mxSize (vpageOf u.root)) := by
  have hcombines : Summed (Combines maxSize (s.size ∘ vpageOf) (s.mxSize ∘ vpageOf)) u :=
    hsummed.imp_of_mem fun a ha _ _ _ _ hright ↦ hright.combines (h.ne_zero ha)
  have hcorrect := (summed_iff_correct fun h0 ↦ h.ne_zero h0 rfl).mp hcombines
  obtain ⟨v, hv, hgreatest⟩ := value_maxSize (s.size ∘ vpageOf) hu
  cases u with
  | nil => exact absurd rfl hu
  | node l a c r =>
    have hmx : s.mxSize (vpageOf a) = v := Option.some_inj.mp (hcorrect.1.trans hv)
    rw [Tree.root_node, hmx]
    exact hgreatest

theorem searchChild_spec (s : VpageAlct) (size n : ℕ) :
    (∃ d, (s.searchChild size n).2 = s.tree.child d n ∧ s.tree.child d n ≠ 0 ∧
      size ≤ s.mxSize (vpageOf (s.tree.child d n))) ∨
      s.searchChild size n = (addressSpace - 1, 0) ∧ ∀ d, s.tree.child d n ≠ 0 →
        size ≤ s.mxSize (vpageOf (s.tree.child d n)) →
        addressSpace - 1 ≤ s.mxSize (vpageOf (s.tree.child d n)) := by
  simp only [searchChild]
  split_ifs with hl hr hr
  · exact .inl ⟨.right, rfl, hr.1, hr.2.1⟩
  · exact .inl ⟨.left, rfl, hl.1, hl.2.1⟩
  · exact .inl ⟨.right, rfl, hr.1, hr.2.1⟩
  · refine .inr ⟨rfl, fun d hne hle ↦ ?_⟩
    by_contra hlt
    cases d with
    | left => exact hl ⟨hne, hle, Nat.lt_of_not_le hlt⟩
    | right => exact hr ⟨hne, hle, Nat.lt_of_not_le hlt⟩

theorem searchSizeLoop_complete {u : Tree} {up fuel : ℕ} (h : Represents s.tree up u)
    (hsummed : Summed (MxBut 0 s.size s.mxSize) u)
    (hlt : ∀ n ∈ u.inorder, s.size (vpageOf n) < addressSpace - 1) (hfuel : u.size < fuel)
    (hlarge : ∃ n ∈ u.inorder, size ≤ s.size (vpageOf n)) :
    ∃ vp, s.searchSizeLoop size fuel u.root = .ok (some vp) := by
  induction u generalizing up fuel with
  | nil => simp at hlarge
  | node l n c r ihl ihr =>
    obtain ⟨fuel, rfl⟩ := exists_succ hfuel
    obtain ⟨hn, -, -, hleft, hright, hl, hr⟩ := h
    rw [Tree.size_node] at hfuel
    rw [Tree.root_node, searchSizeLoop_node hn]
    split_ifs with hhere
    · exact ⟨_, rfl⟩
    -- what a child says about its part of the tree
    have hchild : ∀ {u : Tree}, Represents s.tree n u → Summed (MxBut 0 s.size s.mxSize) u →
        (∀ n ∈ u.inorder, s.size (vpageOf n) < addressSpace - 1) → ∀ d, s.tree.child d n = u.root →
        (s.tree.child d n ≠ 0 ∧ size ≤ s.mxSize (vpageOf (s.tree.child d n)) ↔
          ∃ n ∈ u.inorder, size ≤ s.size (vpageOf n)) ∧
        (s.tree.child d n ≠ 0 → s.mxSize (vpageOf (s.tree.child d n)) < addressSpace - 1) := by
      intro u hu hsummed_u hlt_u d hroot
      rw [hroot]
      by_cases hnil : u = .nil
      · subst hnil
        simp
      · obtain ⟨⟨m, hm, heq⟩, hle⟩ := mxSize_isGreatest hu hsummed_u hnil
        refine ⟨⟨fun hfits ↦ ⟨m, hm, heq ▸ hfits.2⟩, ?_⟩, fun _ ↦ heq ▸ hlt_u m hm⟩
        rintro ⟨m', hm', hsize⟩
        exact ⟨hu.root_eq_zero_iff.not.mpr hnil, hsize.trans (hle ⟨m', hm', rfl⟩)⟩
    have hlt_l : ∀ m ∈ l.inorder, s.size (vpageOf m) < addressSpace - 1 := fun m hm ↦
      hlt m (by simp [hm])
    have hlt_r : ∀ m ∈ r.inorder, s.size (vpageOf m) < addressSpace - 1 := fun m hm ↦
      hlt m (by simp [hm])
    obtain ⟨hiff_l, hmx_l⟩ := hchild hl hsummed.2.1 hlt_l .left hleft
    obtain ⟨hiff_r, hmx_r⟩ := hchild hr hsummed.2.2 hlt_r .right hright
    obtain ⟨d, hnext, hne, hsize⟩ | ⟨hnone, hsmall⟩ := searchChild_spec s size n
    · cases d with
      | left =>
        rw [hnext, hleft]
        exact ihl hl hsummed.2.1 hlt_l (by omega) (hiff_l.mp ⟨hne, hsize⟩)
      | right =>
        rw [hnext, hright]
        exact ihr hr hsummed.2.2 hlt_r (by omega) (hiff_r.mp ⟨hne, hsize⟩)
    · -- no child is large enough, so the node is
      grind [Tree.inorder_node]

theorem rbtSearchSize_eq_none (h : Sound s free live) (size : ℕ) :
    s.rbtSearchSize size = .ok none ↔ ∀ p ∈ free, s.size p < size := by
  constructor
  · intro hnone
    by_contra hlarge
    push Not at hlarge
    obtain ⟨p, hp, hsize⟩ := hlarge
    obtain ⟨T, hT, -, hinorder, hsummed⟩ := h.trees.free_tree
    have hdesc : ∀ q ∈ free, vpageOf (q + vpageRbtNode) = q := fun q hq ↦
      vpageOf_add (h.trees.desc q (mem_append_left _ hq))
    have hlt : ∀ n ∈ T.inorder, s.size (vpageOf n) < addressSpace - 1 := by
      intro n hn
      obtain ⟨q, hq, rfl⟩ := List.mem_map.mp (hinorder ▸ hn)
      obtain ⟨-, hunit, -, hlt⟩ := h.paged q (mem_append_left _ hq)
      rw [hdesc q hq]
      unfold pageSize addressSpace at *
      omega
    have hlarge : ∃ n ∈ T.inorder, size ≤ s.size (vpageOf n) :=
      ⟨p + vpageRbtNode, by rwa [hinorder, mem_rbtNodes], by rwa [hdesc p hp]⟩
    obtain ⟨vp, hfound⟩ := searchSizeLoop_complete hT.rep hsummed hlt hT.size_lt hlarge
    have hfound' : s.rbtSearchSize size = .ok (some vp) := by
      rw [rbtSearchSize, ← hfound]
      exact congrArg _ hT.root_eq
    rw [hnone] at hfound'
    cases hfound'
  grind [rbtSearchSize_spec, h.trees]

/-- `vm_alloc` with a new descriptor fails exactly if no free region is large enough, and then changes
nothing. Otherwise it takes the size, rounded up to whole pages, from the low end of a free region, and no
other region changes. The region is live, unless an earlier size has wrapped. -/
theorem vmAlloc_complete (h : system.Reachable s) (hvp : s.Fresh vp) {size : ℕ} (hpos : 0 < size)
    (hsize : size ≤ addressSpace - pageSize) : ∃ err res s', s.vmAlloc (.ok vp) size = .ok (err, res, s') ∧
      (err = .nomem ↔ ∀ p ∈ s.frees, s.size p < roundUp size pageSize) ∧ (err = .nomem → s' = s) ∧
      (err ≠ .nomem → err = .ok ∧ res = some vp ∧ size ≤ roundUp size pageSize ∧
        (∃ r ∈ s.frees, roundUp size pageSize ≤ s.size r ∧
          Takes s s' s.frees s'.frees vp r (roundUp size pageSize)) ∧
        (∀ p, p ≠ vp → (p ∈ s'.lives ↔ p ∈ s.lives)) ∧
        ((∃ st, VmState.system.Run VmState.Roundable st ∧ st.alct = s) → vp ∈ s'.lives)) := by
  have hsound := reachable_sound h
  obtain ⟨hdesc, hnew⟩ := hvp
  rcases rbtSearchSize_spec hsound.trees (roundUp size pageSize) with hnone | ⟨r, hr, hsome, hle⟩
  · refine ⟨.nomem, none, s, ?_, iff_of_true rfl ((rbtSearchSize_eq_none hsound _).mp hnone),
      fun _ ↦ rfl, fun hne ↦ absurd rfl hne⟩
    simp [vmAlloc, hnone]
  · obtain ⟨s', free', live', hrun, htrees, htakes, hlive⟩ :=
      vmAlloc_takes hsound.trees hnew hdesc hr hsome
    refine ⟨.ok, some vp, s', hrun, iff_of_false (by simp) fun hsmall ↦ ?_, by simp, fun _ ↦
      ⟨rfl, rfl, (roundUp_spec hpos hsize).1, ⟨r, hr, hle, ?_⟩, ?_, ?_⟩⟩
    · have := hsmall r hr
      omega
    · rwa [htrees.frees_eq]
    · rwa [htrees.lives_eq]
    · rintro ⟨st, hst, rfl⟩
      obtain ⟨free, live, hvalid⟩ := hst.invariant (P := VmState.Inv) (fun _ ↦ VmState.inv_init)
        fun _ _ _ ↦ VmState.inv_step
      rw [hvalid.trees.frees_eq, hvalid.trees.lives_eq] at hnew
      obtain ⟨-, hnomem⟩ | ⟨s'', free'', live'', hrun', hvalid', -, hperm, -⟩ :=
        vmAlloc_valid hvalid hnew hdesc hpos hsize
      · rw [hrun] at hnomem
        cases hnomem
      grind [hvalid'.trees.lives_eq]

end Calls

/-! ### An example -/

/-- Four pages at `0x2000`: the regions that are free then. -/
def exampleInsert : Result (Errno × List ℕ × List ℕ × List ℕ) := do
  let (err, s) ← VmState.blank.vmInit.vmInsert (.ok 0x1000) 0x2000 0x4000
  return (err, s.frees, s.lives, [s.addr 0x1000, s.size 0x1000])

theorem exampleInsert_reachable : ∃ s, system.Reachable s ∧ s.frees = [0x1000] ∧ s.lives = [] ∧
    s.addr 0x1000 = 0x2000 ∧ s.size 0x1000 = 0x4000 := by
  have hview : exampleInsert = .ok (.ok, [0x1000], [], [0x2000, 0x4000]) := by decide +kernel
  obtain ⟨⟨err, s⟩, hrun, hview⟩ := bind_eq_ok.mp hview
  obtain ⟨rfl, hfrees, hlives, haddr, hsize⟩ : err = .ok ∧ s.frees = [0x1000] ∧ s.lives = [] ∧
      s.addr 0x1000 = 0x2000 ∧ s.size 0x1000 = 0x4000 := by simpa using hview
  have hfresh : VmState.blank.vmInit.Fresh 0x1000 := ⟨by unfold IsDesc; decide, by simp [VmState.blank_empty]⟩
  exact ⟨s, .step (a := .insert (.ok 0x1000) 0x2000 0x4000) (.init ⟨VmState.blank, rfl⟩) trivial
    ⟨by decide, by decide, hfresh, .ok, hrun⟩, hfrees, hlives, haddr, hsize⟩

/-- The first page of the four, for a request of 100 bytes. -/
theorem vmAlloc_complete_example : ∃ s s', system.Reachable s ∧ s.frees = [0x1000] ∧
    s.vmAlloc (.ok 0x1030) 100 = .ok (.ok, some 0x1030, s') ∧ s'.addr 0x1030 = 0x2000 ∧
    s'.size 0x1030 = 0x1000 := by
  obtain ⟨s, hreach, hfrees, hlives, haddr, hsize⟩ := exampleInsert_reachable
  have hfresh : s.Fresh 0x1030 := ⟨by unfold IsDesc; decide, by simp [hfrees, hlives]⟩
  obtain ⟨err, res, s', hrun, hnomem, -, hok⟩ :=
    vmAlloc_complete hreach hfresh (show 0 < 100 by decide) (by decide)
  have hne : err ≠ .nomem := fun heq ↦ by
    have hsmall := hnomem.mp heq 0x1000 (by simp [hfrees])
    rw [hsize] at hsmall
    exact absurd hsmall (by decide)
  obtain ⟨rfl, rfl, -, ⟨r, hr, -, htakes⟩, -⟩ := hok hne
  obtain rfl : r = 0x1000 := by simpa [hfrees] using hr
  exact ⟨s, s', hreach, hfrees, hrun, htakes.addr.trans haddr, htakes.size⟩

end VpageAlct

section Augmentation

open Rbt VpageAlct

/-- The summaries in an augmented tree, whatever they are, are right again after an insertion with
`rbt_insert_update`, after a deletion between `rbt_delete_update_begin` and `rbt_delete_update_end`, and after
a change of the data of a node with `rbt_update`. In the free tree of the region allocator, `mx_size` is
always the largest size in the subtree. -/
theorem rbt_augmentation {δ σ : Type*} (combine : δ → Option σ → Option σ → σ) :
    (∀ (t : Rbt) (data : ℕ → δ) (summary : ℕ → σ) (x parent : ℕ) (d : Side),
      t.Augmented combine data summary → x ≠ 0 → x < addressSpace → x ∉ t.nodes → t.EmptyLink parent d →
      ∃ t' summary', rbtInsertColor (t.rbLinkNode x parent d) x = .ok t' ∧
        rbtInsertUpdate t'.mem (recompute combine data t'.mem) x summary = .ok summary' ∧
        t'.nodes = (t.rbLinkNode x parent d).nodes ∧ t'.Augmented combine data summary') ∧
    (∀ (t : Rbt) (data : ℕ → δ) (summary : ℕ → σ) (x : ℕ), t.Augmented combine data summary → x ∈ t.nodes →
      ∃ start t' summary', rbtDeleteUpdateBegin t.mem x = .ok start ∧ rbtDelete t x = .ok t' ∧
        rbtDeleteUpdateEnd t'.mem (recompute combine data t'.mem) start summary = .ok summary' ∧
        t'.nodes = t.nodes.erase x ∧ t'.Augmented combine data summary') ∧
    (∀ (t : Rbt) (data : ℕ → δ) (summary : ℕ → σ) (x : ℕ) (new : δ),
      t.Augmented combine data summary → x ∈ t.nodes →
      ∃ summary', rbtUpdate t.mem (recompute combine (Function.update data x new) t.mem) x summary = .ok summary' ∧
        t.Augmented combine (Function.update data x new) summary') ∧
    ∀ s : VpageAlct, VpageAlct.system.Reachable s →
      s.freeRbt.Augmented maxSize (s.size ∘ vpageOf) (s.mxSize ∘ vpageOf) ∧
      ∃ T, s.freeRbt.Holds T ∧ ∀ fs l n c r, T = plug fs (.node l n c r) →
        IsGreatest {k | ∃ m ∈ (Library.Tree.node l n c r).inorder, s.size (vpageOf m) = k}
          (s.mxSize (vpageOf n)) := by
  refine ⟨fun t data summary x parent d h hx hword hnew hlink ↦
    rbtInsertUpdate_augmented h hx hword hnew hlink, fun t data summary x ↦ rbtDeleteUpdate_augmented,
    fun t data summary x new h hx ↦ rbtUpdate_augmented h hx new, fun s hs ↦ ?_⟩
  obtain ⟨T, hT, hrb, -, hsummed⟩ := (reachable_sound hs).trees.free_tree
  have hcombines : Summed (Combines maxSize (s.size ∘ vpageOf) (s.mxSize ∘ vpageOf)) T :=
    hsummed.imp_of_mem fun a ha _ _ _ _ hright ↦ hright.combines (hT.rep.ne_zero ha)
  refine ⟨⟨T, hT, hrb, hT.correct_iff.mp hcombines⟩, T, hT, ?_⟩
  rintro fs l n c r rfl
  exact mxSize_isGreatest hT.represents.2 hsummed.of_plug.1 (by simp)

/-- Counting nodes: a fourth node below the root of three. -/
theorem rbt_augmentation_example :
    ∃ t' summary', Rbt.rbtInsertColor (Rbt.threeNodes.rbLinkNode 16 12 .right) 16 = .ok t' ∧
      t'.Augmented (fun (_ : Unit) l r ↦ l.getD 0 + r.getD 0 + 1) (fun _ ↦ ()) summary' := by
  have haugmented : Rbt.threeNodes.Augmented (fun (_ : Unit) l r ↦ l.getD 0 + r.getD 0 + 1) (fun _ ↦ ())
      (fun n ↦ if n = 8 then 3 else 1) := by
    refine ⟨_, Rbt.threeNodes_holds, Rbt.redBlack_threeShape, ?_⟩
    simp [Correct, value, Rbt.threeShape]
  obtain ⟨t', summary', hrun, -, -, h'⟩ := (rbt_augmentation _).1 Rbt.threeNodes (fun _ ↦ ()) _ 16 12 .right
    haugmented (by decide) (by decide) (by decide +kernel) (Or.inr ⟨by decide +kernel, rfl⟩)
  exact ⟨t', summary', hrun, h'⟩

end Augmentation

end Lanthorn
