import Lanthorn.Memory.UmContract

/-!
# What happens to the allocated regions

`umalloc` keeps every allocated region as it is, and a region that it adds has the type `UM_NOPM`
(`Um.umalloc_keeps`). `vm_slice` of a `UM_NOPM` region keeps the type of every allocated byte, and every
other region as it is (`VpageAlct.vmSlice_recut`).
-/

namespace Lanthorn

open Library

namespace VpageAlct

/-- Every allocated region is kept, and others have no page. -/
structure Keeps (s s' : VpageAlct) : Prop where
  kept : ∀ p ∈ s.lives, p ∈ s'.lives ∧ s'.addr p = s.addr p ∧ s'.size p = s.size p ∧ s'.type p = s.type p
  new : ∀ p ∈ s'.lives, p ∈ s.lives ∨ s'.type p = .umNopm

/-- Every allocated region is kept, and there is one more if the call succeeds. -/
structure Adds (s s' : VpageAlct) (err : Errno) (res : Option ℕ) : Prop where
  kept : ∀ p ∈ s.lives, p ∈ s'.lives ∧ s'.addr p = s.addr p ∧ s'.size p = s.size p ∧ s'.type p = s.type p
  new : ∀ p ∈ s'.lives, p ∈ s.lives ∨ res = some p
  fresh : ∀ p, res = some p → p ∉ s.lives
  failed : err ≠ .ok → res = none

theorem Keeps.refl (s : VpageAlct) : Keeps s s := ⟨fun _ hp ↦ ⟨hp, rfl, rfl, rfl⟩, fun _ hp ↦ .inl hp⟩

theorem Adds.refl (s : VpageAlct) (err : Errno) : Adds s s err none :=
  ⟨fun _ hp ↦ ⟨hp, rfl, rfl, rfl⟩, fun _ hp ↦ .inl hp, nofun, fun _ ↦ rfl⟩

theorem Adds.trans {s s' s'' : VpageAlct} {err err' : Errno} {res : Option ℕ} (h : Adds s s' err none)
    (h' : Adds s' s'' err' res) : Adds s s'' err' res := by
  refine ⟨fun p hp ↦ ?_, fun p hp ↦ ?_, fun p hres hp ↦ h'.fresh p hres (h.kept p hp).1, h'.failed⟩
  all_goals grind [h.kept, h'.kept, h'.new, h.new]

theorem Adds.keeps {s s' : VpageAlct} {err : Errno} {vp : ℕ} (h : Adds s s' err (some vp)) :
    Keeps s { s' with type := Function.update s'.type vp .umNopm } := by
  refine ⟨fun p hp ↦ ?_, fun p hp ↦ ?_⟩
  · obtain ⟨hmem, haddr, hsize, htype⟩ := h.kept p hp
    have hne : p ≠ vp := fun heq ↦ h.fresh vp rfl (heq ▸ hp)
    exact ⟨hmem, haddr, hsize, (Function.update_of_ne hne _ _).trans htype⟩
  · obtain hold | hres := h.new p hp
    all_goals grind

theorem Adds.keeps_of_failed {s s' : VpageAlct} {err : Errno} {res : Option ℕ} (h : Adds s s' err res)
    (herr : err ≠ .ok) : Keeps s s' := by
  refine ⟨h.kept, fun p hp ↦ .inl ?_⟩
  obtain hold | hres := h.new p hp
  · exact hold
  · simp [h.failed herr] at hres

section Calls

variable {s s' : VpageAlct} {free live : List ℕ} {covered : ℕ → Prop}

theorem vmAlloc_adds (h : Valid s free live covered) {new : Except Errno ℕ}
    (hnew : ∀ vp, new = .ok vp → s.Fresh vp) {size : ℕ} (hpos : 0 < size)
    (hsize : size ≤ addressSpace - pageSize) {err : Errno} {res : Option ℕ}
    (hrun : s.vmAlloc new size = .ok (err, res, s')) : Adds s s' err res := by
  cases new with
  | error e =>
    obtain hrun' | hrun' := vmAlloc_error h e size <;>
    · obtain ⟨-, rfl, rfl⟩ : _ ∧ none = res ∧ s = s' := by simpa [hrun'] using hrun
      exact .refl s _
  | ok vp =>
    obtain ⟨hdesc, hvp⟩ := hnew vp rfl
    rw [h.trees.frees_eq, h.trees.lives_eq] at hvp
    obtain ⟨-, hrun'⟩ | ⟨s₁, free', live', hrun', hvalid', -, hperm, -, hkept, htype⟩ :=
      vmAlloc_valid h hvp hdesc hpos hsize
    · obtain ⟨-, rfl, rfl⟩ : _ ∧ none = res ∧ s = s' := by simpa [hrun'] using hrun
      exact .refl s _
    · obtain ⟨rfl, rfl, rfl⟩ : .ok = err ∧ some vp = res ∧ s₁ = s' := by simpa [hrun'] using hrun
      refine ⟨?_, ?_, ?_, fun herr ↦ absurd rfl herr⟩
      all_goals grind [h.trees.lives_eq, hvalid'.trees.lives_eq]

theorem vmInsert_adds (h : Valid s free live covered) {vp : ℕ} (hvp : s.Fresh vp) {addr size : ℕ}
    (haddr : addr % pageSize = 0) (hsize : size % pageSize = 0) (hpos : 0 < size)
    (hbound : addr + size < addressSpace) (hnew : ∀ x, addr ≤ x → x < addr + size → ¬ covered x)
    {err : Errno} (hrun : s.vmInsert (.ok vp) addr size = .ok (err, s')) : Adds s s' err none := by
  obtain ⟨hdesc, hfresh⟩ := hvp
  rw [h.trees.frees_eq, h.trees.lives_eq] at hfresh
  obtain ⟨s₁, free', hrun', hvalid', -, hsame⟩ :=
    vmInsert_valid h hfresh hdesc haddr hsize hpos hbound hnew
  obtain ⟨-, rfl⟩ : _ ∧ s₁ = s' := by simpa [hrun'] using hrun
  refine ⟨?_, ?_, ?_, fun _ ↦ rfl⟩
  all_goals grind [h.trees.lives_eq, hvalid'.trees.lives_eq, hsame.addr, hsame.size, hsame.type]

/-! ### `vm_slice` -/

def TypeAt (s : VpageAlct) (live : List ℕ) (x : ℕ) (t : VpageType) : Prop :=
  ∃ p ∈ live, InRegion s.addr s.size p x ∧ s.type p = t

structure Recut (s s' : VpageAlct) (live live' : List ℕ) (vpage : ℕ) : Prop where
  typeAt : ∀ x t, TypeAt s' live' x t ↔ TypeAt s live x t
  rest : ∀ p ∈ live, p ≠ vpage → p ∈ live' ∧ s'.addr p = s.addr p ∧ s'.size p = s.size p ∧ s'.type p = s.type p
  new : ∀ p ∈ live', p ∈ live ∧ p ≠ vpage ∨ s'.type p = .umNopm

theorem Recut.refl {vpage : ℕ} (s : VpageAlct) (live : List ℕ) (htype : s.type vpage = .umNopm) :
    Recut s s live live vpage := by
  refine ⟨fun _ _ ↦ Iff.rfl, fun p hp _ ↦ ⟨hp, rfl, rfl, rfl⟩, fun p hp ↦ ?_⟩
  by_cases heq : p = vpage
  · exact .inr (heq ▸ htype)
  · exact .inl ⟨hp, heq⟩

theorem Recut.trans {s'' : VpageAlct} {live' live'' : List ℕ} {vpage v : ℕ}
    (h : Recut s s' live live' vpage) (h' : Recut s' s'' live' live'' v) (hv : v = vpage ∨ v ∉ live) :
    Recut s s'' live live'' vpage := by
  have hne : ∀ p ∈ live, p ≠ vpage → p ≠ v := by
    rintro p hp hpv rfl
    exact hv.elim hpv fun hnot ↦ hnot hp
  refine ⟨fun x t ↦ (h'.typeAt x t).trans (h.typeAt x t), fun p hp hpv ↦ ?_, fun p hp ↦ ?_⟩
  all_goals grind [h.rest, h'.rest, h'.new, h.new]

section

variable (h : Valid s free live covered)
include h

theorem vmSliceAt_recut {vp : ℕ} (hvp : vp ∉ free ++ live) (hdesc : IsDesc vp) {vpo bound : ℕ}
    (hvpo : vpo ∈ live) (htype : s.type vpo = .umNopm) (hlow : s.addr vpo < bound)
    (hhigh : bound < s.addr vpo + s.size vpo) (hunit : bound % pageSize = 0) :
    ∃ s' live', s.vmSliceAt (.ok vp) vpo bound = .ok (.ok, some vp, s') ∧
      Valid s' free live' covered ∧ live'.Perm (vp :: live) ∧ Recut s s' live live' vpo ∧
      s'.addr vpo = s.addr vpo ∧ s'.size vpo = bound - s.addr vpo ∧ s'.type vpo = .umNopm ∧
      s'.addr vp = bound ∧ s'.size vp = s.addr vpo + s.size vpo - bound ∧ s'.type vp = .umNopm := by
  obtain ⟨s', live', hrun, hvalid', hperm, haddr, hsize, htype'⟩ :=
    vmSliceAt_valid h hvp hdesc hvpo hlow hhigh hunit
  have hne : ∀ p ∈ live, p ≠ vp := fun p hp heq ↦ hvp (heq ▸ List.mem_append_right _ hp)
  have hvpo_vp := hne vpo hvpo
  have hrest : ∀ p ∈ live, p ≠ vpo → s'.addr p = s.addr p ∧ s'.size p = s.size p ∧ s'.type p = s.type p := by
    intro p hp hpo
    simp [haddr, hsize, htype', hne p hp, hpo]
  have hold : s'.addr vpo = s.addr vpo ∧ s'.size vpo = bound - s.addr vpo ∧ s'.type vpo = .umNopm := by
    simp [haddr, hsize, htype', hvpo_vp, htype]
  have hnew : s'.addr vp = bound ∧ s'.size vp = s.addr vpo + s.size vpo - bound ∧ s'.type vp = .umNopm := by
    simp [haddr, hsize, htype', hvpo_vp.symm, htype]
  refine ⟨s', live', hrun, hvalid', hperm, ⟨fun x t ↦ ?_, fun p hp hpo ↦
    ⟨hperm.mem_iff.mpr (List.mem_cons_of_mem _ hp), hrest p hp hpo⟩, fun p hp ↦ ?_⟩, hold.1, hold.2.1,
    hold.2.2, hnew⟩
  all_goals grind [TypeAt, InRegion]

theorem sliceFront_recut {new vpage addr : ℕ} (hnew : new ∉ free ++ live) (hdesc : IsDesc new)
    (hvpage : vpage ∈ live) (htype : s.type vpage = .umNopm) (hlow : s.addr vpage ≤ addr)
    (hhigh : addr < s.addr vpage + s.size vpage) (hunit : addr % pageSize = 0) :
    ∃ v s' live', s.sliceFront (.ok new) vpage addr = .ok (.ok, some v, s') ∧
      Valid s' free live' covered ∧ live' ⊆ new :: live ∧ v ∈ live' ∧ (v = vpage ∨ v ∉ live) ∧
      Recut s s' live live' vpage ∧ s'.addr v = addr ∧
      s'.addr v + s'.size v = s.addr vpage + s.size vpage ∧ s'.type v = .umNopm := by
  unfold sliceFront
  split_ifs with hcut
  · grind [vmSliceAt_recut]
  · exact ⟨vpage, s, live, rfl, h, List.subset_cons_self _ _, hvpage, .inl rfl,
      .refl s live htype, by omega, rfl, htype⟩

theorem sliceBack_recut {new vpage bound : ℕ} (hnew : new ∉ free ++ live) (hdesc : IsDesc new)
    (hvpage : vpage ∈ live) (htype : s.type vpage = .umNopm) (hlow : s.addr vpage < bound)
    (hhigh : bound ≤ s.addr vpage + s.size vpage) (hunit : bound % pageSize = 0) :
    ∃ v s' live', s.sliceBack (.ok new) vpage bound = .ok (.ok, v, s') ∧
      Valid s' free live' covered ∧ vpage ∈ live' ∧ Recut s s' live live' vpage ∧
      s'.addr vpage = s.addr vpage ∧ s'.size vpage = bound - s.addr vpage ∧ s'.type vpage = .umNopm := by
  have hbound := h.regions.bound vpage (List.mem_append_right _ hvpage)
  unfold sliceBack
  rw [wordAdd_of_lt hbound]
  split_ifs with hcut
  · grind [vmSliceAt_recut]
  · exact ⟨none, s, live, rfl, h, hvpage, .refl s live htype, rfl, by omega, htype⟩

theorem vmSlice_recut {new₁ new₂ vpage addr size : ℕ} (hvpage : vpage ∈ live) (hnew₁ : new₁ ∉ free ++ live)
    (hdesc₁ : IsDesc new₁) (hnew₂ : new₂ ∉ free ++ live) (hdesc₂ : IsDesc new₂) (hne : new₁ ≠ new₂)
    (htype : s.type vpage = .umNopm) (hunit : addr % pageSize = 0 ∧ size % pageSize = 0) (hpos : 0 < size)
    (hlow : s.addr vpage ≤ addr) (hhigh : addr + size ≤ s.addr vpage + s.size vpage) :
    ∃ res s' live', s.vmSlice (.ok new₁) (.ok new₂) vpage addr size = .ok (.ok, some res, s') ∧
      Valid s' free live' covered ∧ res ∈ live' ∧ Recut s s' live live' vpage ∧
      s'.addr res = addr ∧ s'.size res = size ∧ s'.type res = .umNopm := by
  have hbound := h.regions.bound vpage (List.mem_append_right _ hvpage)
  have hadd : wordAdd addr size = addr + size := wordAdd_of_lt (by omega)
  have hunit' : (addr + size) % pageSize = 0 := by
    unfold pageSize at *
    omega
  obtain ⟨v, s₁, live₁, hfront, hvalid₁, hsub, hv, hv', hrecut₁, haddr₁, hend₁, htype₁⟩ :=
    sliceFront_recut h hnew₁ hdesc₁ hvpage htype hlow (by omega) hunit.1
  have hnew₂' : new₂ ∉ free ++ live₁ := by grind
  obtain ⟨r, s₂, live₂, hback, hvalid₂, hv₂, hrecut₂, haddr₂, hsize₂, htype₂⟩ :=
    sliceBack_recut hvalid₁ hnew₂' hdesc₂ hv htype₁ (show s₁.addr v < addr + size by omega)
      (by omega) hunit'
  have hsize : s₂.size v = size := by omega
  have hguard : addr ≥ s.addr vpage ∧ addr + size ≤ wordAdd (s.addr vpage) (s.size vpage) := by
    rw [wordAdd_of_lt hbound]
    omega
  refine ⟨v, s₂, live₂, ?_, hvalid₂, hv₂, hrecut₁.trans hrecut₂ hv', haddr₂.trans haddr₁, hsize, htype₂⟩
  simp only [vmSlice, assert_of_true htype, assert_of_true hunit, hadd, assert_of_true hguard,
    hfront, hback, ok_bind]
  simp [haddr₂, haddr₁, hsize]

end

end Calls

end VpageAlct

namespace Um

section Calls

variable {um um' : Um} {km : Kmallocs} {n : ℕ} {err : Errno} {res : Option ℕ}

section

variable (h : um.Heap) (hkm : km.Fresh um.vpAlct) (hpos : 0 < n) (hunit : n % pageSize = 0)
  (hn : um.layout.freeS + n < addressSpace)
include h hkm hpos hunit hn

theorem umallocGrow_adds (hrun : um.umallocGrow km n = .ok (err, res, um')) : um.vpAlct.Adds um'.vpAlct err res := by
  have hle : n ≤ addressSpace - pageSize := by
    unfold pageSize addressSpace at *
    omega
  obtain hnomem | ⟨hroom, hheap⟩ := umHeapAlloc_spec h hunit hn
  · obtain ⟨-, rfl, rfl⟩ : _ ∧ none = res ∧ um = um' := by simpa [umallocGrow, hnomem] using hrun
    exact .refl _ _
  obtain ⟨hlayout, free, live, covered, hvalid, hbelow⟩ := id h
  have hword : um.layout.heapE + n < addressSpace := by rwa [hlayout.heapE_eq]
  obtain ⟨_, hheap', hrun⟩ := bind_eq_ok.mp hrun
  obtain rfl := Except.ok.inj (hheap.symm.trans hheap')
  obtain ⟨⟨err₁, s₁⟩, hinsert, hrun⟩ := bind_eq_ok.mp hrun
  cases hins : km.insert with
  | error e =>
    have he : e ≠ .ok := fun heq ↦ hkm.insert_error (heq ▸ hins)
    obtain ⟨rfl, rfl⟩ : e = err₁ ∧ um.vpAlct = s₁ := by
      simpa [hins, VpageAlct.vmInsert, VpageAlct.vpageNew, hunit, hlayout.heapE_unit] using hinsert
    obtain ⟨-, rfl, rfl⟩ := by simpa [he] using hrun
    exact .refl _ _
  | ok vp =>
    rw [hins] at hinsert
    have hadds := VpageAlct.vmInsert_adds hvalid (hkm.insert vp hins) hlayout.heapE_unit hunit hpos hword
      (fun x hx _ hcov ↦ Nat.not_lt.mpr hx (hbelow x hcov)) hinsert
    obtain ⟨s₂, hinsert', hgrown, hfresh⟩ := vmInsert_grown h hpos hunit hroom (hkm.insert vp hins)
    obtain ⟨rfl, rfl⟩ : .ok = err₁ ∧ s₂ = s₁ := by simpa [hinsert'] using hinsert
    obtain ⟨-, free', live', covered', hvalid', -⟩ := hgrown.heap
    simp only [ne_eq, not_true, if_false] at hrun
    obtain ⟨⟨err₂, res₂, s₃⟩, halloc, hrun⟩ := bind_eq_ok.mp hrun
    obtain ⟨rfl, rfl, rfl⟩ : err₂ = err ∧ res₂ = res ∧ _ = um' := by simpa using hrun
    exact hadds.trans (VpageAlct.vmAlloc_adds hvalid' (fun p hp ↦ hfresh p (hkm.realloc p hp).1
      fun heq ↦ (hkm.realloc p hp).2 (heq ▸ hins)) hpos hle halloc)

theorem umallocRegion_adds (hrun : um.umallocRegion km n = .ok (err, res, um')) :
    um.vpAlct.Adds um'.vpAlct err res := by
  have hle : n ≤ addressSpace - pageSize := by
    unfold pageSize addressSpace at *
    omega
  obtain ⟨-, free, live, covered, hvalid, -⟩ := id h
  obtain ⟨err₁, res₁, s₁, halloc, -, hsame⟩ :=
    vmAlloc_allots h hkm.alloc hkm.alloc_error hpos hunit hle
  simp only [umallocRegion, halloc, ok_bind] at hrun
  split_ifs at hrun with herr
  · obtain rfl := hsame (by simp [herr])
    exact umallocGrow_adds h hkm hpos hunit hn hrun
  · obtain ⟨rfl, rfl, rfl⟩ : err₁ = err ∧ res₁ = res ∧ _ = um' := by simpa using hrun
    exact VpageAlct.vmAlloc_adds hvalid hkm.alloc hpos hle halloc

theorem umallocPage_keeps (hrun : um.umallocPage km n = .ok (err, res, um')) : um.vpAlct.Keeps um'.vpAlct := by
  obtain ⟨_, -, hrun⟩ := bind_eq_ok.mp hrun
  obtain ⟨⟨err₁, res₁, um₁⟩, hregion, hrun⟩ := bind_eq_ok.mp hrun
  have hadds := umallocRegion_adds h hkm hpos hunit hn hregion
  obtain ⟨err₂, res₂, um₂, hregion', -, hfound⟩ := umallocRegion_allots h hkm hpos hunit hn
  obtain ⟨rfl, rfl, rfl⟩ : err₂ = err₁ ∧ res₂ = res₁ ∧ um₂ = um₁ := by simpa [hregion'] using hregion
  by_cases herr : err₂ = .ok
  · subst herr
    obtain ⟨vp, rfl, -⟩ := hfound rfl
    obtain ⟨-, -, rfl⟩ := by simpa using hrun
    exact hadds.keeps
  · have hrun' : (.ok (err₂, none, um₂) : Result _) = .ok (err, res, um') := by
      rw [← hrun]
      cases err₂ <;> first | exact absurd rfl herr | rfl
    cases hrun'
    exact hadds.keeps_of_failed herr

end

theorem umalloc_keeps (h : um.Sound) (hkm : km.Fresh um.vpAlct) {size : ℕ}
    (hsize : um.layout.freeS + size ≤ addressSpace - pageSize)
    (hrun : um.umalloc km size = .ok (err, res, um')) : um.vpAlct.Keeps um'.vpAlct := by
  obtain ⟨depth, hdepth⟩ : ∃ depth, addressSpace = depth + 1 + 1 := ⟨addressSpace - 2, rfl⟩
  have hheapE := h.heap.heapE_lt
  have hheap_eq := h.heap.layout.heapE_eq
  rw [umalloc, hdepth, umallocTo] at hrun
  split_ifs at hrun with hzero hsmall
  · obtain ⟨-, -, rfl⟩ := by simpa using hrun
    exact .refl _
  · -- the slab may ask for a page
    rw [slabAlloc] at hrun
    split_ifs at hrun with hneeds
    · obtain ⟨⟨err₁, res₁, um₁⟩, hcall, hrun⟩ := bind_eq_ok.mp hrun
      rw [umallocTo_of_large depth (by decide)] at hcall
      have hn : um.layout.freeS + pageSize < addressSpace := by
        unfold kernBase pageSize addressSpace at *
        omega
      have hkeeps := umallocPage_keeps h.heap hkm (show 0 < pageSize by decide) (by decide) hn hcall
      have hsame : um'.vpAlct = um₁.vpAlct := by
        simp only at hrun
        split at hrun
        · obtain ⟨-, -, rfl⟩ := by simpa using hrun
          rfl
        · obtain ⟨-, -, rfl⟩ := by simpa using hrun
          rfl
      rwa [hsame]
    · obtain ⟨-, -, rfl⟩ := by simpa using hrun
      exact .refl _
  · have hpos : 0 < size := Nat.pos_of_ne_zero hzero
    obtain ⟨hround, hunit⟩ := VpageAlct.roundUp_spec hpos (by omega)
    have hn : um.layout.freeS + roundUp size pageSize < addressSpace := by grind [roundUp, pageSize, addressSpace]
    exact umallocPage_keeps h.heap hkm (hpos.trans_le hround) hunit hn hrun

end Calls

end Um

end Lanthorn
