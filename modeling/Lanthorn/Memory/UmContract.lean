import Lanthorn.Memory.Um
import Lanthorn.Memory.VmRuns

/-!
# The contract of user allocation

`Unused um` are the addresses that `umalloc_page` may still hand out, those of the free regions and
those behind the heap, and `Spare um` adds the rest of the page from which the slab cuts. A call of
`umalloc` never makes an address spare, and when it succeeds it takes the range that it returns out
of the spare ones (`umalloc_serves`). So what one call has returned no later call returns.

This needs the sums of the code not to wrap. `umalloc` rounds the size up and `um_heap_alloc` adds it
to the end of the heap, both in 32-bit arithmetic and with sizes that the process chooses. Runs whose
requests fit below `2 ^ 32` behind the heap satisfy the contract (`bounded_run_contract`). A request
that does not can move the end of the heap down, and then memory is handed out twice
(`reachable_overlap`).

The page fault handler cuts pages out of live regions between the calls, and also in the middle of
`slab_alloc`, when that touches the counter of a new page. What it does to the regions commutes with
the rest of `slab_alloc`, which only moves the free pointer.
-/

namespace Lanthorn

open Library List

namespace VpageAlct

def HeldBy (s : VpageAlct) (vps : List ℕ) (x : ℕ) : Prop := ∃ p ∈ vps, InRegion s.addr s.size p x

section Held

variable {s s' : VpageAlct} {free free' live live' : List ℕ} {covered : ℕ → Prop} {vp : ℕ}

theorem HeldBy.congr {vps : List ℕ} (hagree : ∀ p ∈ vps, s'.addr p = s.addr p ∧ s'.size p = s.size p)
    (x : ℕ) : s'.HeldBy vps x ↔ s.HeldBy vps x := by
  refine exists_congr fun p ↦ and_congr_right fun hp ↦ ?_
  rw [InRegion, InRegion, (hagree p hp).1, (hagree p hp).2]

theorem Valid.free_iff (h : Valid s free live covered) (x : ℕ) :
    s.HeldBy free x ↔ covered x ∧ ¬ s.HeldBy live x := by
  rw [h.regions.cover]
  constructor
  · rintro ⟨p, hp, hin⟩
    refine ⟨⟨p, mem_append_left _ hp, hin⟩, fun ⟨q, hq, hin'⟩ ↦ ?_⟩
    have heq : p = q := h.regions.eq_of_common (mem_append_left _ hp)
      (mem_append_right _ hq) hin hin'
    exact h.trees.not_mem_live hq (heq ▸ hp)
  · rintro ⟨⟨p, hp, hin⟩, hlive⟩
    rcases List.mem_append.mp hp with hp | hp
    · exact ⟨p, hp, hin⟩
    · exact absurd ⟨p, hp, hin⟩ hlive

theorem vmAlloc_free {size : ℕ} (h : Valid s free live covered) (hvp : vp ∉ free ++ live)
    (hdesc : IsDesc vp) (hpos : 0 < size) (hsize : size ≤ addressSpace - pageSize) :
    s.vmAlloc (.ok vp) size = .ok (.nomem, none, s) ∨
      ∃ s' free' live', s.vmAlloc (.ok vp) size = .ok (.ok, some vp, s') ∧
        Valid s' free' live' covered ∧ s'.size vp = roundUp size pageSize ∧
        s'.addr vp % pageSize = 0 ∧ (∀ x, s'.HeldBy free' x → s.HeldBy free x) ∧
        ∀ x, InRegion s'.addr s'.size vp x → s.HeldBy free x ∧ ¬ s'.HeldBy free' x := by
  obtain ⟨-, hnone⟩ | ⟨s', free', live', hrun, hvalid', -, hperm, hlen, hkept, -⟩ :=
    vmAlloc_valid h hvp hdesc hpos hsize
  · exact Or.inl hnone
  have hvp' : vp ∈ live' := hperm.mem_iff.mpr mem_cons_self
  refine Or.inr ⟨s', free', live', hrun, hvalid', hlen, hvalid'.regions.start_unit vp (mem_append_right _ hvp'), ?_⟩
  have hsub : ∀ p ∈ live, p ∈ live' := fun p hp ↦ hperm.mem_iff.mpr (mem_cons_of_mem _ hp)
  have hheld : ∀ x, s.HeldBy live x → s'.HeldBy live' x := fun x hx ↦ by
    obtain ⟨p, hp, hin⟩ := (HeldBy.congr hkept x).mpr hx
    exact ⟨p, hsub p hp, hin⟩
  have hnew : ∀ x, InRegion s'.addr s'.size vp x → ¬ s.HeldBy live x := fun x hx hlive ↦ by
    obtain ⟨p, hp, hin⟩ := (HeldBy.congr hkept x).mpr hlive
    have heq : vp = p := hvalid'.regions.eq_of_common (mem_append_right _ hvp')
      (mem_append_right _ (hsub p hp)) hx hin
    exact hvp (heq ▸ mem_append_right _ hp)
  refine ⟨fun x hx ↦ ?_, fun x hx ↦ ⟨?_, fun hfree ↦ ?_⟩⟩
  · grind [hvalid'.free_iff, h.free_iff]
  · grind [hvalid'.regions.cover, h.free_iff]
  · exact ((hvalid'.free_iff x).mp hfree).2 ⟨vp, hvp', hx⟩

theorem vmInsert_free {addr size : ℕ} (h : Valid s free live covered) (hvp : vp ∉ free ++ live)
    (hdesc : IsDesc vp) (haddr : addr % pageSize = 0) (hsize : size % pageSize = 0) (hpos : 0 < size)
    (hbound : addr + size < addressSpace) (hnew : ∀ x, addr ≤ x → x < addr + size → ¬ covered x) :
    ∃ s' free', s.vmInsert (.ok vp) addr size = .ok (.ok, s') ∧
      Valid s' free' live (fun x ↦ covered x ∨ addr ≤ x ∧ x < addr + size) ∧ free' ⊆ vp :: free ∧
      ∀ x, s'.HeldBy free' x → s.HeldBy free x ∨ addr ≤ x ∧ x < addr + size := by
  obtain ⟨s', free', hrun, hvalid', hsub, hsame⟩ :=
    vmInsert_valid h hvp hdesc haddr hsize hpos hbound hnew
  refine ⟨s', free', hrun, hvalid', hsub, fun x hx ↦ ?_⟩
  have hkept : ∀ p ∈ live, s'.addr p = s.addr p ∧ s'.size p = s.size p := fun p hp ↦ by
    grind [hsame.addr, hsame.size]
  grind [hvalid'.free_iff, HeldBy.congr, h.free_iff]

theorem Valid.setType (h : Valid s free live covered) (type : ℕ → VpageType) :
    Valid { s with type := type } free live covered :=
  ⟨⟨h.trees.free_tree, h.trees.live_tree, h.trees.desc, h.trees.nodup⟩, h.free_sorted, h.live_sorted, h.regions⟩

theorem roundUp_of_unit {n : ℕ} (hunit : n % pageSize = 0) (hle : n ≤ addressSpace - pageSize) :
    roundUp n pageSize = n := by
  unfold roundUp pageSize addressSpace at *
  omega

end Held

end VpageAlct

/-- The layout of a process: the heap below the free space, and that below the stack and the
kernel. -/
structure UvmLayout.Ordered (l : UvmLayout) : Prop where
  heapS_eq : l.heapS = 0
  heapE_eq : l.heapE = l.freeS
  freeS_le : l.freeS ≤ l.freeE
  freeE_eq : l.freeE = l.stkS
  freeE_le : l.freeE ≤ kernBase - pageSize
  heapE_unit : l.heapE % pageSize = 0

/-- What `kmalloc` may return to the calls of one `umalloc_page`: memory for descriptors that belong
to no region, or an error. -/
structure Kmallocs.Fresh (km : Kmallocs) (s : VpageAlct) : Prop where
  alloc : ∀ vp, km.alloc = .ok vp → s.Fresh vp
  insert : ∀ vp, km.insert = .ok vp → s.Fresh vp
  realloc : ∀ vp, km.realloc = .ok vp → s.Fresh vp ∧ km.insert ≠ .ok vp
  alloc_error : km.alloc ≠ .error .ok
  insert_error : km.insert ≠ .error .ok
  realloc_error : km.realloc ≠ .error .ok

namespace Um

/-- The heap of a process: its regions lie below the end of the heap. -/
structure Heap (um : Um) : Prop where
  layout : um.layout.Ordered
  regions : ∃ free live covered, um.vpAlct.Valid free live covered ∧ ∀ x, covered x → x < um.layout.heapE

/-- The addresses that `umalloc_page` may still hand out: those of free regions and those behind the
heap. -/
def Unused (um : Um) (x : ℕ) : Prop := um.vpAlct.HeldBy um.vpAlct.frees x ∨ um.layout.heapE ≤ x

/-- What a call of `umalloc_page` leaves: a heap that has not shrunk, with no more unused addresses
than before. -/
structure Grown (um um' : Um) : Prop where
  heap : um'.Heap
  heapE_le : um.layout.heapE ≤ um'.layout.heapE
  slab_eq : um'.slabAlct = um.slabAlct
  unused : ∀ x, um'.Unused x → um.Unused x

section Pages

variable {um : Um} {km : Kmallocs} {n : ℕ}

theorem Heap.word {um : Um} (h : um.Heap) : um.layout.heapE < addressSpace := by
  grind [h.layout.freeE_le, h.layout.freeS_le, h.layout.heapE_eq, kernBase, addressSpace]

theorem Grown.refl (h : um.Heap) : Grown um um := ⟨h, le_rfl, rfl, fun _ hx ↦ hx⟩

theorem Grown.trans {um' um'' : Um} (h : Grown um um') (h' : Grown um' um'') : Grown um um'' :=
  ⟨h'.heap, h.heapE_le.trans h'.heapE_le, h'.slab_eq.trans h.slab_eq, fun x hx ↦ h.unused x (h'.unused x hx)⟩

/-- What a call that looks for a region of `n` bytes leaves: when it succeeds, the region was unused
and is not unused any more. -/
structure Allots (um um' : Um) (n : ℕ) (err : Errno) (res : Option ℕ) : Prop where
  grown : Grown um um'
  region : err = .ok → ∃ vp, res = some vp ∧ um'.vpAlct.size vp = n ∧
    um'.vpAlct.addr vp % pageSize = 0 ∧ ∀ x, InRegion um'.vpAlct.addr um'.vpAlct.size vp x → um.Unused x ∧
      ¬ um'.Unused x

theorem Grown.allots {um' um'' : Um} {err : Errno} {res : Option ℕ} (h : Grown um um')
    (h' : Allots um' um'' n err res) : Allots um um'' n err res := by
  refine ⟨h.trans h'.grown, fun herr ↦ ?_⟩
  obtain ⟨vp, hvp, hsize, haddr, hunused⟩ := h'.region herr
  grind [h.unused]

theorem vmAlloc_allots (h : um.Heap) {new : Except Errno ℕ}
    (hnew : ∀ vp, new = .ok vp → um.vpAlct.Fresh vp) (herror : new ≠ .error .ok) (hpos : 0 < n)
    (hunit : n % pageSize = 0) (hn : n ≤ addressSpace - pageSize) :
    ∃ err res s', um.vpAlct.vmAlloc new n = .ok (err, res, s') ∧
      Allots um (um.setVpAlct s') n err res ∧ (err ≠ .ok → s' = um.vpAlct) := by
  obtain ⟨hlayout, free, live, covered, hvalid, hbelow⟩ := id h
  cases new with
  | error err =>
    have hsame : Allots um (um.setVpAlct um.vpAlct) n err none :=
      ⟨.refl h, fun herr ↦ absurd (herr ▸ rfl) herror⟩
    rcases VpageAlct.vmAlloc_error hvalid err n with hrun | hrun
    · exact ⟨_, _, _, hrun, ⟨.refl h, fun herr ↦ by simp at herr⟩, fun _ ↦ rfl⟩
    · exact ⟨_, _, _, hrun, hsame, fun _ ↦ rfl⟩
  | ok vp =>
    obtain ⟨hdesc, hvp⟩ := hnew vp rfl
    rw [hvalid.trees.frees_eq, hvalid.trees.lives_eq] at hvp
    obtain hrun | ⟨s', free', live', hrun, hvalid', hsize, haddr, hfree, hregion⟩ :=
      VpageAlct.vmAlloc_free hvalid hvp hdesc hpos hn
    · exact ⟨_, _, _, hrun, ⟨.refl h, fun herr ↦ by simp at herr⟩, fun _ ↦ rfl⟩
    rw [VpageAlct.roundUp_of_unit hunit hn] at hsize
    refine ⟨_, _, s', hrun, ⟨⟨⟨hlayout, free', live', covered, hvalid', hbelow⟩, le_rfl, rfl,
      fun x hx ↦ hx.imp_left fun hx ↦ ?_⟩, fun _ ↦ ⟨vp, rfl, hsize, haddr, fun x hx ↦ ⟨Or.inl ?_, ?_⟩⟩⟩,
      fun herr ↦ absurd rfl herr⟩
    · rw [hvalid.trees.frees_eq]
      exact hfree x (hvalid'.trees.frees_eq ▸ hx)
    · rw [hvalid.trees.frees_eq]
      exact (hregion x hx).1
    · rintro (hx' | hx')
      · exact (hregion x hx).2 (hvalid'.trees.frees_eq ▸ hx')
      · obtain ⟨p, hp, hin⟩ := (hregion x hx).1
        have hlt := hbelow x ((hvalid.regions.cover x).mpr ⟨p, mem_append_left _ hp, hin⟩)
        exact absurd hlt (Nat.not_lt.mpr hx')

theorem umHeapAlloc_spec (h : um.Heap) (hunit : n % pageSize = 0) (hn : um.layout.freeS + n < addressSpace) :
    um.umHeapAlloc n = .ok (.nomem, none, um) ∨ um.layout.freeS + n ≤ um.layout.freeE ∧
      um.umHeapAlloc n = .ok (.ok, some um.layout.heapE, { um with layout := { um.layout with
        heapE := um.layout.heapE + n, freeS := um.layout.freeS + n } }) := by
  rw [umHeapAlloc, assert_of_true hunit, h.layout.heapE_eq, wordAdd_of_lt hn]
  by_cases hroom : um.layout.freeS + n > um.layout.freeE
  · exact Or.inl (if_pos hroom)
  · exact Or.inr ⟨Nat.not_lt.mp hroom, if_neg hroom⟩

theorem Heap.extend (h : um.Heap) (hunit : n % pageSize = 0) (hroom : um.layout.freeS + n ≤ um.layout.freeE) :
    Grown um { um with layout := { um.layout with
      heapE := um.layout.heapE + n, freeS := um.layout.freeS + n } } := by
  obtain ⟨⟨hheapS, hheapE, hfreeS, hfreeE, hfree_le, hheap_unit⟩, free, live, covered, hvalid, hbelow⟩ := h
  refine ⟨⟨⟨hheapS, by simp [hheapE], hroom, hfreeE, hfree_le, ?_⟩, free, live, covered, hvalid,
    fun x hx ↦ ?_⟩, Nat.le_add_right _ _, rfl, fun x hx ↦ ?_⟩
  · exact Nat.dvd_iff_mod_eq_zero.mp (Nat.dvd_add (Nat.dvd_of_mod_eq_zero hheap_unit)
      (Nat.dvd_of_mod_eq_zero hunit))
  · exact Nat.lt_of_lt_of_le (hbelow x hx) (Nat.le_add_right _ _)
  · exact hx.imp_right fun hx ↦ Nat.le_of_add_right_le hx

theorem vmInsert_grown (h : um.Heap) (hpos : 0 < n) (hunit : n % pageSize = 0)
    (hroom : um.layout.freeS + n ≤ um.layout.freeE) {vp : ℕ} (hvp : um.vpAlct.Fresh vp) :
    ∃ s', um.vpAlct.vmInsert (.ok vp) um.layout.heapE n = .ok (.ok, s') ∧ Grown um { um with
        layout := { um.layout with heapE := um.layout.heapE + n, freeS := um.layout.freeS + n }
        vpAlct := s' } ∧
      ∀ p, um.vpAlct.Fresh p → p ≠ vp → s'.Fresh p := by
  have hword : um.layout.heapE + n < addressSpace := by
    grind [h.layout.freeE_le, h.layout.heapE_eq, kernBase, addressSpace]
  obtain ⟨hlayout', -⟩ := (h.extend hunit hroom).heap
  obtain ⟨hlayout, free, live, covered, hvalid, hbelow⟩ := h
  obtain ⟨hdesc, hfresh⟩ := hvp
  rw [hvalid.trees.frees_eq, hvalid.trees.lives_eq] at hfresh
  obtain ⟨s', free', hrun, hvalid', hsub, hfree⟩ := VpageAlct.vmInsert_free hvalid hfresh hdesc
    hlayout.heapE_unit hunit hpos hword fun x hx _ hcov ↦ Nat.not_lt.mpr hx (hbelow x hcov)
  refine ⟨s', hrun, ⟨⟨hlayout', free', live, _, hvalid', fun x hx ↦ ?_⟩, Nat.le_add_right _ _, rfl,
    fun x hx ↦ ?_⟩, fun p hp hne ↦ ⟨hp.1, ?_⟩⟩
  · grind
  · grind [Unused, hvalid.trees.frees_eq, hvalid'.trees.frees_eq]
  · have hp' := hp.2
    rw [hvalid.trees.frees_eq, hvalid.trees.lives_eq] at hp'
    grind [hvalid'.trees.frees_eq, hvalid'.trees.lives_eq]

section

variable (h : um.Heap) (hkm : km.Fresh um.vpAlct) (hpos : 0 < n) (hunit : n % pageSize = 0)
  (hn : um.layout.freeS + n < addressSpace)
include h hkm hpos hunit hn

theorem umallocGrow_allots :
    ∃ err res um', um.umallocGrow km n = .ok (err, res, um') ∧ Allots um um' n err res := by
  have hle : n ≤ addressSpace - pageSize := by
    unfold pageSize addressSpace at *
    omega
  obtain hrun | ⟨hroom, hrun⟩ := umHeapAlloc_spec h hunit hn
  · refine ⟨.nomem, none, um, ?_, .refl h, fun herr ↦ by simp at herr⟩
    simp [umallocGrow, hrun, bind, Except.bind, pure, Except.pure]
  cases hins : km.insert with
  | error err =>
    have herr : err ≠ .ok := fun heq ↦ hkm.insert_error (heq ▸ hins)
    refine ⟨err, none, _, ?_, h.extend hunit hroom, fun heq ↦ absurd heq herr⟩
    simp [umallocGrow, hrun, hins, VpageAlct.vmInsert, VpageAlct.vpageNew, hunit,
      h.layout.heapE_unit, herr, setVpAlct, bind, Except.bind, pure, Except.pure]
  | ok vp =>
    obtain ⟨s₁, hinsert, hgrown, hfresh⟩ :=
      vmInsert_grown h hpos hunit hroom (hkm.insert vp hins)
    obtain ⟨err, res, s₂, halloc, hallots, -⟩ := vmAlloc_allots hgrown.heap (n := n)
      (fun p hp ↦ hfresh p (hkm.realloc p hp).1 fun heq ↦ (hkm.realloc p hp).2 (heq ▸ hins))
      hkm.realloc_error hpos hunit hle
    refine ⟨err, res, _, ?_, hgrown.allots hallots⟩
    simp only [umallocGrow, hrun, hins, bind, Except.bind, hinsert]
    simp only [ne_eq, not_true, if_false, halloc, setVpAlct, pure_eq]

theorem umallocRegion_allots :
    ∃ err res um', um.umallocRegion km n = .ok (err, res, um') ∧ Allots um um' n err res := by
  have hle : n ≤ addressSpace - pageSize := by
    unfold pageSize addressSpace at *
    omega
  obtain ⟨err, res, s', hrun, hallots, hsame⟩ :=
    vmAlloc_allots h hkm.alloc hkm.alloc_error hpos hunit hle
  by_cases herr : err = .nomem
  · obtain rfl := hsame (by simp [herr])
    obtain ⟨err', res', um', hgrow, hallots'⟩ := umallocGrow_allots h hkm hpos hunit hn
    refine ⟨err', res', um', ?_, hallots'⟩
    simp only [umallocRegion, hrun, herr, if_true, ok_bind]
    exact hgrow
  · refine ⟨err, res, _, ?_, hallots⟩
    simp [umallocRegion, hrun, herr]

theorem umallocPage_spec : ∃ err res um', um.umallocPage km n = .ok (err, res, um') ∧ Grown um um' ∧
      (err = .ok → ∃ a, res = some a ∧ a % pageSize = 0 ∧
        ∀ x, a ≤ x → x < a + n → um.Unused x ∧ ¬ um'.Unused x) := by
  obtain ⟨err, res, um', hrun, ⟨hgrown, hregion⟩⟩ := umallocRegion_allots h hkm hpos hunit hn
  by_cases herr : err = .ok
  · subst herr
    obtain ⟨vp, rfl, hsize, haddr, hunused⟩ := hregion rfl
    obtain ⟨⟨hlayout, free, live, covered, hvalid, hbelow⟩, hheapE, hslab, hsub⟩ := hgrown
    refine ⟨.ok, some (um'.vpAlct.addr vp), um'.setVpAlct { um'.vpAlct with
      type := Function.update um'.vpAlct.type vp .umNopm }, ?_, ⟨⟨hlayout, free, live, covered,
      hvalid.setType _, hbelow⟩, hheapE, hslab, hsub⟩,
      fun _ ↦ ⟨_, rfl, haddr, fun x hle hlt ↦ hunused x ⟨hle, hsize ▸ hlt⟩⟩⟩
    simp only [umallocPage, assert_of_true hunit, hrun, ok_bind]
    rfl
  · refine ⟨err, none, um', ?_, hgrown, fun heq ↦ absurd heq herr⟩
    simp only [umallocPage, assert_of_true hunit, hrun, ok_bind]
    cases err <;> first | exact absurd rfl herr | rfl

end

end Pages

/-! ### The slab of a process -/

def Reserve (um : Um) (x : ℕ) : Prop :=
  um.slabAlct.freep ≠ 0 ∧ um.slabAlct.freep ≤ x ∧ x < roundUp um.slabAlct.freep pageSize

/-- The addresses that later calls of `umalloc` may return. -/
def Spare (um : Um) (x : ℕ) : Prop := um.Unused x ∨ um.Reserve x

/-- The state of a process between two calls of `umalloc`: the free pointer of the slab is inside a
page, whose rest is not for regions. -/
structure Sound (um : Um) : Prop where
  heap : um.Heap
  inside : um.slabAlct.freep ≠ 0 → um.slabAlct.freep % pageSize ≠ 0 ∧ um.slabAlct.freep < um.layout.heapE
  reserved : ∀ x, um.Reserve x → ¬ um.Unused x

/-- What a call of `umalloc` leaves: nothing more to return than before, and when it succeeds, `size`
bytes that could be returned before and cannot be returned any more. -/
structure Serves (um um' : Um) (size : ℕ) (err : Errno) (res : Option ℕ) : Prop where
  sound : um'.Sound
  heapE_le : um.layout.heapE ≤ um'.layout.heapE
  spare : ∀ x, um'.Spare x → um.Spare x
  pos : err = .ok → 0 < size
  range : err = .ok → ∃ a, res = some a ∧ ∀ x, a ≤ x → x < a + size → um.Spare x ∧ ¬ um'.Spare x

section Calls

variable {um um' : Um} {km : Kmallocs} {size : ℕ}

theorem roundUp_of_inside {a : ℕ} (hunit : a % pageSize ≠ 0) (hlt : a < kernBase) :
    roundUp a pageSize = a - a % pageSize + pageSize := by
  unfold roundUp pageSize addressSpace kernBase at *
  omega

theorem Heap.heapE_lt (h : um.Heap) : um.layout.heapE < kernBase := by
  grind [h.layout.freeE_le, h.layout.freeS_le, h.layout.heapE_eq, kernBase, pageSize]

theorem Heap.setSlabAlct (h : um.Heap) (slab : SlabAlct) : (um.setSlabAlct slab).Heap :=
  ⟨h.layout, h.regions⟩

theorem cut_serves (h : um.Sound) (hpos : 0 < size) (hsize : size ≤ szSlabAllocMax)
    (hfits : ¬ um.slabAlct.NeedsPage size) :
    Serves um (um.setSlabAlct (um.slabAlct.cut size)) size .ok (some um.slabAlct.freep) := by
  obtain ⟨hne, hroom⟩ := not_or.mp hfits
  obtain ⟨hunit, hlt⟩ := h.inside hne
  have hheapE := h.heap.heapE_lt
  have hheap_unit := h.heap.layout.heapE_unit
  have hend := roundUp_of_inside hunit (hlt.trans hheapE)
  have hadd : wordAdd um.slabAlct.freep size = um.slabAlct.freep + size := by
    refine wordAdd_of_lt ?_
    unfold kernBase szSlabAllocMax addressSpace at *
    omega
  rw [hadd, hend] at hroom
  have hunit' : (um.slabAlct.freep + size) % pageSize ≠ 0 := by
    unfold pageSize at *
    omega
  have hlt' : um.slabAlct.freep + size < um.layout.heapE := by
    unfold pageSize at *
    omega
  have hend' : roundUp (um.slabAlct.freep + size) pageSize = roundUp um.slabAlct.freep pageSize := by
    rw [hend, roundUp_of_inside hunit' (hlt'.trans hheapE)]
    unfold pageSize at *
    omega
  have hreserve : ∀ x, (um.setSlabAlct (um.slabAlct.cut size)).Reserve x ↔
      um.slabAlct.freep + size ≤ x ∧ x < roundUp um.slabAlct.freep pageSize := fun x ↦ by
    grind [Reserve, setSlabAlct, SlabAlct.cut]
  have hsub : ∀ x, (um.setSlabAlct (um.slabAlct.cut size)).Reserve x → um.Reserve x := fun x hx ↦ by
    rw [hreserve] at hx
    exact ⟨hne, by omega, hx.2⟩
  refine ⟨⟨h.heap.setSlabAlct _, fun _ ↦ ?_, fun x hx ↦ h.reserved x (hsub x hx)⟩, le_rfl,
    fun x hx ↦ hx.imp_right (hsub x), fun _ ↦ hpos, fun _ ↦ ⟨_, rfl, fun x hle hxlt ↦ ?_⟩⟩
  · simp only [setSlabAlct, SlabAlct.cut, hadd]
    exact ⟨hunit', hlt'⟩
  · have hx : um.Reserve x := ⟨hne, hle, by omega⟩
    refine ⟨Or.inr hx, ?_⟩
    rintro (hx' | hx')
    · exact h.reserved x hx hx'
    · exact absurd ((hreserve x).mp hx').1 (by omega)

theorem beginPage_serves (hgrown : Grown um um') {a : ℕ} (ha : a % pageSize = 0)
    (hpage : ∀ x, a ≤ x → x < a + pageSize → um.Unused x ∧ ¬ um'.Unused x) (hpos : 0 < size)
    (hsize : size ≤ szSlabAllocMax) : Serves um (um'.setSlabAlct ((um'.slabAlct.beginPage a).cut size)) size .ok
      (some (um'.slabAlct.beginPage a).freep) := by
  have hheapE := hgrown.heap.heapE_lt
  have hbelow : a < um'.layout.heapE := by
    by_contra hle
    exact (hpage a le_rfl (Nat.lt_add_of_pos_right (by decide))).2 (Or.inr (Nat.not_lt.mp hle))
  have hbegin : (um'.slabAlct.beginPage a).freep = a + 4 := by
    refine wordAdd_of_lt ?_
    unfold SlabAlct.uintSize addressSpace kernBase at *
    omega
  have hcut : ((um'.slabAlct.beginPage a).cut size).freep = a + 4 + size := by
    grind [SlabAlct.cut, wordAdd_of_lt, szSlabAllocMax, addressSpace, kernBase]
  have hunit : (a + 4 + size) % pageSize ≠ 0 := by
    unfold szSlabAllocMax pageSize at *
    omega
  have hlt : a + 4 + size < um'.layout.heapE := by
    have hheap_unit := hgrown.heap.layout.heapE_unit
    unfold szSlabAllocMax pageSize at *
    omega
  have hreserve : ∀ x, (um'.setSlabAlct ((um'.slabAlct.beginPage a).cut size)).Reserve x ↔
      a + 4 + size ≤ x ∧ x < a + pageSize := fun x ↦ by
    simp only [Reserve, setSlabAlct, hcut, roundUp_of_inside hunit (hlt.trans hheapE)]
    unfold szSlabAllocMax pageSize at *
    omega
  have hin : ∀ x, (um'.setSlabAlct ((um'.slabAlct.beginPage a).cut size)).Reserve x →
      um.Unused x ∧ ¬ um'.Unused x := fun x hx ↦ by
    rw [hreserve] at hx
    exact hpage x (by omega) hx.2
  refine ⟨⟨hgrown.heap.setSlabAlct _, fun _ ↦ ?_, fun x hx ↦ (hin x hx).2⟩, hgrown.heapE_le,
    fun x hx ↦ ?_, fun _ ↦ hpos, fun _ ↦ ⟨_, rfl, fun x hle hxlt ↦ ?_⟩⟩
  · simp only [setSlabAlct, hcut]
    exact ⟨hunit, hlt⟩
  · exact Or.inl (hx.elim (hgrown.unused x) fun hx ↦ (hin x hx).1)
  · rw [hbegin] at hle hxlt
    have hx : um.Unused x ∧ ¬ um'.Unused x := by
      refine hpage x (by omega) ?_
      unfold szSlabAllocMax pageSize at *
      omega
    refine ⟨Or.inl hx.1, ?_⟩
    rintro (hx' | hx')
    · exact hx.2 hx'
    · exact absurd ((hreserve x).mp hx').1 (by omega)

theorem Grown.serves (h : um.Sound) (hgrown : Grown um um') {err : Errno} {res : Option ℕ}
    (hpos : err = .ok → 0 < size) (hrange : err = .ok → ∃ a, res = some a ∧
      ∀ x, a ≤ x → x < a + size → um.Unused x ∧ ¬ um'.Unused x) : Serves um um' size err res := by
  have hreserve : ∀ x, um'.Reserve x ↔ um.Reserve x := fun x ↦ by rw [Reserve, Reserve, hgrown.slab_eq]
  refine ⟨⟨hgrown.heap, fun hne ↦ ?_, fun x hx hunused ↦ ?_⟩, hgrown.heapE_le, fun x hx ↦ ?_, hpos, fun herr ↦ ?_⟩
  · grind [hgrown.slab_eq, h.inside, hgrown.heapE_le]
  · exact h.reserved x ((hreserve x).mp hx) (hgrown.unused x hunused)
  · exact hx.imp (hgrown.unused x) (hreserve x).mp
  · obtain ⟨a, ha, hunused⟩ := hrange herr
    refine ⟨a, ha, fun x hle hlt ↦ ⟨Or.inl (hunused x hle hlt).1, ?_⟩⟩
    rintro (hx | hx)
    all_goals grind [h.reserved]

theorem umallocTo_of_large (depth : ℕ) (hsize : szSlabAllocMax < size) :
    umallocTo km (depth + 1) size um = um.umallocPage km (roundUp size pageSize) := by
  rw [umallocTo, if_neg (Nat.ne_zero_of_lt hsize), if_neg (Nat.not_le.mpr hsize)]

theorem umalloc_serves (h : um.Sound) (hkm : km.Fresh um.vpAlct)
    (hsize : um.layout.freeS + size ≤ addressSpace - pageSize) :
    ∃ err res um', um.umalloc km size = .ok (err, res, um') ∧ Serves um um' size err res := by
  obtain ⟨depth, hdepth⟩ : ∃ depth, addressSpace = depth + 1 + 1 := ⟨addressSpace - 2, rfl⟩
  have hheapE := h.heap.heapE_lt
  have hheap_eq := h.heap.layout.heapE_eq
  have hheap_unit := h.heap.layout.heapE_unit
  rw [umalloc, hdepth]
  by_cases hzero : size = 0
  · exact ⟨.inval, none, um, if_pos hzero, (Grown.refl h.heap).serves h (by simp) (by simp)⟩
  have hpos : 0 < size := Nat.pos_of_ne_zero hzero
  by_cases hlarge : szSlabAllocMax < size
  · obtain ⟨hround, hunit⟩ := VpageAlct.roundUp_spec hpos (by omega)
    have hn : um.layout.freeS + roundUp size pageSize < addressSpace := by
      unfold roundUp pageSize addressSpace at *
      omega
    obtain ⟨err, res, um', hrun, hgrown, hrange⟩ := umallocPage_spec h.heap hkm
      (hpos.trans_le hround) hunit hn
    refine ⟨err, res, um', (umallocTo_of_large _ hlarge).trans hrun, hgrown.serves h (fun _ ↦ hpos) fun herr ↦ ?_⟩
    grind
  have hsmall := Nat.not_lt.mp hlarge
  rw [umallocTo, if_neg hzero, if_pos hsmall, slabAlloc]
  split_ifs with hneeds
  · -- the slab asks `umalloc` for a page
    have hn : um.layout.freeS + pageSize < addressSpace := by
      unfold kernBase pageSize addressSpace at *
      omega
    obtain ⟨err, res, um', hrun, hgrown, hrange⟩ :=
      umallocPage_spec h.heap hkm (show 0 < pageSize by decide) (by decide) hn
    have hcall : umallocTo km (depth + 1) pageSize um = .ok (err, res, um') :=
      (umallocTo_of_large depth (by decide)).trans hrun
    simp only [hcall, ok_bind]
    by_cases herr : err = .ok
    · subst herr
      obtain ⟨a, rfl, ha, hpage⟩ := hrange rfl
      exact ⟨_, _, _, rfl, beginPage_serves hgrown ha hpage hpos hsmall⟩
    · refine ⟨err, none, um', ?_, hgrown.serves h (fun _ ↦ hpos) fun heq ↦ absurd heq herr⟩
      cases err <;> first | exact absurd rfl herr | rfl
  · exact ⟨_, _, _, rfl, cut_serves h hpos hsmall hneeds⟩

theorem umInit_sound (um : Um) : um.umInit.Sound := by
  have hunit : initUvmlo.heapE % pageSize = 0 := by decide
  refine ⟨⟨⟨rfl, rfl, Nat.zero_le _, rfl, le_rfl, hunit⟩, [], [], _, VpageAlct.vmInit_valid _,
    fun x hx ↦ hx.elim⟩, fun hne ↦ absurd rfl hne, fun x hx ↦ absurd rfl hx.1⟩

theorem Sound.setVpAlct (h : um.Sound) {s' : VpageAlct}
    (hvalid : ∀ free live covered, um.vpAlct.Valid free live covered → ∃ live', s'.Valid free live' covered ∧
        ∀ p ∈ free, s'.addr p = um.vpAlct.addr p ∧ s'.size p = um.vpAlct.size p) :
    (um.setVpAlct s').Sound ∧ ∀ x, (um.setVpAlct s').Spare x ↔ um.Spare x := by
  obtain ⟨⟨hlayout, free, live, covered, hold, hbelow⟩, hinside, hreserved⟩ := h
  obtain ⟨live', hnew, hkept⟩ := hvalid free live covered hold
  have hunused : ∀ x, (um.setVpAlct s').Unused x ↔ um.Unused x := fun x ↦ by
    have hfree : s'.HeldBy s'.frees x ↔ um.vpAlct.HeldBy um.vpAlct.frees x := by
      rw [hold.trees.frees_eq, hnew.trees.frees_eq]
      exact VpageAlct.HeldBy.congr hkept x
    exact or_congr_left hfree
  exact ⟨⟨⟨hlayout, free, live', covered, hnew, hbelow⟩, hinside, fun x hx hun ↦
    hreserved x hx ((hunused x).mp hun)⟩, fun x ↦ or_congr_left (hunused x)⟩

end Calls

end Um

/-- The memory of a process and the ranges that `umalloc` has returned, the last one first. -/
structure UmState where
  um : Um
  granted : List (ℕ × ℕ)

/-- A system call with what `kmalloc` answers, a page fault, or what else the kernel does. -/
inductive UmCall
  | umalloc (km : Kmallocs) (size : ℕ)
  | slice (new₁ new₂ vpage addr size : ℕ)
  | other

namespace UmState

/-- The process after `um_init` and any calls of `umalloc` with any 32-bit size. Between them the
page fault handler cuts pages out of live regions, and the kernel writes outside the regions and
their types. -/
def system : System UmState UmCall where
  init st := ∃ um : Um, st = ⟨um.umInit, []⟩
  step st call st' :=
    match call with
    | .umalloc km size => size < addressSpace ∧ km.Fresh st.um.vpAlct ∧ ∃ err res um',
        st.um.umalloc km size = .ok (err, res, um') ∧
        st' = ⟨um', if err = .ok then (res.toList.map fun a ↦ (a, size)) ++ st.granted
          else st.granted⟩
    | .slice new₁ new₂ vpage addr size => vpage ∈ st.um.vpAlct.lives ∧
        st.um.vpAlct.Fresh new₁ ∧ st.um.vpAlct.Fresh new₂ ∧ new₁ ≠ new₂ ∧ ∃ res s',
        st.um.vpAlct.vmSlice (.ok new₁) (.ok new₂) vpage addr size = .ok (.ok, some res, s') ∧
        st' = { st with um := st.um.setVpAlct s' }
    | .other => ∃ s', st.um.vpAlct.Untouched s' ∧ st' = { st with um := st.um.setVpAlct s' }

/-- The requests that fit below `2 ^ 32` when they are put behind the heap and rounded up. -/
def Bounded (st : UmState) : UmCall → Prop
  | .umalloc _ size => st.um.layout.freeS + size ≤ addressSpace - pageSize
  | _ => True

/-- What every state between two calls satisfies: what was returned is not returned again. -/
structure Inv (st : UmState) : Prop where
  sound : st.um.Sound
  granted : ∀ r ∈ st.granted, ∀ x, r.1 ≤ x → x < r.1 + r.2 → ¬ st.um.Spare x
  apart : st.granted.Pairwise fun r r' ↦ ∀ x, r.1 ≤ x → x < r.1 + r.2 → ¬ (r'.1 ≤ x ∧ x < r'.1 + r'.2)
  pos : ∀ r ∈ st.granted, 0 < r.2

theorem inv_init {st : UmState} (h : system.init st) : st.Inv := by
  obtain ⟨um, rfl⟩ := h
  exact ⟨um.umInit_sound, by simp, .nil, by simp⟩

theorem Inv.setVpAlct {st : UmState} (h : st.Inv) {s' : VpageAlct}
    (hvalid : ∀ free live covered, st.um.vpAlct.Valid free live covered → ∃ live', s'.Valid free live' covered ∧
        ∀ p ∈ free, s'.addr p = st.um.vpAlct.addr p ∧ s'.size p = st.um.vpAlct.size p) :
    Inv { st with um := st.um.setVpAlct s' } := by
  obtain ⟨hsound, hspare⟩ := h.sound.setVpAlct hvalid
  exact ⟨hsound, fun r hr x hle hlt hx ↦ h.granted r hr x hle hlt ((hspare x).mp hx), h.apart, h.pos⟩

theorem inv_serves {st : UmState} (h : st.Inv) {um' : Um} {size : ℕ} {err : Errno} {res : Option ℕ}
    (hserves : st.um.Serves um' size err res) :
    Inv ⟨um', if err = .ok then (res.toList.map fun a ↦ (a, size)) ++ st.granted
      else st.granted⟩ := by
  have hold : ∀ r ∈ st.granted, ∀ x, r.1 ≤ x → x < r.1 + r.2 → ¬ um'.Spare x :=
    fun r hr x hle hlt hx ↦ h.granted r hr x hle hlt (hserves.spare x hx)
  split_ifs with herr
  · obtain ⟨a, rfl, hrange⟩ := hserves.range herr
    refine ⟨hserves.sound, ?_, ?_, ?_⟩
    · simp only [Option.toList_some, map_cons, map_nil, cons_append, nil_append, forall_mem_cons]
      exact ⟨fun x hle hlt ↦ (hrange x hle hlt).2, hold⟩
    · grind [h.apart, h.granted]
    · exact List.forall_mem_cons.mpr ⟨hserves.pos herr, h.pos⟩
  · exact ⟨hserves.sound, hold, h.apart, h.pos⟩

theorem inv_step {st st' : UmState} {call : UmCall} (h : st.Inv) (hbounded : st.Bounded call)
    (hstep : system.step st call st') : st'.Inv ∧ st.um.layout.heapE ≤ st'.um.layout.heapE := by
  cases call with
  | umalloc km size =>
    obtain ⟨-, hkm, err, res, um', hrun, rfl⟩ := hstep
    obtain ⟨err', res', um'', hrun', hserves⟩ := Um.umalloc_serves h.sound hkm hbounded
    grind [inv_serves, hserves.heapE_le]
  | slice new₁ new₂ vpage addr size =>
    obtain ⟨hvpage, hnew₁, hnew₂, hne, res, s', hrun, rfl⟩ := hstep
    refine ⟨h.setVpAlct fun free live covered hvalid ↦ ?_, le_rfl⟩
    rw [VpageAlct.Fresh, hvalid.trees.frees_eq, hvalid.trees.lives_eq] at hnew₁ hnew₂
    rw [hvalid.trees.lives_eq] at hvpage
    obtain ⟨live', hvalid', -, -, hkept⟩ := VpageAlct.vmSlice_valid hvalid hvpage hnew₁.2 hnew₁.1
      hnew₂.2 hnew₂.1 hne hrun
    exact ⟨live', hvalid', hkept⟩
  | other =>
    obtain ⟨s', huntouched, rfl⟩ := hstep
    refine ⟨h.setVpAlct fun free live covered hvalid ↦ ⟨live, huntouched.valid hvalid, ?_⟩, le_rfl⟩
    grind [hvalid.trees.frees_eq, huntouched.addr, huntouched.size]

/-- The contract of user allocation in a state.

The heap, the free space behind it and the stack are in this order (`layout`). Every range that
`umalloc` has returned lies inside the heap (`inside`), and so does not wrap (`word`), and no two of
them have an address in common (`apart`). -/
structure Contract (st : UmState) : Prop where
  layout : st.um.layout.heapS ≤ st.um.layout.heapE ∧ st.um.layout.heapE = st.um.layout.freeS ∧
    st.um.layout.freeS ≤ st.um.layout.freeE ∧ st.um.layout.freeE = st.um.layout.stkS
  word : ∀ r ∈ st.granted, r.1 + r.2 < addressSpace
  inside : ∀ r ∈ st.granted, st.um.layout.heapS ≤ r.1 ∧ r.1 + r.2 ≤ st.um.layout.heapE
  apart : st.granted.Pairwise fun r r' ↦ r.1 + r.2 ≤ r'.1 ∨ r'.1 + r'.2 ≤ r.1

theorem Inv.contract {st : UmState} (h : st.Inv) : st.Contract := by
  have hlayout := h.sound.heap.layout
  have hword := h.sound.heap.word
  have hend : ∀ r ∈ st.granted, r.1 + r.2 ≤ st.um.layout.heapE := fun r hr ↦ by
    have hpos := h.pos r hr
    by_contra hlt
    -- the last byte of the range would lie behind the heap
    exact h.granted r hr (r.1 + r.2 - 1) (by omega) (by omega) (Or.inl (Or.inr (by omega)))
  refine ⟨⟨?_, hlayout.heapE_eq, hlayout.freeS_le, hlayout.freeE_eq⟩,
    fun r hr ↦ (hend r hr).trans_lt hword, fun r hr ↦ ⟨?_, hend r hr⟩, ?_⟩
  · rw [hlayout.heapS_eq]
    exact Nat.zero_le _
  · rw [hlayout.heapS_eq]
    exact Nat.zero_le _
  · refine h.apart.imp_of_mem fun {r r'} hr hr' hdisjoint ↦ ?_
    have hpos := h.pos r hr
    have hpos' := h.pos r' hr'
    by_contra hoverlap
    exact hdisjoint (max r.1 r'.1) (by omega) (by omega) ⟨by omega, by omega⟩

theorem inv_of_run {st : UmState} (h : system.Run Bounded st) : st.Inv :=
  h.invariant (fun _ ↦ inv_init) fun _ _ _ hinv hbounded hstep ↦ (inv_step hinv hbounded hstep).1

/-- In runs whose requests fit below `2 ^ 32`, the contract holds in every state, every further call
of `umalloc` returns, and the heap never shrinks. -/
theorem bounded_run_contract {st : UmState} (h : system.Run Bounded st) : st.Contract ∧
      (∀ km size, km.Fresh st.um.vpAlct → st.Bounded (.umalloc km size) →
        ∃ result, st.um.umalloc km size = .ok result) ∧
      ∀ call st', st.Bounded call → system.step st call st' → st.um.layout.heapE ≤ st'.um.layout.heapE := by
  have hinv := inv_of_run h
  refine ⟨hinv.contract, fun km size hkm hbounded ↦ ?_, fun call st' hbounded hstep ↦
    (inv_step hinv hbounded hstep).2⟩
  obtain ⟨err, res, um', hrun, -⟩ := Um.umalloc_serves hinv.sound hkm hbounded
  exact ⟨_, hrun⟩

def exampleKm (base : ℕ) : Kmallocs where
  alloc := .ok base
  insert := .ok (base + vpageTSize)
  realloc := .ok (base + 2 * vpageTSize)

def ExampleRoom (held : List ℕ) (base : ℕ) : Prop :=
  base + 3 * vpageTSize ≤ addressSpace ∧ ∀ i ∈ [0, 1, 2], base + i * vpageTSize ∉ held

instance (held : List ℕ) (base : ℕ) : Decidable (ExampleRoom held base) := by
  unfold ExampleRoom
  infer_instance

/-- Calls of `umalloc` one after the other, with descriptors that no region has. -/
def exampleCalls : List (ℕ × ℕ) → UmState → Result UmState
  | [], st => .ok st
  | (base, size) :: calls, st => do
    assert (size < addressSpace ∧ ExampleRoom (st.um.vpAlct.frees ++ st.um.vpAlct.lives) base)
    let (err, res, um) ← st.um.umalloc (exampleKm base) size
    exampleCalls calls ⟨um, if err = .ok then (res.toList.map fun a ↦ (a, size)) ++ st.granted
      else st.granted⟩

theorem exampleKm_fresh {base : ℕ} {s : VpageAlct} (h : ExampleRoom (s.frees ++ s.lives) base) :
    (exampleKm base).Fresh s := by
  obtain ⟨hbase, hheld⟩ := h
  have hfresh : ∀ i ∈ [0, 1, 2], s.Fresh (base + i * vpageTSize) := fun i hi ↦ by
    refine ⟨?_, hheld i hi⟩
    grind [VpageAlct.IsDesc]
  refine ⟨?_, ?_, ?_, by simp [exampleKm], by simp [exampleKm], by simp [exampleKm]⟩
  all_goals
    intro vp hvp
    cases hvp
  · simpa using hfresh 0 (by decide)
  · simpa using hfresh 1 (by decide)
  · exact ⟨hfresh 2 (by decide), by simp [exampleKm, vpageTSize]⟩

theorem exampleCalls_run {allowed : UmState → UmCall → Prop} {calls : List (ℕ × ℕ)} {st st' : UmState}
    (hrun : system.Run allowed st) (hcalls : exampleCalls calls st = .ok st')
    (hallowed : ∀ c ∈ calls, ∀ st, system.Run allowed st → allowed st (.umalloc (exampleKm c.1) c.2)) :
    system.Run allowed st' := by
  induction calls generalizing st with
  | nil =>
    obtain rfl : st = st' := Except.ok.inj hcalls
    exact hrun
  | cons call calls ih =>
    obtain ⟨_, hassert, hrest⟩ := bind_eq_ok.mp hcalls
    obtain ⟨hsize, hroom⟩ := assert_eq_ok.mp hassert
    obtain ⟨⟨err, res, um⟩, hcall, hrest⟩ := bind_eq_ok.mp hrest
    refine ih (.step hrun (hallowed call mem_cons_self st hrun) ?_) hrest fun c hc ↦
      hallowed c (mem_cons_of_mem _ hc)
    exact ⟨hsize, exampleKm_fresh hroom, err, res, um, hcall, rfl⟩

def exampleInit : UmState := ⟨Um.umInit ⟨initUvmlo, VmState.blank, ⟨0, fun _ ↦ 0⟩⟩, []⟩

/-- A small and a large request. -/
theorem bounded_run_contract_example :
    ∃ st, system.Run Bounded st ∧ st.granted = [(4096, 5000), (4, 1)] ∧ st.Contract := by
  have hresult : (exampleCalls [(0x1000, 1), (0x2000, 5000)] exampleInit).map granted =
      .ok [(4096, 5000), (4, 1)] := by decide +kernel
  obtain ⟨st, hcalls, hgranted⟩ := map_eq_ok.mp hresult
  have hrun : system.Run Bounded st := by
    refine exampleCalls_run (.init ⟨_, rfl⟩) hcalls fun c hc st' hst' ↦ ?_
    have hle : c.2 ≤ 5000 := by grind
    have hheap := (inv_of_run hst').sound.heap
    grind [hheap.heapE_lt, hheap.layout.heapE_eq, Bounded, kernBase, addressSpace, pageSize]
  exact ⟨st, hrun, hgranted, (bounded_run_contract hrun).1⟩

/-- The sum of the end of the heap and a size wraps in `um_heap_alloc`: the heap shrinks to nothing,
and the next request gets memory that an earlier one has. -/
theorem reachable_overlap : ∃ st, system.Reachable st ∧
      st.granted = [(0, 4096), (4096, 0xFFFFF000), (4, 1)] ∧ ¬ st.Contract := by
  have hresult : (exampleCalls [(0x1000, 1), (0x2000, 0xFFFFF000), (0x3000, 4096)] exampleInit).map
      granted = .ok [(0, 4096), (4096, 0xFFFFF000), (4, 1)] := by decide +kernel
  obtain ⟨st, hcalls, hgranted⟩ := map_eq_ok.mp hresult
  refine ⟨st, exampleCalls_run (.init ⟨_, rfl⟩) hcalls fun _ _ _ _ ↦ trivial, hgranted, fun hcontract ↦ ?_⟩
  simpa [hgranted] using hcontract.apart

end UmState

end Lanthorn
