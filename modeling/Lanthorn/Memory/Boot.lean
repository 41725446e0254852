import Lanthorn.Memory.Kmalloc
import Lanthorn.Memory.PmCanonical

/-!
# `memory_init`

The ranges of physical and of kernel addresses that the loader reports as free go into the two allocators,
each cut down to whole pages. `Boot.memoryInit` is the function with its 32-bit arithmetic;
`LargestPages` says what the cut should give.

The physical range arrives as it should, in blocks of different sizes (`PageAlct.TiledBy`). The size of the
kernel range is computed from the start of the physical range, so that it is right only if this makes no
difference (`Boot.memoryInit_exact_iff`).
-/

namespace Lanthorn

open Library

/-! ### Whole pages -/

/-- A range of words that does not wrap and contains a whole page. -/
structure WholePages (start size : ℕ) : Prop where
  word : size < addressSpace
  bound : start + size ≤ addressSpace
  page : ∃ page, page % pageSize = 0 ∧ start ≤ page ∧ page + pageSize ≤ start + size

/-- The `n` bytes at `a` are the largest part of a range that consists of pages. -/
structure LargestPages (start size a n : ℕ) : Prop where
  aligned : a % pageSize = 0
  pages : n % pageSize = 0
  inside : start ≤ a ∧ a + n ≤ start + size
  largest : ∀ page, page % pageSize = 0 → start ≤ page → page + pageSize ≤ start + size →
    a ≤ page ∧ page + pageSize ≤ a + n

def wordSub (a b : ℕ) : ℕ := (a + addressSpace - b) % addressSpace

/-- The cut that `memory_init` makes: a range from the first page of `start` on, up to the last page that
ends at `limit`. -/
def pagesSize (start limit : ℕ) : ℕ := wordSub (roundDown limit pageSize) (roundUp start pageSize)

section Pages

variable {start size : ℕ}

theorem LargestPages.unique {a n a' n' : ℕ} (hpages : WholePages start size)
    (h : LargestPages start size a n) (h' : LargestPages start size a' n') : a = a' ∧ n = n' := by
  obtain ⟨-, -, page, hpage, hfirst, hlast⟩ := hpages
  obtain ⟨haligned, hsized, ⟨hle, hbound⟩, hlargest⟩ := h
  obtain ⟨haligned', hsized', ⟨hle', hbound'⟩, hlargest'⟩ := h'
  have := hlargest page hpage hfirst hlast
  have := hlargest' page hpage hfirst hlast
  -- the first and the last page of either part are in the other one
  have := hlargest a' haligned' hle' (by omega)
  have := hlargest' a haligned hle (by omega)
  have := hlargest (a' + n' - pageSize) (by simp only [pageSize] at *; omega) (by omega) (by omega)
  have := hlargest' (a + n - pageSize) (by simp only [pageSize] at *; omega) (by omega) (by omega)
  omega

theorem largestPages (h : WholePages start size) :
    LargestPages start size (roundUp start pageSize) (pagesSize start (wordAdd start size)) := by
  obtain ⟨hword, hbound, page, hpage, hfirst, hlast⟩ := h
  constructor
  all_goals simp only [pagesSize, wordSub, wordAdd, roundUp, roundDown, pageSize, addressSpace] at *
  · omega
  · omega
  · omega
  · intro page' hpage' hfirst' hlast'
    omega

theorem pagesSize_inj {limit limit' : ℕ} (start : ℕ) (hlimit : limit < addressSpace)
    (hlimit' : limit' < addressSpace) :
    pagesSize start limit = pagesSize start limit' ↔ roundDown limit pageSize = roundDown limit' pageSize := by
  simp only [pagesSize, wordSub, roundUp, roundDown, pageSize, addressSpace] at *
  omega

end Pages

/-! ### The physical range -/

namespace PageAlct

/-- The free lists of the allocator hold, order by order, the blocks of a list that tiles the `size` bytes at
`addr`. No two blocks have the same order, and no block is live. -/
structure TiledBy (s : PageAlct) (addr size : ℕ) (blocks : List (ℕ × ℕ)) : Prop where
  orders : (blocks.map (·.2)).Nodup
  apart : blocks.Pairwise fun b b' ↦ b.1 + 2 ^ b.2 * pageSize ≤ b'.1 ∨ b'.1 + 2 ^ b'.2 * pageSize ≤ b.1
  cover : ∀ x, CoveredBy blocks x ↔ addr ≤ x ∧ x < addr + size
  order_lt : ∀ b ∈ blocks, b.2 < nrBuddyOrder
  lists : ∃ free : ℕ → List ℕ, ∀ k < nrBuddyOrder, IsRing s.list (s.headAt k) (listNodes (free k)) ∧
    ((free k).map s.addr).Perm ((blocks.filter (·.2 = k)).map (·.1)) ∧
    ∀ p ∈ free k, s.state p = .free ∧ s.size p = pageSize * 2 ^ k
  live : s.allocedRoot = 0

section Range

variable {addr size : ℕ}

theorem testBit_of_mem_rangeBlocks {i : ℕ} {b : ℕ × ℕ} (h : b ∈ rangeBlocks addr size i) :
    b.2 < i ∧ (size / pageSize).testBit b.2 = true := by
  induction i with
  | zero => simp [rangeBlocks] at h
  | succ i ih =>
    rw [rangeBlocks] at h
    split_ifs at h with hbit
    · obtain rfl | h := List.mem_cons.mp h
      · exact ⟨Nat.lt_succ_self i, hbit⟩
      · exact ⟨(ih h).1.trans (Nat.lt_succ_self i), (ih h).2⟩
    · exact ⟨(ih h).1.trans (Nat.lt_succ_self i), (ih h).2⟩

theorem nodup_rangeBlocks (i : ℕ) : ((rangeBlocks addr size i).map (·.2)).Nodup := by
  induction i with
  | zero => simp [rangeBlocks]
  | succ i ih =>
    rw [rangeBlocks]
    split_ifs with hbit
    · refine List.nodup_cons.mpr ⟨fun hmem ↦ ?_, ih⟩
      obtain ⟨b, hb, heq⟩ := List.mem_map.mp hmem
      exact (testBit_of_mem_rangeBlocks hb).1.ne heq
    · exact ih

theorem apart_rangeBlocks (i : ℕ) : (rangeBlocks addr size i).Pairwise fun b b' ↦
    b.1 + 2 ^ b.2 * pageSize ≤ b'.1 ∨ b'.1 + 2 ^ b'.2 * pageSize ≤ b.1 := by
  induction i with
  | zero => simp [rangeBlocks]
  | succ i ih =>
    rw [rangeBlocks]
    split_ifs with hbit
    · refine List.pairwise_cons.mpr ⟨fun b hb ↦ .inr ?_, ih⟩
      have hpos : 0 < 2 ^ b.2 * pageSize := Nat.mul_pos (Nat.two_pow_pos _) (by decide)
      have hlast := (coveredBy_rangeBlocks addr size i (b.1 + 2 ^ b.2 * pageSize - 1)).mp
        ⟨b, hb, by omega, by omega⟩
      simp only
      omega
    · exact ih

theorem length_rangeBlocks (addr : ℕ) (hword : size < addressSpace) (i : ℕ) :
    (rangeBlocks addr size i).length < nrBuddyOrder := by
  have hpages : size / pageSize < 2 ^ 20 := by
    simp only [pageSize, addressSpace] at *
    omega
  have hle : ((rangeBlocks addr size i).map (·.2)).length ≤ 20 := by
    refine length_le_of_nodup (nodup_rangeBlocks i) fun k hk ↦ ?_
    obtain ⟨b, hb, rfl⟩ := List.mem_map.mp hk
    by_contra hge
    have hbit := (testBit_of_mem_rangeBlocks hb).2
    rw [Nat.testBit_eq_false_of_lt (hpages.trans_le (Nat.pow_le_pow_right (by decide) (by omega)))] at hbit
    cases hbit
  rw [List.length_map] at hle
  exact Nat.lt_succ_of_le hle

variable {lay : Layout} {s : PageAlct} {g : Contents} {live : List ℕ} {covered : ℕ → Prop}

theorem Valid.pool_ring (h : Valid lay s g live covered) : IsRing s.slots s.slotAlct.freeSlotHead g.slots := by
  rw [h.buddy.slot_eq]
  exact h.buddy.rings.pool_ring

theorem pmInsert_enough (h : Valid lay s g live covered) (haddr : addr % pageSize = 0)
    (hsize : size % pageSize = 0) (hpos : 0 < size) (hword : size < addressSpace)
    (hbound : addr + size ≤ addressSpace) (hnew : ∀ x, addr ≤ x → x < addr + size → ¬ covered x)
    (hslots : nrBuddyOrder ≤ g.slots.length) : ∃ s', s.pmInsert addr size = .ok (.ok, s') := by
  have hstart : Valid lay s g live fun x ↦ covered x ∨ CoveredBy [] x := by
    convert h using 2 with x
    simp [CoveredBy]
  obtain ⟨err, s', hrun, ⟨rfl, hempty, k, g', hvalid, hlength⟩ | ⟨rfl, -⟩⟩ := pmInsert_rule
    (P := fun s bs ↦ ∃ g', (Valid lay s g' live fun x ↦ covered x ∨ CoveredBy bs x) ∧
      g'.slots.length + bs.length = g.slots.length)
    (F := fun s ↦ IsRing s.slots s.slotAlct.freeSlotHead [])
    (fun {s bs a i} hkept hi haligned hbound hsmall hnew ↦ by
      obtain ⟨g', hvalid, hlength⟩ := hkept
      obtain ⟨hempty, hnone⟩ | ⟨page, s', g'', hrun, hadded, hvalid'⟩ :=
        pmInsertBlock_valid hvalid hi haligned hbound hsmall hnew
      · exact .inl ⟨hempty ▸ hvalid.pool_ring, hnone⟩
      · refine .inr ⟨s', hrun, g'', ?_, ?_⟩
        all_goals grind [coveredBy_cons, hadded.slots])
    ⟨g, hstart, by simp⟩ haddr hsize hpos hword hbound hnew
  · -- the pool is empty after at most as many blocks as there are bits
    have hnil : [] = g'.slots := hempty.unique hvalid.pool_ring
    have hblocks := length_rangeBlocks addr hword k
    rw [← hnil, List.length_nil] at hlength
    omega
  · exact ⟨s', hrun⟩

theorem allocedRoot_eq_zero (h : Valid lay s g [] covered) : s.allocedRoot = 0 := by
  obtain ⟨T, hT, -, hinorder⟩ := h.tree
  cases T with
  | nil => exact hT.root_eq
  | node a l r c => simp [rbtNodes] at hinorder

theorem pmInsert_tiled {pool poolSize : ℕ} (hargs : InitArgs s pool poolSize)
    (hpool : nrBuddyOrder ≤ (poolSize - nrBuddyOrder * listNodeSize) / pageTSize)
    (haddr : addr % pageSize = 0) (hsize : size % pageSize = 0) (hpos : 0 < size)
    (hword : size < addressSpace) (hbound : addr + size ≤ addressSpace) :
    ∃ s₁ s₂, s.pmInit pool poolSize = .ok (.ok, s₁) ∧ s₁.pmInsert addr size = .ok (.ok, s₂) ∧
      s₂.TiledBy addr size (rangeBlocks addr size nrBuddyOrder) := by
  obtain ⟨s₁, g, hinit, hnone, hvalid⟩ := pmInit_valid hargs
  have hdescs : hargs.layout.descs.length ≤ g.slots.length := by
    have hnodup : hargs.layout.descs.Nodup := nodup_slotsFrom _ _ (by decide)
    refine (hnodup.subperm fun p hp ↦ ?_).length_le
    grind [hvalid.buddy.all]
  have hslots : nrBuddyOrder ≤ g.slots.length := by grind [Layout.descs, slotsFrom, InitArgs.layout]
  obtain ⟨s₂, hinsert⟩ := pmInsert_enough hvalid haddr hsize hpos hword hbound (by simp) hslots
  have hcanon : Canonical s₁ g.used [] := ⟨fun p hp ↦ absurd hp (hnone p), fun p hp ↦ absurd hp (hnone p), [],
    by simp, by simp [hnone], by simp⟩
  obtain ⟨g', hvalid', hcanon'⟩ :=
    pmInsert_canonical hvalid hcanon haddr hsize hpos hword hbound (by simp) hinsert
  rw [List.append_nil] at hcanon'
  refine ⟨s₁, s₂, hinit, hinsert, nodup_rangeBlocks _, apart_rangeBlocks _, coveredBy_range hsize hword,
    fun b hb ↦ (testBit_of_mem_rangeBlocks hb).1, ⟨g'.free, fun k hk ↦ ⟨?_, hcanon'.free_perm hvalid' hk, ?_⟩⟩,
    allocedRoot_eq_zero hvalid'⟩
  · rw [hvalid'.buddy.headAt_eq]
    exact hvalid'.buddy.rings.free_ring k hk
  grind [hvalid'.buddy.free_iff, hvalid'.buddy.tiles.size_eq]

end Range

end PageAlct

/-! ### The kernel range -/

namespace VpageAlct

/-- The one region of the allocator is free and has the `size` bytes at `addr`. -/
structure HoldsRange (s : VpageAlct) (addr size : ℕ) : Prop where
  trees : Trees s s.frees s.lives 0
  live : s.lives = []
  free : s.frees.map (fun vp ↦ (s.addr vp, s.size vp)) = [(addr, size)]

theorem merge_alone {s : VpageAlct} {now fuel : ℕ} (hfuel : 0 < fuel)
    (hnext : Rbt.rbtNext s.tree now = .ok 0) (hprev : Rbt.rbtPrev s.tree now = .ok 0) :
    mergeNext now fuel s = .ok (s, false) ∧ mergePrev now fuel s = .ok s := by
  obtain ⟨fuel, rfl⟩ := Nat.exists_eq_add_one_of_ne_zero hfuel.ne'
  constructor
  · simp [mergeNext, hnext]
  · simp [mergePrev, hprev]

theorem vmInsert_first {s : VpageAlct} {vp addr size : ℕ} (hdesc : IsDesc vp) (haddr : addr % pageSize = 0)
    (hsize : size % pageSize = 0) :
    ∃ s', s.vmInit.vmInsert (.ok vp) addr size = .ok (.ok, s') ∧ s'.HoldsRange addr size := by
  have htrees := (vmInit_valid s).trees.setExtent_of_not_free (show vp ∉ [] by simp) addr size
  obtain ⟨t, mx, xs, ys, hinsert, hupdate, hnil, htrees', -⟩ :=
    insertFree_trees htrees .nil (by simp) hdesc (by simp)
  obtain ⟨rfl, rfl⟩ : xs = [] ∧ ys = [] := by simpa using hnil.symm
  obtain ⟨T, hT, -, hinorder, -⟩ := htrees'.free_tree
  have hnext := Rbt.rbtNext_eq hT (show T.inorder = [] ++ (vp + vpageRbtNode) :: [] from hinorder)
  have hprev := Rbt.rbtPrev_eq hT (show T.inorder = [] ++ (vp + vpageRbtNode) :: [] from hinorder)
  set s₁ : VpageAlct := { (s.vmInit.setExtent vp addr size).setFreeRbt t with mxSize := mx } with hs₁
  have hmerge : s₁.vmMerge vp = .ok s₁ := by
    obtain ⟨hforward, hback⟩ := merge_alone (s := s₁) (show 0 < addressSpace by decide) hnext hprev
    simp [vmMerge, hforward, hback]
  refine ⟨s₁, ?_, htrees'.frees_eq.symm ▸ htrees'.lives_eq.symm ▸ htrees', htrees'.lives_eq, ?_⟩
  · have hfree : (s.vmInit.setExtent vp addr size).vmInsertFree vp = (s₁.vmMerge vp).map (.ok, ·) := by
      simp [vmInsertFree, hinsert, setFreeRbt, hupdate, hs₁]
      rfl
    simp [vmInsert, haddr, hsize, vpageNew, hfree, hmerge, Except.map]
  · rw [htrees'.frees_eq]
    simp [hs₁, setFreeRbt, setExtent]

end VpageAlct

/-! ### Booting -/

/-- `CONFIG_NR_PMM_BUDDY_SLOT_PG`. -/
def nrPmmBuddySlotPg : ℕ := 128

/-- `CONFIG_NR_KVMM_BUDDY_SLOT_PG`. -/
def nrKvmmBuddySlotPg : ℕ := 128

/-- The memory of the kernel, and the pool from which `kvm_slot_alloc` takes descriptors. -/
structure Boot where
  mem : KernMem
  kvmSlotAlct : SlotAlct
  kvmSlots : Links ℕ

namespace Boot

/-- `kvm_slot_alloc`. -/
def kvmSlotAlloc (b : Boot) : Result (Except Errno ℕ × Boot) := do
  let (vp, slots) ← slotAlloc b.kvmSlots b.kvmSlotAlct
  let new := match vp with
    | none => .error .noslot
    | some vp => .ok vp
  return (new, { b with kvmSlots := slots })

/-- The first part of `memory_init`: the physical range, with the descriptors in `pm_slot`. -/
def initPmm (b : Boot) (pmSlot start size : ℕ) : Result (Errno × Boot) := do
  let (err, pm) ← b.mem.pmAlct.pmInit pmSlot (nrPmmBuddySlotPg * pageSize)
  if err ≠ .ok then return (err, { b with mem := { b.mem with pmAlct := pm } })
  else do
    let (err, pm) ← pm.pmInsert start size
    return (err, { b with mem := { b.mem with pmAlct := pm } })

/-- The second part of `memory_init`: the kernel range, with the descriptors in `kvm_slot`. -/
def initKvm (b : Boot) (kvmSlot start size : ℕ) : Result (Errno × Boot) := do
  let (alct, slots) := slotInit b.kvmSlots b.kvmSlotAlct vpageTSize
  let slots ← slotInsert slots alct kvmSlot (nrKvmmBuddySlotPg * pageSize)
  let (new, b) ← { b with kvmSlotAlct := alct, kvmSlots := slots }.kvmSlotAlloc
  let (err, kvm) ← b.mem.kvmAlct.vmInit.vmInsert new start size
  return (err, { b with mem := { b.mem with kvmAlct := kvm } })

/-- `memory_init`. The registration of the page fault handler at its end is left out. -/
def memoryInit (b : Boot) (pmSlot kvmSlot freePmmStart freePmmSize freeKvmStart freeKvmSize kernPde : ℕ) :
    Result (Errno × Boot) := do
  let (err, b) ← b.initPmm pmSlot (roundUp freePmmStart pageSize)
    (pagesSize freePmmStart (wordAdd freePmmStart freePmmSize))
  if err ≠ .ok then return (err, b)
  else do
    -- `ptb_init` of the first process
    let b := { b with mem := { b.mem with ptb := { b.mem.ptb with pde := kernPde, lock := false } } }
    let (err, b) ← b.initKvm kvmSlot (roundUp freeKvmStart pageSize)
      (pagesSize freeKvmStart (wordAdd freePmmStart freeKvmSize))
    if err ≠ .ok then return (err, b)
    else return (.ok, { b with mem := b.mem.setSlabAlct b.mem.slabAlct.slabInit })

/-- Where the linker puts `kvm_slot`: below the end of the address space, not at zero, and apart from the head
of the pool. -/
structure KvmSlot (alct : SlotAlct) (kvmSlot : ℕ) : Prop where
  slot_ne : kvmSlot ≠ 0
  bound : kvmSlot + nrKvmmBuddySlotPg * pageSize + vpageTSize < addressSpace
  head_ne : alct.freeSlotHead ≠ 0
  head_outside : alct.freeSlotHead < kvmSlot ∨ kvmSlot + nrKvmmBuddySlotPg * pageSize ≤ alct.freeSlotHead

/-- Where the linker puts `pm_slot` and `kvm_slot`. -/
structure Image (b : Boot) (pmSlot kvmSlot : ℕ) : Prop where
  pm : b.mem.pmAlct.InitArgs pmSlot (nrPmmBuddySlotPg * pageSize)
  kvm : KvmSlot b.kvmSlotAlct kvmSlot

variable {b : Boot} {pmSlot kvmSlot : ℕ}

theorem initPmm_tiled {addr size : ℕ} (himage : b.Image pmSlot kvmSlot) (haddr : addr % pageSize = 0)
    (hsize : size % pageSize = 0) (hpos : 0 < size) (hword : size < addressSpace)
    (hbound : addr + size ≤ addressSpace) :
    ∃ pm, b.initPmm pmSlot addr size = .ok (.ok, { b with mem := { b.mem with pmAlct := pm } }) ∧
      pm.TiledBy addr size (PageAlct.rangeBlocks addr size nrBuddyOrder) := by
  obtain ⟨s₁, s₂, hinit, hinsert, htiled⟩ :=
    PageAlct.pmInsert_tiled himage.pm (by decide) haddr hsize hpos hword hbound
  exact ⟨s₂, bind_eq_ok.mpr ⟨_, hinit, bind_eq_ok.mpr ⟨_, hinsert, rfl⟩⟩, htiled⟩

theorem kvmSlotAlloc_first (hslot : KvmSlot b.kvmSlotAlct kvmSlot) :
    ∃ slots slots', slotInsert (slotInit b.kvmSlots b.kvmSlotAlct vpageTSize).2
        (slotInit b.kvmSlots b.kvmSlotAlct vpageTSize).1 kvmSlot (nrKvmmBuddySlotPg * pageSize) = .ok slots ∧
      slotAlloc slots (slotInit b.kvmSlots b.kvmSlotAlct vpageTSize).1 = .ok (some kvmSlot, slots') := by
  obtain ⟨hne, hbound, hhead, houtside⟩ := hslot
  have hpool : IsRing (listInit b.kvmSlots b.kvmSlotAlct.freeSlotHead) b.kvmSlotAlct.freeSlotHead [] :=
    isRing_initHead _ _
  have hmem : ∀ x ∈ slotsFrom kvmSlot vpageTSize (nrKvmmBuddySlotPg * pageSize / vpageTSize),
      kvmSlot ≤ x ∧ x < kvmSlot + nrKvmmBuddySlotPg * pageSize := by grind [mem_slotsFrom, vpageTSize]
  obtain ⟨slots, hinsert, hring⟩ := slotInsert_ring ⟨vpageTSize, b.kvmSlotAlct.freeSlotHead⟩ kvmSlot
    (nrKvmmBuddySlotPg * pageSize) hpool (by simpa using hhead.symm) (by simp [vpageTSize]) hne
    (by simp only [vpageTSize, nrKvmmBuddySlotPg, pageSize] at hbound ⊢; omega) (fun x hx hhead' ↦ by grind)
  have hfirst : slotsFrom kvmSlot vpageTSize (nrKvmmBuddySlotPg * pageSize / vpageTSize) =
      kvmSlot :: slotsFrom (kvmSlot + vpageTSize) vpageTSize (nrKvmmBuddySlotPg * pageSize / vpageTSize - 1) :=
    slotsFrom_succ kvmSlot vpageTSize (nrKvmmBuddySlotPg * pageSize / vpageTSize - 1)
  rw [List.nil_append] at hring
  have hzero : 0 ∉ b.kvmSlotAlct.freeSlotHead ::
      slotsFrom kvmSlot vpageTSize (nrKvmmBuddySlotPg * pageSize / vpageTSize) := by grind
  dsimp only at hring
  rw [hfirst] at hring hzero
  obtain ⟨slots', halloc, -⟩ := slotAlloc_ring ⟨vpageTSize, b.kvmSlotAlct.freeSlotHead⟩ hring hzero
  exact ⟨slots, slots', hinsert, halloc⟩

theorem initKvm_holds {addr size : ℕ} (hslot : KvmSlot b.kvmSlotAlct kvmSlot) (haddr : addr % pageSize = 0)
    (hsize : size % pageSize = 0) :
    ∃ b', b.initKvm kvmSlot addr size = .ok (.ok, b') ∧ b'.mem.pmAlct = b.mem.pmAlct ∧
      b'.mem.kvmAlct.HoldsRange addr size := by
  obtain ⟨slots, slots', hinsert, halloc⟩ := kvmSlotAlloc_first hslot
  have hdesc : VpageAlct.IsDesc kvmSlot := by
    have := hslot.bound
    simp only [VpageAlct.IsDesc]
    omega
  obtain ⟨kvm, hrun, hholds⟩ := VpageAlct.vmInsert_first (s := b.mem.kvmAlct) hdesc haddr hsize
  refine ⟨⟨{ b.mem with kvmAlct := kvm }, (slotInit b.kvmSlots b.kvmSlotAlct vpageTSize).1, slots'⟩, ?_, rfl,
    hholds⟩
  exact bind_eq_ok.mpr ⟨_, hinsert, bind_eq_ok.mpr ⟨_, bind_eq_ok.mpr ⟨_, halloc, rfl⟩,
    bind_eq_ok.mpr ⟨_, hrun, rfl⟩⟩⟩

theorem memoryInit_run {pmmStart pmmSize : ℕ} (himage : b.Image pmSlot kvmSlot)
    (hpmm : WholePages pmmStart pmmSize) (kvmStart kvmSize kernPde : ℕ) :
    ∃ b', b.memoryInit pmSlot kvmSlot pmmStart pmmSize kvmStart kvmSize kernPde = .ok (.ok, b') ∧
      (∃ a n, LargestPages pmmStart pmmSize a n ∧ ∃ blocks, b'.mem.pmAlct.TiledBy a n blocks) ∧
      b'.mem.kvmAlct.HoldsRange (roundUp kvmStart pageSize) (pagesSize kvmStart (wordAdd pmmStart kvmSize)) := by
  have hlargest := largestPages hpmm
  obtain ⟨hword, hbound, page, hpage, hfirst, hlast⟩ := hpmm
  obtain ⟨haligned, hpages, ⟨hle, hend⟩, hall⟩ := hlargest
  have hin := hall page hpage hfirst hlast
  have hpos : 0 < pagesSize pmmStart (wordAdd pmmStart pmmSize) := by
    simp only [pageSize] at hin
    omega
  have hsize : pagesSize pmmStart (wordAdd pmmStart pmmSize) < addressSpace := Nat.mod_lt _ (by decide)
  obtain ⟨pm, hinit, htiled⟩ := initPmm_tiled himage haligned hpages hpos hsize (hend.trans hbound)
  obtain ⟨b', hkvm, hpm, hholds⟩ := initKvm_holds (b := ⟨⟨pm, b.mem.kvmAlct,
      { b.mem.ptb with pde := kernPde, lock := false }, b.mem.slabAlct⟩, b.kvmSlotAlct, b.kvmSlots⟩) himage.kvm
    (show roundUp kvmStart pageSize % pageSize = 0 from Nat.mul_mod_left _ _)
    (show pagesSize kvmStart (wordAdd pmmStart kvmSize) % pageSize = 0 by
      simp only [pagesSize, wordSub, roundUp, roundDown, pageSize, addressSpace]
      omega)
  rw [← show b'.mem.pmAlct = pm from hpm] at htiled
  refine ⟨{ b' with mem := b'.mem.setSlabAlct b'.mem.slabAlct.slabInit }, ?_,
    ⟨_, _, ⟨haligned, hpages, ⟨hle, hend⟩, hall⟩, _, htiled⟩, hholds⟩
  exact bind_eq_ok.mpr ⟨_, hinit, bind_eq_ok.mpr ⟨_, hkvm, rfl⟩⟩

theorem holdsRange_unique {s : VpageAlct} {addr size addr' size' : ℕ} (h : s.HoldsRange addr size)
    (h' : s.HoldsRange addr' size') : addr = addr' ∧ size = size' := by simpa using h.free.symm.trans h'.free

/-- `memory_init` succeeds and tiles the whole pages of the physical range. The kernel region allocator gets
the whole pages of its range exactly if the end of the range is on the same page when it is computed from the
start of the physical range. -/
theorem memoryInit_exact_iff {pmmStart pmmSize kvmStart kvmSize : ℕ} (himage : b.Image pmSlot kvmSlot)
    (hpmm : WholePages pmmStart pmmSize) (hkvm : WholePages kvmStart kvmSize) (kernPde : ℕ) :
    ∃ b', b.memoryInit pmSlot kvmSlot pmmStart pmmSize kvmStart kvmSize kernPde = .ok (.ok, b') ∧
      (∃ a n, LargestPages pmmStart pmmSize a n ∧ ∃ blocks, b'.mem.pmAlct.TiledBy a n blocks) ∧
      ((∃ a n, LargestPages kvmStart kvmSize a n ∧ b'.mem.kvmAlct.HoldsRange a n) ↔
        roundDown (wordAdd pmmStart kvmSize) pageSize = roundDown (wordAdd kvmStart kvmSize) pageSize) := by
  obtain ⟨b', hrun, htiled, hholds⟩ := memoryInit_run himage hpmm kvmStart kvmSize kernPde
  refine ⟨b', hrun, htiled, ?_⟩
  have hword : ∀ x, wordAdd x kvmSize < addressSpace := fun x ↦ Nat.mod_lt _ (by decide)
  rw [← pagesSize_inj kvmStart (hword _) (hword _)]
  have hlargest := largestPages hkvm
  grind [hlargest.unique, holdsRange_unique]

/-- A kernel whose pools are at `0xC0100000` and `0xC0200000`. -/
def exampleBoot : Boot where
  mem := ⟨PmState.blank 0xC0080000, VmState.blank, ⟨PhysMem.blank, 0, false⟩, ⟨0, fun _ ↦ 0⟩⟩
  kvmSlotAlct := ⟨0, 0xC0080100⟩
  kvmSlots := ⟨fun _ ↦ 0, fun _ ↦ 0⟩

theorem exampleBoot_image : exampleBoot.Image 0xC0100000 0xC0200000 := by
  refine ⟨⟨?_, ?_, ?_, ?_, ?_⟩, ⟨?_, ?_, ?_, ?_⟩⟩ <;> decide

theorem wholePages_pmm : WholePages 0x500000 0x400000 :=
  ⟨by decide, by decide, 0x500000, by decide, by decide, by decide⟩

theorem wholePages_kvm : WholePages 0xC0400000 0x3DC00000 :=
  ⟨by decide, by decide, 0xC0400000, by decide, by decide, by decide⟩

/-- A range that both starts put on the same last page. -/
theorem memoryInit_exact_example :
    ∃ b', exampleBoot.memoryInit 0xC0100000 0xC0200000 0x500000 0x400000 0x500800 0x400000 0x1000 = .ok (.ok, b') ∧
      (∃ a n, LargestPages 0x500000 0x400000 a n ∧ ∃ blocks, b'.mem.pmAlct.TiledBy a n blocks) ∧
      ∃ a n, LargestPages 0x500800 0x400000 a n ∧ b'.mem.kvmAlct.HoldsRange a n := by
  obtain ⟨b', hrun, htiled, hiff⟩ := memoryInit_exact_iff exampleBoot_image wholePages_pmm
    (show WholePages 0x500800 0x400000 from ⟨by decide, by decide, 0x501000, by decide, by decide, by decide⟩)
    0x1000
  exact ⟨b', hrun, htiled, hiff.mpr (by decide)⟩

/-- The ranges of a machine: the kernel region allocator gets a region of two gigabytes that begins at
`0xC0400000` and ends, beyond the end of the address space, at `0x3E100000`. -/
theorem memoryInit_oversized :
    ∃ b', exampleBoot.memoryInit 0xC0100000 0xC0200000 0x500000 0x400000 0xC0400000 0x3DC00000 0x1000 =
        .ok (.ok, b') ∧
      b'.mem.kvmAlct.HoldsRange 0xC0400000 0x7DD00000 ∧ LargestPages 0xC0400000 0x3DC00000 0xC0400000 0x3DC00000 ∧
      ¬ ∃ a n, LargestPages 0xC0400000 0x3DC00000 a n ∧ b'.mem.kvmAlct.HoldsRange a n := by
  obtain ⟨b', hrun, -, hholds⟩ := memoryInit_run exampleBoot_image wholePages_pmm 0xC0400000
    0x3DC00000 0x1000
  have hstart : roundUp 0xC0400000 pageSize = 0xC0400000 := by decide
  have hsize : pagesSize 0xC0400000 (wordAdd 0x500000 0x3DC00000) = 0x7DD00000 := by decide
  have hright : pagesSize 0xC0400000 (wordAdd 0xC0400000 0x3DC00000) = 0x3DC00000 := by decide
  have hlargest := largestPages wholePages_kvm
  grind [hlargest.unique, wholePages_kvm, holdsRange_unique]

end Boot

end Lanthorn
