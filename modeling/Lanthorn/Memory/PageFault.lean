import Lanthorn.Memory.Phyops
import Lanthorn.Memory.Ptb
import Lanthorn.Memory.UmRegions

/-!
# Page faults of a process

`um_page_fault_hdl` of `um.c` over the regions and the page tables of a process, and runs of `umalloc`
and of page faults. An allocated region has no page (`UM_NOPM`) until a fault in it cuts out the page that
was hit and maps a new physical page there (`UM_NORMAL`).

In runs whose requests fit below `2 ^ 32`, the page tables agree with the regions in every state, and
a fault changes what it should (`Paged.bounded_run_paging`). A request that wraps makes a region without
pages that reaches over mapped ones (`Paged.reachable_mapped_nopm`).
-/

namespace Lanthorn

open Function Library

/-- `args_s` and `args_e` of the layout, which `init_uvmlo` sets and nothing changes. -/
def argsS : ℕ := kernBase - pageSize
def argsE : ℕ := kernBase

structure Paged where
  um : Um
  /-- The address of the page `map_page` of a descriptor. -/
  mapPage : ℕ → ℕ
  ptb : Ptb

/-- What the allocators return in the course of one fault: `kmalloc` to the cuts of `vm_slice`, and
`page_alloc` to the handler and to `ptb_map`. -/
structure FaultAllocs where
  new₁ : Except Errno ℕ
  new₂ : Except Errno ℕ
  page : Option ℕ
  table : Option ℕ

namespace PhysMem

/-- `phyops_memcpy_v2p` of a page, from the frame where the address is mapped. -/
def memcpyV2p (m : PhysMem) (pde pa va : ℕ) : Result PhysMem := do
  let (_, src) ← m.mmuV2p pde va
  match src with
  | none => throw .unset
  | some src => return m.memcpyP2p pa src

theorem memcpyV2p_eq_ok {m m' : PhysMem} {pde pa va : ℕ} (h : m.memcpyV2p pde pa va = .ok m') :
    ∃ src, m.mmuV2p pde va = .ok (.ok, some src) ∧ src % pageSize = 0 ∧ m' = m.memcpyP2p pa src := by
  obtain ⟨⟨err, _ | src⟩, hv2p, hrun⟩ := bind_eq_ok.mp h
  · cases hrun
  · cases hrun
    have hresult := hv2p
    obtain ⟨pte, hpte, hrun⟩ := bind_eq_ok.mp hv2p
    split_ifs at hrun
    · cases hrun
    · obtain ⟨entry, hentry, hrun⟩ := bind_eq_ok.mp hrun
      split_ifs at hrun
      · cases hrun
      · cases hrun
        obtain ⟨-, -, hword⟩ := bind_eq_ok.mp hentry
        cases hword
        refine ⟨_, hresult, ?_, rfl⟩
        rw [pxeAddr_eq (m.word_lt _)]
        exact Nat.mul_mod_left _ _

end PhysMem

/-- On a page that is mapped `phyops_memcpy_v2p` is `PhysMem.memcpyV2p`.

Assumes: the processor reads the page through the mapping, and the frame is not the destination. -/
theorem Windows.phyopsMemcpyV2p_page {s : Windows} {m m' : PhysMem} {translate : ℕ → ℕ} {pde pa va : ℕ}
    (h : s.Holds m) (hunlocked : s.Unlocked) (hrun : m.memcpyV2p pde pa va = .ok m') (hpa : pa % pageSize = 0)
    (htranslate : ∀ src, m.mmuV2p pde va = .ok (.ok, some src) →
      src ≠ pa ∧ ∀ i < pageSize, translate (va + i) = src + i)
    (hp : pa + pageSize ≤ lastPage) (hv : va + pageSize ≤ lastPage) :
    ∃ s', phyopsMemcpyV2p translate s pa va pageSize = .ok s' ∧ s'.Unlocked ∧ s'.Holds m' := by
  obtain ⟨src, hv2p, hsrc, rfl⟩ := PhysMem.memcpyV2p_eq_ok hrun
  obtain ⟨hne, htranslate⟩ := htranslate src hv2p
  have hdisjoint : ∀ i < pageSize, ∀ j < pageSize, translate (va + i) ≠ pa + j := fun i hi j hj ↦ by
    rw [htranslate i hi]
    simp only [pageSize] at *
    omega
  obtain ⟨s', hrun, -, hunlocked', hcopied⟩ := phyopsMemcpyV2p_copies hunlocked hp hv hdisjoint
  refine ⟨s', hrun, hunlocked', h.memcpyP2p hpa hsrc ⟨fun i hi ↦ ?_, hcopied.others⟩⟩
  rw [hcopied.copied i hi, htranslate i hi]

namespace Paged

def setVpAlct (s : Paged) (alct : VpageAlct) : Paged := { s with um := s.um.setVpAlct alct }

def lives (s : Paged) : List ℕ := s.um.vpAlct.lives

/-- `map_page` and the type of a region that has got a page. -/
def setNormal (s : Paged) (vp page : ℕ) : Paged where
  um := s.um.setVpAlct { s.um.vpAlct with type := update s.um.vpAlct.type vp .umNormal }
  mapPage := update s.mapPage vp page
  ptb := s.ptb

/-- `page_alloc`, `ptb_map` at the start of a region, and the new state of the region. -/
def mapRegion (s : Paged) (a : FaultAllocs) (vp page : ℕ) : Result (Errno × Paged) := do
  let (err, ptb) ← s.ptb.ptbMap a.table (s.um.vpAlct.addr vp) page 1 1
  let s := { s with ptb := ptb }
  if err ≠ .ok then return (err, s) else return (.ok, s.setNormal vp page)

/-- The branch of `um_page_fault_hdl` on `UM_NOPM`. -/
def faultNopm (s : Paged) (a : FaultAllocs) (vp errva : ℕ) : Result (Errno × Paged) := do
  let (err, tmp, alct) ← s.um.vpAlct.vmSlice a.new₁ a.new₂ vp (roundDown errva pageSize) pageSize
  let s := s.setVpAlct alct
  match err, tmp with
  | .ok, some vp =>
    match a.page with
    | none => return (.nomem, s)
    | some page => s.mapRegion a vp page
  | err, _ => return (err, s)

/-- The branch of `um_page_fault_hdl` on `UM_RCU`. -/
def faultRcu (s : Paged) (a : FaultAllocs) (vp errva : ℕ) : Result (Errno × Paged) :=
  match a.page with
  | none => return (.nomem, s)
  | some page => do
    let m ← s.ptb.mem.memcpyV2p s.ptb.pde page (roundDown errva pageSize)
    let (err, ptb) ← ({ s.ptb with mem := m } : Ptb).ptbUnmap (s.um.vpAlct.addr vp)
    assert (err = .ok)
    { s with ptb := ptb }.mapRegion a vp page

/-- The branch of `um_page_fault_hdl` on the page of the arguments. -/
def faultArgs (s : Paged) (a : FaultAllocs) : Result (Errno × Paged) :=
  match a.page with
  | none => return (.nomem, s)
  | some page => do
    let (err, ptb) ← s.ptb.ptbMap a.table argsS page 1 1
    return (err, { s with ptb := ptb })

/-- `um_page_fault_hdl`. -/
def umPageFaultHdl (s : Paged) (a : FaultAllocs) (errva : ℕ) : Result (Errno × Paged) :=
  if argsS ≤ errva ∧ errva < argsE then s.faultArgs a
  else if errva < s.um.layout.heapS ∨ errva ≥ s.um.layout.heapE then throw .panic
  else do
    let vp ← s.um.vpAlct.vmSearchAddr errva
    match vp with
    | none => return (.notfound, s)
    | some vp =>
      match s.um.vpAlct.type vp with
      | .umNopm => s.faultNopm a vp errva
      | .umNormal => throw .endless
      | .umRcu => s.faultRcu a vp errva
      | .kmNormal => throw .panic

/-! ### Runs -/

/-- A page that is not in use: neither in the page tables nor mapped by a region. -/
def FreePage (s : Paged) (p : ℕ) : Prop :=
  s.ptb.Unused p ∧ ∀ q ∈ s.lives, s.um.vpAlct.type q = .umNormal → s.mapPage q ≠ p

/-- The calls, with what the allocators return. Those of a fault succeed. -/
inductive Action
  | umalloc (km : Kmallocs) (size : ℕ)
  | fault (new₁ new₂ page table errva : ℕ)

def Supplied (s : Paged) (new₁ new₂ page table : ℕ) : Prop :=
  s.um.vpAlct.Fresh new₁ ∧ s.um.vpAlct.Fresh new₂ ∧ new₁ ≠ new₂ ∧ s.FreePage page ∧ s.FreePage table ∧ page ≠ table

/-- The calls of a process, from `um_init` and `ptb_setup` on. -/
def system : System Paged Action where
  init s := (∃ um : Um, s.um = um.umInit) ∧ Ptb.system.init s.ptb
  step s a s' :=
    match a with
    | .umalloc km size => size < addressSpace ∧ km.Fresh s.um.vpAlct ∧ ∃ err res um',
        s.um.umalloc km size = .ok (err, res, um') ∧ s' = { s with um := um' }
    | .fault new₁ new₂ page table errva => s.Supplied new₁ new₂ page table ∧ ∃ err,
        s.umPageFaultHdl ⟨.ok new₁, .ok new₂, some page, some table⟩ errva = .ok (err, s')

/-- The requests that fit below `2 ^ 32` when they are put behind the heap and rounded up. -/
def Bounded (s : Paged) : Action → Prop
  | .umalloc _ size => s.um.layout.freeS + size ≤ addressSpace - pageSize
  | .fault _ _ _ _ _ => True

/-- What a fault at `errva` does: the page of `errva` becomes a region with the physical page, and all
other allocated bytes and all other translations stay as they are. -/
structure TurnsPage (s s' : Paged) (errva page : ℕ) : Prop where
  turned : ∃ vp ∈ s'.lives, s'.um.vpAlct.addr vp = roundDown errva pageSize ∧
    s'.um.vpAlct.size vp = pageSize ∧ s'.um.vpAlct.type vp = .umNormal ∧ s'.mapPage vp = page ∧
    s'.ptb.v2p (roundDown errva pageSize) = .ok (.ok, some page)
  types : ∀ x t, roundDown x pageSize ≠ roundDown errva pageSize →
    (s'.um.vpAlct.TypeAt s'.lives x t ↔ s.um.vpAlct.TypeAt s.lives x t)
  regions : ∀ q ∈ s.lives, ¬ InRegion s.um.vpAlct.addr s.um.vpAlct.size q errva → q ∈ s'.lives ∧
    s'.um.vpAlct.addr q = s.um.vpAlct.addr q ∧ s'.um.vpAlct.size q = s.um.vpAlct.size q ∧
    s'.um.vpAlct.type q = s.um.vpAlct.type q ∧ s'.mapPage q = s.mapPage q
  translations : ∀ va, Ptb.PageAddr va → s.ptb.Plain va → va ≠ roundDown errva pageSize →
    s'.ptb.v2p va = s.ptb.v2p va

/-- The regions and the page tables agree, and a fault in a region without a page does what it
should. -/
structure Contract (s : Paged) : Prop where
  normal : ∀ p ∈ s.lives, s.um.vpAlct.type p = .umNormal → s.um.vpAlct.size p = pageSize ∧
    s.ptb.v2p (s.um.vpAlct.addr p) = .ok (.ok, some (s.mapPage p))
  apart : ∀ p ∈ s.lives, ∀ q ∈ s.lives, s.um.vpAlct.type p = .umNormal →
    s.um.vpAlct.type q = .umNormal → s.mapPage p = s.mapPage q → p = q
  nopm : ∀ p ∈ s.lives, s.um.vpAlct.type p = .umNopm → ∀ va, va % pageSize = 0 →
    InRegion s.um.vpAlct.addr s.um.vpAlct.size p va → s.ptb.v2p va = .ok (.notfound, none)
  fault : ∀ p ∈ s.lives, s.um.vpAlct.type p = .umNopm → ∀ errva,
    InRegion s.um.vpAlct.addr s.um.vpAlct.size p errva → ∀ new₁ new₂ page table,
    s.Supplied new₁ new₂ page table → ∃ s',
      s.umPageFaultHdl ⟨.ok new₁, .ok new₂, some page, some table⟩ errva = .ok (.ok, s') ∧
      TurnsPage s s' errva page

/-! ### The invariant -/

/-- The regions and the page tables agree below the page of the arguments. -/
structure Inv (s : Paged) : Prop where
  sound : s.um.Sound
  ptb : s.ptb.Inv
  plain : ∀ va < kernBase, s.ptb.Plain va
  types : ∀ p ∈ s.lives, s.um.vpAlct.type p = .umNopm ∨ s.um.vpAlct.type p = .umNormal
  normal : ∀ p ∈ s.lives, s.um.vpAlct.type p = .umNormal → s.um.vpAlct.size p = pageSize ∧
    s.ptb.v2p (s.um.vpAlct.addr p) = .ok (.ok, some (s.mapPage p))
  apart : ∀ p ∈ s.lives, ∀ q ∈ s.lives, s.um.vpAlct.type p = .umNormal →
    s.um.vpAlct.type q = .umNormal → s.mapPage p = s.mapPage q → p = q
  mapped : ∀ va, va % pageSize = 0 → va < argsS → (s.ptb.entryAt va).isSome →
    ∃ p ∈ s.lives, s.um.vpAlct.type p = .umNormal ∧ s.um.vpAlct.addr p = va

section Steps

variable {s s' : Paged} {new₁ new₂ page table errva : ℕ}

theorem Inv.valid (h : s.Inv) : ∃ free covered, s.um.vpAlct.Valid free s.lives covered ∧ s.um.layout.heapE ≤ argsS ∧
    ∀ p ∈ s.lives, s.um.vpAlct.addr p % pageSize = 0 ∧ s.um.vpAlct.size p % pageSize = 0 ∧
      0 < s.um.vpAlct.size p ∧ s.um.vpAlct.addr p + s.um.vpAlct.size p ≤ s.um.layout.heapE := by
  obtain ⟨hlayout, free, live, covered, hvalid, hbelow⟩ := h.sound.heap
  obtain rfl : s.lives = live := hvalid.trees.lives_eq
  have hheapE : s.um.layout.heapE ≤ argsS := by
    rw [hlayout.heapE_eq]
    exact hlayout.freeS_le.trans hlayout.freeE_le
  refine ⟨free, covered, hvalid, hheapE, fun p hp ↦ ?_⟩
  have hmem : p ∈ free ++ s.lives := List.mem_append_right _ hp
  have hpos := hvalid.regions.pos p hmem
  refine ⟨hvalid.regions.start_unit p hmem, hvalid.regions.len_unit p hmem, hpos, ?_⟩
  have hlast := hbelow (s.um.vpAlct.addr p + s.um.vpAlct.size p - 1)
    ((hvalid.regions.cover _).mpr ⟨p, hmem, by unfold InRegion; omega⟩)
  omega

variable {p res : ℕ} {err : Errno}

theorem Inv.eq_of_common (h : s.Inv) {q x : ℕ} (hp : p ∈ s.lives) (hq : q ∈ s.lives)
    (hxp : InRegion s.um.vpAlct.addr s.um.vpAlct.size p x)
    (hxq : InRegion s.um.vpAlct.addr s.um.vpAlct.size q x) : p = q := by
  obtain ⟨free, covered, hvalid, -⟩ := h.valid
  exact hvalid.regions.eq_of_common (List.mem_append_right _ hp) (List.mem_append_right _ hq) hxp hxq

theorem Inv.entryAt_nopm (h : s.Inv) {va : ℕ} (hp : p ∈ s.lives)
    (htype : s.um.vpAlct.type p = .umNopm) (hva : va % pageSize = 0)
    (hin : InRegion s.um.vpAlct.addr s.um.vpAlct.size p va) : s.ptb.entryAt va = none := by
  obtain ⟨-, -, -, hheapE, hregion⟩ := h.valid
  have hlt : va < argsS := by
    have hend := (hregion p hp).2.2.2
    unfold InRegion at hin
    omega
  grind [h.mapped, Option.ne_none_iff_isSome, h.eq_of_common, InRegion]

theorem Inv.page_in_region (h : s.Inv) (hp : p ∈ s.lives)
    (hin : InRegion s.um.vpAlct.addr s.um.vpAlct.size p errva) : s.um.vpAlct.addr p ≤ roundDown errva pageSize ∧
      roundDown errva pageSize + pageSize ≤ s.um.vpAlct.addr p + s.um.vpAlct.size p := by
  grind [h.valid, InRegion, roundDown, pageSize]

/-- A region `p` without a page is cut, and the piece `res` gets a physical page. -/
structure Turned (s s' : Paged) (p res base page : ℕ) : Prop where
  mem : res ∈ s'.lives
  extent : s'.um.vpAlct.addr res = base ∧ s'.um.vpAlct.size res = pageSize
  type : s'.um.vpAlct.type res = .umNormal
  mapPage : s'.mapPage = update s.mapPage res page
  /-- The other regions. -/
  rest : ∀ q ∈ s.lives, q ≠ p → q ≠ res ∧ q ∈ s'.lives ∧ s'.um.vpAlct.addr q = s.um.vpAlct.addr q ∧
    s'.um.vpAlct.size q = s.um.vpAlct.size q ∧ s'.um.vpAlct.type q = s.um.vpAlct.type q
  new : ∀ q ∈ s'.lives, q ≠ res → q ∈ s.lives ∧ q ≠ p ∨ s'.um.vpAlct.type q = .umNopm
  types : ∀ x t, ¬ (base ≤ x ∧ x < base + pageSize) →
    (s'.um.vpAlct.TypeAt s'.lives x t ↔ s.um.vpAlct.TypeAt s.lives x t)

theorem turned_setNormal (h : s.Inv) (hp : p ∈ s.lives)
    (hin : InRegion s.um.vpAlct.addr s.um.vpAlct.size p errva) {alct : VpageAlct}
    (hres : res ∈ alct.lives) (hrecut : s.um.vpAlct.Recut alct s.lives alct.lives p)
    (haddr : alct.addr res = roundDown errva pageSize) (hsize : alct.size res = pageSize)
    (htype : alct.type res = .umNopm) (page : ℕ) (ptb : Ptb) :
    Turned s (({ s.setVpAlct alct with ptb := ptb } : Paged).setNormal res page) p res
      (roundDown errva pageSize) page := by
  have hpage := h.page_in_region hp hin
  have hne : ∀ q ∈ s.lives, q ≠ p → q ≠ res := by grind [hrecut.rest, h.eq_of_common, roundDown, pageSize, InRegion]
  have hother : ∀ q, q ≠ res → (({ s.setVpAlct alct with ptb := ptb } : Paged).setNormal res
      page).um.vpAlct.type q = alct.type q := fun q hq ↦ update_of_ne hq _ _
  refine ⟨hres, ⟨haddr, hsize⟩, update_self _ _ _, rfl, fun q hq hqp ↦ ?_, fun q hq hqr ↦ ?_, fun x t hx ↦ ?_⟩
  · obtain ⟨hmem, haddr', hsize', htype'⟩ := hrecut.rest q hq hqp
    exact ⟨hne q hq hqp, hmem, haddr', hsize', (hother q (hne q hq hqp)).trans htype'⟩
  · rw [hother q hqr]
    exact hrecut.new q hq
  · -- a byte outside the page is in another piece than `res`
    have hnot : ∀ q ∈ alct.lives, InRegion alct.addr alct.size q x → q ≠ res := by
      rintro q - hin' rfl
      rw [InRegion, haddr, hsize] at hin'
      exact hx hin'
    rw [← hrecut.typeAt]
    constructor
    · rintro ⟨q, hq, hin', htype'⟩
      exact ⟨q, hq, hin', (hother q (hnot q hq hin')).symm.trans htype'⟩
    · rintro ⟨q, hq, hin', htype'⟩
      exact ⟨q, hq, hin', (hother q (hnot q hq hin')).trans htype'⟩

theorem Inv.pageAddr (h : s.Inv) {q : ℕ} (hq : q ∈ s.lives) :
    Ptb.PageAddr (s.um.vpAlct.addr q) ∧ s.um.vpAlct.addr q < argsS ∧
      InRegion s.um.vpAlct.addr s.um.vpAlct.size q (s.um.vpAlct.addr q) := by
  obtain ⟨-, -, -, hheapE, hregion⟩ := h.valid
  obtain ⟨haddr, -, hpos, hend⟩ := hregion q hq
  have hargs : argsS < addressSpace := by decide
  refine ⟨⟨haddr, ?_⟩, ?_, Nat.le_refl _, ?_⟩ <;> omega

theorem Turned.inv {base w : ℕ} (hturned : Turned s s' p res base page) (h : s.Inv)
    (hsound : s'.um.Sound) (hp : p ∈ s.lives) (hbase : Ptb.PageAddr base)
    (hin : InRegion s.um.vpAlct.addr s.um.vpAlct.size p base) (htype : s.um.vpAlct.type p = .umNopm)
    (hentered : Ptb.Entered s.ptb s'.ptb base (some w))
    (hv2p : s'.ptb.v2p base = .ok (.ok, some page)) (hfree : s.FreePage page) : s'.Inv := by
  -- a region with a page is `res` or an old one
  have hnormal : ∀ q ∈ s'.lives, s'.um.vpAlct.type q = .umNormal → q = res ∨ q ∈ s.lives ∧ q ≠ p ∧
      s.um.vpAlct.type q = .umNormal ∧ s'.um.vpAlct.addr q = s.um.vpAlct.addr q ∧
      s'.um.vpAlct.size q = s.um.vpAlct.size q ∧ s'.mapPage q = s.mapPage q := by
    intro q hq hq'
    by_cases hqr : q = res
    · exact .inl hqr
    · obtain ⟨hmem, hqp⟩ | hnopm := hturned.new q hq hqr
      · obtain ⟨-, -, haddr, hsize, htype'⟩ := hturned.rest q hmem hqp
        refine .inr ⟨hmem, hqp, htype' ▸ hq', haddr, hsize, ?_⟩
        rw [hturned.mapPage, update_of_ne hqr]
      · rw [hnopm] at hq'
        cases hq'
  have hne : ∀ q ∈ s.lives, q ≠ p → s.um.vpAlct.addr q ≠ base := by
    rintro q hq hqp rfl
    exact hqp (h.eq_of_common hq hp (h.pageAddr hq).2.2 hin)
  have hpage : s'.mapPage res = page := by rw [hturned.mapPage, update_self]
  refine ⟨hsound, hentered.inv, fun va hva ↦ hentered.plain va (h.plain va hva), fun q hq ↦ ?_,
    fun q hq hq' ↦ ?_, fun q hq r hr hq' hr' heq ↦ ?_, fun va hva hlt hsome ↦ ?_⟩
  case refine_1 =>
    grind [hturned.type, hturned.new, hturned.rest, h.types]
  case refine_2 =>
    grind [hturned.extent, h.pageAddr, h.plain, argsS, hentered.others, h.ptb, h.normal]
  case refine_3 =>
    obtain rfl | ⟨hmem, -, hold, -, -, hmap⟩ := hnormal q hq hq' <;>
      obtain rfl | ⟨hmem', -, hold', -, -, hmap'⟩ := hnormal r hr hr'
    · rfl
    · exact absurd (hmap'.symm.trans (heq.symm.trans hpage)) (hfree.2 r hmem' hold')
    · exact absurd (hmap.symm.trans (heq.trans hpage)) (hfree.2 q hmem hold)
    · exact h.apart q hmem r hmem' hold hold' (hmap.symm.trans (heq.trans hmap'))
  case refine_4 =>
    by_cases hvb : va = base
    · exact ⟨res, hturned.mem, hturned.type, hturned.extent.1.trans hvb.symm⟩
    · have hargs : argsS < addressSpace := by decide
      have hnot : ¬ (PhysMem.slotOf va = PhysMem.slotOf base ∧
          PhysMem.placeOf va = PhysMem.placeOf base) := fun heq ↦
        hvb (PhysMem.eq_of_slot_place hbase ⟨hva, by omega⟩ heq.1 heq.2)
      grind [Ptb.entryAt, hentered.lookup, h.mapped, hturned.rest]

theorem Turned.turnsPage {w : ℕ} (hturned : Turned s s' p res (roundDown errva pageSize) page)
    (h : s.Inv) (hin : InRegion s.um.vpAlct.addr s.um.vpAlct.size p errva)
    (hbase : Ptb.PageAddr (roundDown errva pageSize))
    (hentered : Ptb.Entered s.ptb s'.ptb (roundDown errva pageSize) (some w))
    (hv2p : s'.ptb.v2p (roundDown errva pageSize) = .ok (.ok, some page)) : TurnsPage s s' errva page := by
  refine ⟨⟨res, hturned.mem, hturned.extent.1, hturned.extent.2, hturned.type, ?_, hv2p⟩,
    fun x t hx ↦ hturned.types x t ?_, fun q hq hnot ↦ ?_, fun va hva hplain hne ↦
    hentered.others h.ptb hbase hva hplain hne⟩
  · rw [hturned.mapPage, update_self]
  · unfold roundDown pageSize at *
    omega
  · have hqp : q ≠ p := fun heq ↦ hnot (heq ▸ hin)
    obtain ⟨hqr, hmem, haddr, hsize, htype⟩ := hturned.rest q hq hqp
    exact ⟨hmem, haddr, hsize, htype, by rw [hturned.mapPage, update_of_ne hqr]⟩

theorem faultNopm_spec (h : s.Inv) (hp : p ∈ s.lives) (htype : s.um.vpAlct.type p = .umNopm)
    (hin : InRegion s.um.vpAlct.addr s.um.vpAlct.size p errva) (hsupplied : s.Supplied new₁ new₂ page table) :
    ∃ s', s.faultNopm ⟨.ok new₁, .ok new₂, some page, some table⟩ p errva = .ok (.ok, s') ∧ s'.Inv ∧
      TurnsPage s s' errva page := by
  obtain ⟨⟨hdesc₁, hnew₁⟩, ⟨hdesc₂, hnew₂⟩, hne, hpage, htable, -⟩ := hsupplied
  obtain ⟨free, covered, hvalid, hheapE, hregion⟩ := h.valid
  obtain ⟨hlow, hhigh⟩ := h.page_in_region hp hin
  have hunit : roundDown errva pageSize % pageSize = 0 := Nat.mul_mod_left _ _
  have hbase_lt : roundDown errva pageSize < argsS := by
    have hend := (hregion p hp).2.2.2
    have hpos : 0 < pageSize := by decide
    omega
  have hbase : Ptb.PageAddr (roundDown errva pageSize) :=
    ⟨hunit, hbase_lt.trans (show argsS < addressSpace by decide)⟩
  have hin_base : InRegion s.um.vpAlct.addr s.um.vpAlct.size p (roundDown errva pageSize) := by
    have hpos : 0 < pageSize := by decide
    unfold InRegion
    omega
  have hplain := h.plain _ (hbase_lt.trans (show argsS < kernBase by decide))
  -- the cut
  have hfrees := hvalid.trees.frees_eq
  obtain ⟨res, alct, live', hslice, hvalid', hres, hrecut, haddr, hsize, htype'⟩ :=
    VpageAlct.vmSlice_recut hvalid hp (hfrees ▸ hnew₁) hdesc₁ (hfrees ▸ hnew₂) hdesc₂ hne htype
      ⟨hunit, by decide⟩
      (by decide) hlow hhigh
  obtain rfl := hvalid'.trees.lives_eq
  -- the map
  obtain ⟨-, hnone, -⟩ | ⟨-, hsome, -⟩ | ⟨-, -, ptb, hmap, hentered, -⟩ := Ptb.ptbMap_cases h.ptb hbase
    hpage.1.1 hplain (fun t (ht : some table = some t) ↦ Option.some_inj.mp ht ▸ htable.1) 1 1
  · cases hnone
  · simp [h.entryAt_nopm hp htype hunit hin_base] at hsome
  have hv2p := hentered.v2p_self hpage.1.1 hplain
  have hturned := turned_setNormal h hp hin hres hrecut haddr hsize htype' page ptb
  have hsound : (s.um.setVpAlct { alct with type := update alct.type res .umNormal }).Sound := by
    refine (h.sound.setVpAlct fun free live covered hvalid ↦ ?_).1
    obtain rfl : s.lives = live := hvalid.trees.lives_eq
    obtain ⟨live', hvalid', -, -, hkept⟩ :=
      VpageAlct.vmSlice_valid hvalid hp (hvalid.trees.frees_eq ▸ hnew₁) hdesc₁
        (hvalid.trees.frees_eq ▸ hnew₂) hdesc₂ hne hslice
    exact ⟨live', hvalid'.setType _, hkept⟩
  refine ⟨_, ?_, hturned.inv h hsound hp hbase hin_base htype hentered hv2p hpage,
    hturned.turnsPage h hin hbase hentered hv2p⟩
  rw [← haddr] at hmap
  simp only [faultNopm, hslice, mapRegion, setVpAlct, Um.setVpAlct, hmap, ok_bind]
  rfl

theorem inv_faultArgs (h : s.Inv) (hsupplied : s.Supplied new₁ new₂ page table)
    (hrun : s.faultArgs ⟨.ok new₁, .ok new₂, some page, some table⟩ = .ok (err, s')) : s'.Inv := by
  obtain ⟨-, -, -, hpage, htable, -⟩ := hsupplied
  have hargs : Ptb.PageAddr argsS := by decide
  have hplain := h.plain argsS (by decide)
  obtain ⟨⟨err', ptb⟩, hmap, hret⟩ := bind_eq_ok.mp hrun
  cases hret
  obtain ⟨-, hnone, -⟩ | ⟨-, -, hmap'⟩ | ⟨-, -, ptb', hmap', hentered, -⟩ := Ptb.ptbMap_cases h.ptb hargs
    hpage.1.1 hplain (fun t (ht : some table = some t) ↦ Option.some_inj.mp ht ▸ htable.1) 1 1
  · cases hnone
  · obtain ⟨-, rfl⟩ := ok_pair_inj (hmap'.symm.trans hmap)
    exact h
  · obtain ⟨-, rfl⟩ := ok_pair_inj (hmap'.symm.trans hmap)
    refine ⟨h.sound, hentered.inv, fun va hva ↦ hentered.plain va (h.plain va hva), h.types,
      fun q hq hq' ↦ ?_, h.apart, fun va hva hlt hsome ↦ ?_⟩
    · obtain ⟨hunit, hlt, -⟩ := h.pageAddr hq
      have hplain' := h.plain _ (hlt.trans (show argsS < kernBase by decide))
      rw [hentered.others h.ptb hargs hunit hplain' (Nat.ne_of_lt hlt)]
      exact h.normal q hq hq'
    · have hnot : ¬ (PhysMem.slotOf va = PhysMem.slotOf argsS ∧
          PhysMem.placeOf va = PhysMem.placeOf argsS) := fun heq ↦
        Nat.ne_of_lt hlt (PhysMem.eq_of_slot_place hargs ⟨hva, hlt.trans hargs.2⟩ heq.1 heq.2)
      rw [Ptb.entryAt, hentered.lookup, if_neg hnot] at hsome
      exact h.mapped va hva hlt hsome

theorem umPageFaultHdl_nopm (h : s.Inv) (a : FaultAllocs) (hp : p ∈ s.lives) (htype : s.um.vpAlct.type p = .umNopm)
    (hin : InRegion s.um.vpAlct.addr s.um.vpAlct.size p errva) :
    s.umPageFaultHdl a errva = s.faultNopm a p errva := by
  obtain ⟨free, covered, hvalid, hheapE, hregion⟩ := h.valid
  have hlt : errva < s.um.layout.heapE := by
    have hend := (hregion p hp).2.2.2
    unfold InRegion at hin
    omega
  have hheapS := h.sound.heap.layout.heapS_eq
  obtain ⟨q, hq, hin', hsearch⟩ | ⟨hnone, -⟩ := VpageAlct.vmSearchAddr_spec hvalid errva
  · obtain rfl := h.eq_of_common hp hq hin hin'
    rw [umPageFaultHdl, if_neg (by omega), if_neg (by omega), hsearch]
    simp [htype]
  · exact absurd hin (hnone p hp)

theorem inv_fault (h : s.Inv) (hsupplied : s.Supplied new₁ new₂ page table)
    (hrun : s.umPageFaultHdl ⟨.ok new₁, .ok new₂, some page, some table⟩ errva = .ok (err, s')) : s'.Inv := by
  obtain ⟨free, covered, hvalid, -⟩ := h.valid
  obtain ⟨p, hp, hin, hsearch⟩ | ⟨-, hsearch⟩ := VpageAlct.vmSearchAddr_spec hvalid errva
  · obtain htype | htype := h.types p hp
    · grind [umPageFaultHdl_nopm, faultNopm_spec]
    · unfold umPageFaultHdl at hrun
      split_ifs at hrun
      · exact inv_faultArgs h hsupplied hrun
      · simp [hsearch, htype, throw, throwThe, MonadExceptOf.throw] at hrun
  · unfold umPageFaultHdl at hrun
    split_ifs at hrun
    · exact inv_faultArgs h hsupplied hrun
    · obtain ⟨-, rfl⟩ : _ ∧ s = s' := by simpa [hsearch] using hrun
      exact h

theorem inv_umalloc (h : s.Inv) {km : Kmallocs} {size : ℕ} {res : Option ℕ} {um' : Um}
    (hkm : km.Fresh s.um.vpAlct) (hsize : s.um.layout.freeS + size ≤ addressSpace - pageSize)
    (hrun : s.um.umalloc km size = .ok (err, res, um')) : Inv { s with um := um' } := by
  have hkeeps := Um.umalloc_keeps h.sound hkm hsize hrun
  obtain ⟨err', res', um'', hrun', hserves⟩ := Um.umalloc_serves h.sound hkm hsize
  obtain ⟨-, -, rfl⟩ : _ ∧ _ ∧ um'' = um' := by simpa [hrun'] using hrun
  -- the regions with a page are the old ones
  have hnormal : ∀ q ∈ um''.vpAlct.lives, um''.vpAlct.type q = .umNormal → q ∈ s.lives := by
    intro q hq hq'
    obtain hold | hnopm := hkeeps.new q hq
    · exact hold
    · rw [hnopm] at hq'
      cases hq'
  have hold : ∀ q ∈ um''.vpAlct.lives, um''.vpAlct.type q = .umNormal →
      s.um.vpAlct.type q = .umNormal := fun q hq hq' ↦
    (hkeeps.kept q (hnormal q hq hq')).2.2.2.symm.trans hq'
  refine ⟨hserves.sound, h.ptb, h.plain, fun q hq ↦ ?_, fun q hq hq' ↦ ?_,
    fun q hq r hr hq' hr' heq ↦ ?_, fun va hva hlt hsome ↦ ?_⟩
  · obtain hmem | hnopm := hkeeps.new q hq
    · rw [(hkeeps.kept q hmem).2.2.2]
      exact h.types q hmem
    · exact .inl hnopm
  · obtain ⟨-, haddr, hsize', -⟩ := hkeeps.kept q (hnormal q hq hq')
    rw [haddr, hsize']
    exact h.normal q (hnormal q hq hq') (hold q hq hq')
  · exact h.apart q (hnormal q hq hq') r (hnormal r hr hr') (hold q hq hq') (hold r hr hr') heq
  · obtain ⟨q, hq, hq', hqva⟩ := h.mapped va hva hlt hsome
    obtain ⟨hmem, haddr, -, htype⟩ := hkeeps.kept q hq
    exact ⟨q, hmem, htype.trans hq', haddr.trans hqva⟩

theorem inv_init (h : system.init s) : s.Inv := by
  obtain ⟨⟨um, hum⟩, hptb⟩ := h
  obtain ⟨hinv, huser⟩ := Ptb.init_spec hptb
  have hlives : s.lives = [] := by
    rw [lives, hum]
    rfl
  refine ⟨hum ▸ um.umInit_sound, hinv, fun va hva ↦ (huser va hva).1, ?_, ?_, ?_, fun va _ hlt hsome ↦ ?_⟩
  case refine_4 =>
    grind [argsS, Ptb.entryAt, TwoLevel.lookup_of_dir_none]
  all_goals simp [hlives]

theorem Inv.contract (h : s.Inv) : s.Contract where
  normal := h.normal
  apart := h.apart
  nopm p hp htype va hva hin := by
    grind [h.valid, argsS, InRegion, Ptb.v2p_eq_notfound, h.ptb, h.plain, h.entryAt_nopm]
  fault p hp htype errva hin new₁ new₂ page table hsupplied := by grind [faultNopm_spec, umPageFaultHdl_nopm]

theorem inv_of_run (h : system.Run Bounded s) : s.Inv := by
  refine h.invariant (P := Inv) (fun s ↦ inv_init) fun s a s' hs hbounded hstep ↦ ?_
  cases a with
  | umalloc km size =>
    obtain ⟨-, hkm, err, res, um', hrun, rfl⟩ := hstep
    exact inv_umalloc hs hkm hbounded hrun
  | fault new₁ new₂ page table errva =>
    obtain ⟨hsupplied, err, hrun⟩ := hstep
    exact inv_fault hs hsupplied hrun

/-- In runs whose requests fit below `2 ^ 32`, the regions and the page tables agree in every state, and
every fault in a region without a page does what it should. -/
theorem bounded_run_paging (h : system.Run Bounded s) : s.Contract := (inv_of_run h).contract

end Steps

/-! ### Examples -/

theorem exampleCalls_reach {allowed : Paged → Action → Prop} {calls granted : List (ℕ × ℕ)} {s : Paged}
    {st : UmState} (hrun : system.Run allowed s) (hcalls : UmState.exampleCalls calls ⟨s.um, granted⟩ = .ok st)
    (hallowed : ∀ c ∈ calls, ∀ s, system.Run allowed s → allowed s (.umalloc (UmState.exampleKm c.1) c.2)) :
    system.Run allowed { s with um := st.um } := by
  induction calls generalizing s granted with
  | nil =>
    obtain rfl : _ = st := Except.ok.inj hcalls
    exact hrun
  | cons call calls ih =>
    obtain ⟨_, hassert, hrest⟩ := bind_eq_ok.mp hcalls
    obtain ⟨hsize, hroom⟩ := assert_eq_ok.mp hassert
    obtain ⟨⟨err, res, um⟩, hcall, hrest⟩ := bind_eq_ok.mp hrest
    have hstep : system.step s (.umalloc (UmState.exampleKm call.1) call.2) { s with um := um } :=
      ⟨hsize, UmState.exampleKm_fresh hroom, err, res, um, hcall, rfl⟩
    exact ih (s := { s with um := um }) (.step hrun (hallowed call List.mem_cons_self s hrun) hstep) hrest
      fun c hc ↦ hallowed c (List.mem_cons_of_mem _ hc)

/-- The extents and types of the allocated regions, and all descriptors. -/
def exampleView (st : UmState) : List (ℕ × ℕ × VpageType) × List ℕ :=
  (st.um.vpAlct.lives.map fun p ↦ (st.um.vpAlct.addr p, st.um.vpAlct.size p, st.um.vpAlct.type p),
    st.um.vpAlct.frees ++ st.um.vpAlct.lives)

theorem exampleSupplied {s : Paged} {regions : List (ℕ × ℕ × VpageType)} {descs : List ℕ}
    (hview : exampleView ⟨s.um, []⟩ = (regions, descs)) (hnopm : ∀ r ∈ regions, r.2.2 = .umNopm)
    (hfresh : 0x8000 ∉ descs ∧ 0x9000 ∉ descs) (hunused : s.ptb.Unused 0x4000 ∧ s.ptb.Unused 0x5000) :
    s.Supplied 0x8000 0x9000 0x5000 0x4000 := by
  obtain ⟨rfl, rfl⟩ := Prod.mk.inj hview
  have hdesc : ∀ d ≤ 0x9000, VpageAlct.IsDesc d := by
    intro d hd
    unfold VpageAlct.IsDesc addressSpace vpageTSize
    omega
  have hnone : ∀ q ∈ s.lives, s.um.vpAlct.type q ≠ .umNormal := by
    intro q hq hq'
    have hr := hnopm _ (List.mem_map_of_mem hq)
    simp [hq'] at hr
  exact ⟨⟨hdesc _ (by decide), hfresh.1⟩, ⟨hdesc _ (by decide), hfresh.2⟩, by decide,
    ⟨hunused.2, fun q hq hq' ↦ absurd hq' (hnone q hq)⟩,
    ⟨hunused.1, fun q hq hq' ↦ absurd hq' (hnone q hq)⟩, by decide⟩

/-- A request of two pages and a fault in the second. -/
theorem bounded_run_paging_example : ∃ s s', system.Run Bounded s ∧ TurnsPage s s' 4100 0x5000 ∧ s'.Contract := by
  obtain ⟨ptb, hptb, hunused⟩ := Ptb.exampleSetup
  have hresult : (UmState.exampleCalls [(0x1000, 5000)] UmState.exampleInit).map exampleView =
      .ok ([(0, 8192, .umNopm)], [0x1060]) := by decide +kernel
  obtain ⟨st, hcalls, hview⟩ := map_eq_ok.mp hresult
  have hrun : system.Run Bounded ⟨st.um, fun _ ↦ 0, ptb⟩ := by
    refine exampleCalls_reach (s := ⟨UmState.exampleInit.um, fun _ ↦ 0, ptb⟩)
      (.init ⟨⟨_, rfl⟩, hptb⟩) hcalls fun c hc s hs ↦ ?_
    have hle : c.2 ≤ 5000 := by grind
    have hheap := (inv_of_run hs).sound.heap
    grind [hheap.heapE_lt, hheap.layout.heapE_eq, Bounded, kernBase, addressSpace, pageSize]
  have hsupplied : Supplied ⟨st.um, fun _ ↦ 0, ptb⟩ 0x8000 0x9000 0x5000 0x4000 :=
    exampleSupplied hview (by decide) (by decide) hunused
  obtain ⟨p, hp, hregion⟩ : ∃ p ∈ st.um.vpAlct.lives,
      (st.um.vpAlct.addr p, st.um.vpAlct.size p, st.um.vpAlct.type p) = (0, 8192, .umNopm) := by
    have hmem : ((0, 8192, .umNopm) : ℕ × ℕ × VpageType) ∈ (exampleView st).1 := by simp [hview]
    exact List.mem_map.mp hmem
  simp only [Prod.mk.injEq] at hregion
  obtain ⟨s', hfault, hturns⟩ := (bounded_run_paging hrun).fault p hp hregion.2.2 4100
    (by simp [InRegion, hregion]) _ _ _ _ hsupplied
  refine ⟨_, s', hrun, hturns, bounded_run_paging ?_⟩
  exact .step (a := .fault 0x8000 0x9000 0x5000 0x4000 4100) hrun trivial ⟨hsupplied, _, hfault⟩

/-- A request that wraps gets a region that reaches over the page of the arguments, which a fault maps
later. -/
theorem reachable_mapped_nopm : ∃ s, system.Reachable s ∧ ¬ s.Contract ∧
    ∃ p ∈ s.lives, s.um.vpAlct.type p = .umNopm ∧
      InRegion s.um.vpAlct.addr s.um.vpAlct.size p argsS ∧ s.ptb.v2p argsS = .ok (.ok, some 0x5000) := by
  obtain ⟨ptb, hptb, hunused⟩ := Ptb.exampleSetup
  obtain ⟨hinv, huser⟩ := Ptb.init_spec hptb
  have hresult : (UmState.exampleCalls [(0x1000, 1), (0x2000, 0xFFFFF000)] UmState.exampleInit).map
      exampleView = .ok ([(0, 4096, .umNopm), (4096, 0xFFFFF000, .umNopm)], [0x1060, 0x2060]) := by decide +kernel
  obtain ⟨st, hcalls, hview⟩ := map_eq_ok.mp hresult
  have hreach : system.Reachable ⟨st.um, fun _ ↦ 0, ptb⟩ :=
    exampleCalls_reach (s := ⟨UmState.exampleInit.um, fun _ ↦ 0, ptb⟩)
      (.init ⟨⟨_, rfl⟩, hptb⟩) hcalls fun _ _ _ _ ↦ trivial
  have hsupplied : Supplied ⟨st.um, fun _ ↦ 0, ptb⟩ 0x8000 0x9000 0x5000 0x4000 :=
    exampleSupplied hview (by decide) (by decide) hunused
  obtain ⟨p, hp, hregion⟩ : ∃ p ∈ st.um.vpAlct.lives,
      (st.um.vpAlct.addr p, st.um.vpAlct.size p, st.um.vpAlct.type p) = (4096, 0xFFFFF000, .umNopm) := by
    have hmem : ((4096, 0xFFFFF000, .umNopm) : ℕ × ℕ × VpageType) ∈ (exampleView st).1 := by simp [hview]
    exact List.mem_map.mp hmem
  simp only [Prod.mk.injEq] at hregion
  obtain ⟨hplain, hdir⟩ := huser argsS (by decide)
  obtain ⟨-, hnone, -⟩ | ⟨-, hsome, -⟩ | ⟨-, -, ptb', hmap, hentered, -⟩ := Ptb.ptbMap_cases hinv
    (show Ptb.PageAddr argsS by decide) hunused.2.1 hplain
    (fun t (ht : some 0x4000 = some t) ↦ Option.some_inj.mp ht ▸ hunused.1) 1 1
  · cases hnone
  · simp [Ptb.entryAt, TwoLevel.lookup_of_dir_none hdir] at hsome
  have hfault : umPageFaultHdl ⟨st.um, fun _ ↦ 0, ptb⟩
      ⟨.ok 0x8000, .ok 0x9000, some 0x5000, some 0x4000⟩ argsS = .ok (.ok, ⟨st.um, fun _ ↦ 0, ptb'⟩) := by
    rw [umPageFaultHdl, if_pos (by decide)]
    simp [faultArgs, hmap]
  have hv2p : ptb'.v2p argsS = .ok (.ok, some 0x5000) := hentered.v2p_self hunused.2.1 hplain
  have hin : InRegion st.um.vpAlct.addr st.um.vpAlct.size p argsS := by
    simp [InRegion, hregion, argsS, kernBase, pageSize]
  refine ⟨⟨st.um, fun _ ↦ 0, ptb'⟩, .step (a := .fault 0x8000 0x9000 0x5000 0x4000 argsS) hreach trivial
    ⟨hsupplied, _, hfault⟩, fun hcontract ↦ ?_, p, hp, hregion.2.2, hin, hv2p⟩
  have hnopm := hcontract.nopm p hp hregion.2.2 argsS (by decide) hin
  rw [hv2p] at hnopm
  cases hnopm

end Paged

end Lanthorn
