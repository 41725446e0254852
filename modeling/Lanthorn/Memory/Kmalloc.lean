import Lanthorn.Memory.PmUndo
import Lanthorn.Memory.Ptb
import Lanthorn.Memory.Um
import Lanthorn.Memory.VmUndo

/-!
# Kernel memory: `kmalloc` and `kmalloc_page` of `kernel/memory/memory.c`

`kmalloc_page` takes a physical block and a kernel region and maps the one to the other page by page, with
`ptb_map` asking `page_alloc` for tables. What `kvm_slot_alloc` returned is an argument of a call.

When it fails, `kmalloc_page` gives the block and the region back, but neither unmaps the pages that it has
mapped nor frees the tables, and `vm_free` may join the region with a neighbour; `kmalloc` reads the region
pointer even if `kmalloc_page` has not set it. `kmalloc_undone_iff` says exactly when a failed call leaves
everything as it was.
-/

namespace Lanthorn

open Library PhysMem

/-- `page_alloc`: the error code and the page. -/
def PageAlct.pageAlloc (s : PageAlct) : Result (Errno × Option ℕ × PageAlct) := do
  let (err, page, s) ← s.pmAlloc pageSize
  match err, page with
  | .ok, some page => do
    assert (s.cnt page = 0)
    return (.ok, some page, { s with cnt := Function.update s.cnt page (s.cnt page + 1) })
  | err, _ => return (err, none, s)

namespace PageAlct

section PageAlloc

variable {s s' : PageAlct} {lay : Layout} {g : Contents} {live : List ℕ} {covered : ℕ → Prop}

theorem Valid.setCnt (h : Valid lay s g live covered) (cnt : ℕ → ℕ) :
    Valid lay { s with cnt := cnt } g live covered :=
  ⟨⟨h.buddy.head_eq, h.buddy.slot_eq, h.buddy.rings, h.buddy.tiles.congr ⟨fun _ _ ↦ rfl, fun _ _ ↦ rfl,
    fun _ _ ↦ rfl, fun _ _ ↦ rfl, fun _ _ ↦ rfl, fun _ _ ↦ rfl, fun _ _ ↦ Iff.rfl⟩, h.buddy.used_mem,
    h.buddy.slot_unused, h.buddy.free_iff, h.buddy.all, h.buddy.raw_mem, h.buddy.raw_nodup⟩, h.tree,
    h.ordered, h.live_iff⟩

theorem pageAlloc_cases (h : Valid lay s g live covered) {err : Errno} {page : Option ℕ}
    (hrun : s.pageAlloc = .ok (err, page, s')) : (err ≠ .ok ∧ page = none ∧ s' = s ∧ ¬ ∃ a m, s.FreeAt a m) ∨
      err = .ok ∧ (∃ a m, s.FreeAt a m) ∧ ∃ p g' live', page = some p ∧ Valid lay s' g' live' covered ∧
        s'.addr p % pageSize = 0 ∧ s.FreeAddr (s'.addr p) ∧
        (∀ q ∈ live, q ∈ live' ∧ s'.addr q = s.addr q ∧ s'.size q = s.size q) ∧
        ∀ x, s'.FreeAddr x → s.FreeAddr x ∧ x ≠ s'.addr p := by
  obtain ⟨hnone, halloc⟩ | ⟨hblock, halloc | ⟨p, s₁, g', live', halloc, h', hp, hsize, haddr, hkept, hless, -⟩⟩ :=
    pmAlloc_block h (n := pageSize) (by decide) (by decide) (by decide)
  · rw [h.hasBlock_page] at hnone
    rw [pageAlloc, halloc] at hrun
    obtain ⟨rfl, rfl, rfl⟩ := ok_triple_inj hrun
    exact .inl ⟨by simp, rfl, rfl, hnone⟩
  · simp [pageAlloc, halloc] at hrun
  · obtain ⟨_, hcnt, hret⟩ := bind_eq_ok.mp (show (do
        assert (s₁.cnt p = 0)
        return (.ok, some p, { s₁ with cnt := Function.update s₁.cnt p (s₁.cnt p + 1) }) :
          Result (Errno × Option ℕ × PageAlct)) = .ok (err, page, s') by
      rw [← hrun, pageAlloc, halloc]
      rfl)
    obtain ⟨rfl, rfl, rfl⟩ := ok_triple_inj hret
    have hunit := h'.buddy.tiles.aligned p ((h'.live_iff p).mp hp).1
    refine .inr ⟨rfl, h.hasBlock_page.mp hblock, p, g', live', rfl, h'.setCnt _, hunit, haddr, hkept,
      fun x hx ↦ ⟨(hless x hx).1, fun heq ↦ (hless x hx).2 ?_⟩⟩
    rw [heq, Within]
    unfold pageSize at hsize
    exact ⟨le_rfl, by simp only; omega⟩

end PageAlloc

end PageAlct

/-- The allocators and the page directory of the kernel. -/
structure KernMem where
  pmAlct : PageAlct
  kvmAlct : VpageAlct
  ptb : Ptb
  slabAlct : SlabAlct

namespace KernMem

/-- Write `slab_alct`. -/
def setSlabAlct (k : KernMem) (s : SlabAlct) : KernMem := { k with slabAlct := s }

/-- The end of `ptb_map`, with a table in the directory. -/
def mapUnlock (k : KernMem) (va pa usr wtb : ℕ) : Result (Errno × KernMem) := do
  let (err, ptb) ← k.ptb.mapUnlock va pa usr wtb
  return (err, { k with ptb := ptb })

/-- `ptb_map` on the directory of `proc_0`. -/
def ptbMap (k : KernMem) (va pa usr wtb : ℕ) : Result (Errno × KernMem) := do
  assert (va % pageSize = 0 ∧ pa % pageSize = 0)
  let ptb ← k.ptb.spinLock
  let k := { k with ptb := ptb }
  let (err, _) ← k.ptb.mem.mmuPteGet k.ptb.pde va
  if err = .notfound then do
    let (err, ptep, pm) ← k.pmAlct.pageAlloc
    let k := { k with pmAlct := pm }
    match err, ptep with
    | .ok, some ptep => do
      let m ← k.ptb.mem.mmuPpClean (pm.addr ptep)
      let m ← m.mmuPteSet k.ptb.pde va (pm.addr ptep) usr 1
      { k with ptb := { k.ptb with mem := m } }.mapUnlock va pa usr wtb
    -- the lock is not given back
    | err, _ => return (err, k)
  else k.mapUnlock va pa usr wtb

/-- The loop of `kmalloc_page` over the pages that are left, from the offset `s` on. -/
def mapLoop (vp pp : ℕ) : ℕ → ℕ → KernMem → Result (Errno × KernMem)
  | 0, _, k => return (.ok, k)
  | pages + 1, s, k => do
    let (err, k) ← k.ptbMap (wordAdd (k.kvmAlct.addr vp) s) (wordAdd (k.pmAlct.addr pp) s) 0 1
    if err ≠ .ok then return (err, k) else mapLoop vp pp pages (s + pageSize) k

/-- `kmalloc_page` from where it has the block `pp` and the region `vp`. -/
def kmallocMap (k : KernMem) (vp pp size : ℕ) : Result (Errno × Option ℕ × KernMem) := do
  let k := { k with
    kvmAlct := { k.kvmAlct with type := Function.update k.kvmAlct.type vp .kmNormal } }
  let (err, k) ← mapLoop vp pp (size / pageSize) 0 k
  if err ≠ .ok then do
    let (_, kvm) ← k.kvmAlct.vmFree vp
    let pm ← k.pmAlct.pmFree pp
    return (err, some vp, { k with kvmAlct := kvm, pmAlct := pm })
  else return (.ok, some vp, k)

/-- `kmalloc_page` from where it has the block `pp`. -/
def kmallocBlock (k : KernMem) (new : Except Errno ℕ) (pp size : ℕ) : Result (Errno × Option ℕ × KernMem) := do
  let (err, vp, kvm) ← k.kvmAlct.vmAlloc new size
  match err, vp with
  | .ok, some vp => kmallocMap { k with kvmAlct := kvm } vp pp size
  | err, _ => do
    let pm ← k.pmAlct.pmFree pp
    return (err, none, { k with kvmAlct := kvm, pmAlct := pm })

/-- `kmalloc_page`, given what `kvm_slot_alloc` returns: the error code and the region pointer, if it was
set. -/
def kmallocPage (k : KernMem) (new : Except Errno ℕ) (size : ℕ) : Result (Errno × Option ℕ × KernMem) := do
  let size := roundUp size pageSize
  let (err, pp, pm) ← k.pmAlct.pmAlloc size
  match err, pp with
  | .ok, some pp => kmallocBlock { k with pmAlct := pm } new pp size
  | err, _ => return (err, none, { k with pmAlct := pm })

/-- The branch of `kmalloc` on whole pages: the region pointer is read whatever `kmalloc_page` returns. -/
def kmallocRegion (k : KernMem) (new : Except Errno ℕ) (size : ℕ) : Result (Errno × Option ℕ × KernMem) := do
  let (err, vp, k) ← k.kmallocPage new (roundUp size pageSize)
  match vp with
  | none => throw .unset
  | some vp => return (err, some (k.kvmAlct.addr vp), k)

/-- `kmalloc`, with the depth to which it may call itself through `slab_alloc`. -/
def kmallocTo (new : Except Errno ℕ) : ℕ → ℕ → KernMem → Result (Errno × Option ℕ × KernMem)
  | 0, _, _ => throw .endless
  | depth + 1, size, k =>
    if size = 0 then return (.inval, none, k)
    else if size ≤ szSlabAllocMax then
      slabAlloc slabAlct setSlabAlct (kmallocTo new depth) size k
    else k.kmallocRegion new size

/-- `kmalloc`: the error code and the address. -/
def kmalloc (k : KernMem) (new : Except Errno ℕ) (size : ℕ) : Result (Errno × Option ℕ × KernMem) :=
  kmallocTo new addressSpace size k

/-! ### What a failed call should keep -/

/-- The free and live physical blocks, the free and live kernel regions and the translations of kernel
addresses are the same. -/
structure Same (k k' : KernMem) : Prop where
  blocks : k.pmAlct.SameMemory k'.pmAlct
  regions : k.kvmAlct.SameRegions k'.kvmAlct
  v2p : ∀ va, kernBase ≤ va → va < addressSpace → k'.ptb.v2p va = k.ptb.v2p va

/-- The state of kernel memory between two calls. The free regions lie in the kernel part and have no
large pages, and the pages that are free are no tables. -/
structure Valid (k : KernMem) : Prop where
  pm : ∃ lay g live covered blocks, PageAlct.Valid lay k.pmAlct g live covered ∧
    PageAlct.Canonical k.pmAlct g.used blocks
  kvm : ∃ free live covered, VpageAlct.Valid k.kvmAlct free live covered
  ptb : k.ptb.Inv
  kern : ∀ p ∈ k.kvmAlct.frees, kernBase ≤ k.kvmAlct.addr p
  plain : ∀ p ∈ k.kvmAlct.frees, ∀ va, InRegion k.kvmAlct.addr k.kvmAlct.size p va → k.ptb.Plain va
  unused : ∀ x, x % pageSize = 0 → k.pmAlct.FreeAddr x → k.ptb.Unused x

/-! ### `ptb_map` -/

/-- `ptb_map` cannot map an address: it is mapped, or it needs a table and no page is free. -/
def MapFails (k : KernMem) (va : ℕ) : Prop :=
  (k.ptb.entryAt va).isSome ∨ ¬ k.ptb.HasTable va ∧ ¬ ∃ a m, k.pmAlct.FreeAt a m

section Map

variable {k k' : KernMem} {va pa usr wtb : ℕ} {lay : Layout} {g : PageAlct.Contents} {live : List ℕ}
  {covered : ℕ → Prop}

theorem ptbMap_of_table (h : k.ptb.Inv) (hplain : k.ptb.Plain va) (htable : k.ptb.HasTable va)
    (hunit : va % pageSize = 0 ∧ pa % pageSize = 0) : k.ptbMap va pa usr wtb =
      (k.ptb.ptbMap none va pa usr wtb).map fun r ↦ (r.1, { k with ptb := r.2 }) := by
  obtain ⟨pte, hget⟩ := Ptb.mmuPteGet_eq h hplain
  rw [if_pos (show (k.ptb.tables.dir (slotOf va)).isSome from htable)] at hget
  simp only [ptbMap, Ptb.ptbMap, assert_of_true hunit, Ptb.spinLock_of_inv h, hget, mapUnlock, ok_bind]
  simp only [reduceCtorEq, if_false]
  cases Ptb.mapUnlock { k.ptb with lock := true } va pa usr wtb <;> rfl

section NoTable

variable (h : k.ptb.Inv) (hplain : k.ptb.Plain va) (htable : ¬ k.ptb.HasTable va)
  (hunit : va % pageSize = 0 ∧ pa % pageSize = 0)
include h hplain htable hunit

theorem ptbMap_of_page {page : ℕ} {pm : PageAlct} (halloc : k.pmAlct.pageAlloc = .ok (.ok, some page, pm)) :
    k.ptbMap va pa usr wtb = (k.ptb.ptbMap (some (pm.addr page)) va pa usr wtb).map fun r ↦
      (r.1, { k with pmAlct := pm, ptb := r.2 }) := by
  obtain ⟨pte, hget⟩ := Ptb.mmuPteGet_eq h hplain
  rw [if_neg (show ¬ (k.ptb.tables.dir (slotOf va)).isSome from htable)] at hget
  simp only [ptbMap, Ptb.ptbMap, assert_of_true hunit, Ptb.spinLock_of_inv h, hget, halloc, mapUnlock,
    bind, Except.bind]
  simp only [if_true]
  cases k.ptb.mem.mmuPpClean (pm.addr page) with
  | error _ => rfl
  | ok m =>
    simp only
    cases m.mmuPteSet k.ptb.pde va (pm.addr page) usr 1 with
    | error _ => rfl
    | ok m =>
      simp only
      cases Ptb.mapUnlock _ va pa usr wtb <;> rfl

theorem ptbMap_of_no_page {err : Errno} {pm : PageAlct} (herr : err ≠ .ok)
    (halloc : k.pmAlct.pageAlloc = .ok (err, none, pm)) : k.ptbMap va pa usr wtb =
      .ok (err, { k with pmAlct := pm, ptb := { k.ptb with lock := true } }) := by
  obtain ⟨pte, hget⟩ := Ptb.mmuPteGet_eq h hplain
  rw [if_neg (show ¬ (k.ptb.tables.dir (slotOf va)).isSome from htable)] at hget
  simp only [ptbMap, assert_of_true hunit, Ptb.spinLock_of_inv h, hget, halloc, if_true, ok_bind]
  rfl

end NoTable

theorem ptbMap_cases (hpm : PageAlct.Valid lay k.pmAlct g live covered) (h : k.ptb.Inv)
    (hunused : ∀ x, x % pageSize = 0 → k.pmAlct.FreeAddr x → k.ptb.Unused x) (hva : Ptb.PageAddr va)
    (hpa : Ptb.PageAddr pa) (hplain : k.ptb.Plain va) {err : Errno}
    (hrun : k.ptbMap va pa usr wtb = .ok (err, k')) :
    (err ≠ .ok ∧ k.MapFails va ∧ ∃ lock, k' = { k with ptb := { k.ptb with lock := lock } }) ∨
      err = .ok ∧ ¬ k.MapFails va ∧ k'.kvmAlct = k.kvmAlct ∧ Ptb.Entered k.ptb k'.ptb va (some (pxe pa usr wtb)) ∧
        (∃ g' live', PageAlct.Valid lay k'.pmAlct g' live' covered ∧
          ∀ p ∈ live, p ∈ live' ∧ k'.pmAlct.addr p = k.pmAlct.addr p ∧ k'.pmAlct.size p = k.pmAlct.size p) ∧
        ∀ x, x % pageSize = 0 → k'.pmAlct.FreeAddr x → k'.ptb.Unused x := by
  by_cases htable : k.ptb.HasTable va
  · rw [ptbMap_of_table h hplain htable ⟨hva.1, hpa.1⟩] at hrun
    obtain ⟨hnone, -⟩ | ⟨-, hsome, hmap⟩ | ⟨-, hnone, ptb, hmap, hentered, hkept⟩ :=
      Ptb.ptbMap_cases h hva hpa hplain (fun p (hp : none = some p) ↦ by cases hp) usr wtb
    · exact absurd htable hnone
    · obtain ⟨rfl, rfl⟩ : .exist = err ∧ k = k' := by simpa [hmap, Except.map] using hrun
      exact .inl ⟨by simp, .inl hsome, k.ptb.lock, rfl⟩
    grind [Except.map, MapFails]
  · have hentry : k.ptb.entryAt va = none := by
      rw [Ptb.HasTable, Bool.not_eq_true, Option.isSome_eq_false_iff, Option.isNone_iff_eq_none] at htable
      exact TwoLevel.lookup_of_dir_none htable _
    cases halloc : k.pmAlct.pageAlloc with
    | error fault =>
      obtain ⟨pte, hget⟩ := Ptb.mmuPteGet_eq h hplain
      rw [if_neg (show ¬ (k.ptb.tables.dir (slotOf va)).isSome from htable)] at hget
      simp [ptbMap, hva.1, hpa.1, Ptb.spinLock_of_inv h, hget, halloc] at hrun
    | ok result =>
      obtain ⟨err', page, pm⟩ := result
      obtain ⟨herr, rfl, rfl, hfull⟩ | ⟨rfl, hfree, page, g', live', rfl, hpm', hunit, haddr, hlive, hless⟩ :=
        PageAlct.pageAlloc_cases hpm halloc
      · rw [ptbMap_of_no_page h hplain htable ⟨hva.1, hpa.1⟩ herr halloc] at hrun
        cases hrun
        exact .inl ⟨herr, .inr ⟨htable, hfull⟩, true, rfl⟩
      · rw [ptbMap_of_page h hplain htable ⟨hva.1, hpa.1⟩ halloc] at hrun
        grind [Ptb.ptbMap_cases, Except.map, MapFails]

end Map

/-! ### The loop of `kmalloc_page` -/

/-- The state in which `kmalloc_page` maps the pages of the region `vp` to those of the block `pp`. -/
structure Mapping (lay : Layout) (covered : ℕ → Prop) (vp pp n : ℕ) (k : KernMem) : Prop where
  pm : ∃ g live, PageAlct.Valid lay k.pmAlct g live covered ∧ pp ∈ live
  block : n ≤ k.pmAlct.size pp
  ptb : k.ptb.Inv
  unit : k.kvmAlct.addr vp % pageSize = 0
  bound : k.kvmAlct.addr vp + n ≤ addressSpace
  plain : ∀ va, k.kvmAlct.addr vp ≤ va → va < k.kvmAlct.addr vp + n → k.ptb.Plain va
  unused : ∀ x, x % pageSize = 0 → k.pmAlct.FreeAddr x → k.ptb.Unused x

section Loop

variable {k k' : KernMem} {lay : Layout} {covered : ℕ → Prop} {vp pp n s : ℕ} {err : Errno}

theorem Mapping.addrs (h : Mapping lay covered vp pp n k) (hunit : s % pageSize = 0) (hlt : s < n) :
    wordAdd (k.kvmAlct.addr vp) s = k.kvmAlct.addr vp + s ∧ Ptb.PageAddr (k.kvmAlct.addr vp + s) ∧
      Ptb.PageAddr (wordAdd (k.pmAlct.addr pp) s) := by
  obtain ⟨g, live, hvalid, hpp⟩ := h.pm
  obtain ⟨hused, -⟩ := (hvalid.live_iff pp).mp hpp
  grind [hvalid.buddy.tiles.aligned, h.bound, h.unit, Ptb.PageAddr, wordAdd, pageSize, addressSpace]

theorem Mapping.step (h : Mapping lay covered vp pp n k) (hunit : s % pageSize = 0) (hlt : s < n)
    (hrun : k.ptbMap (wordAdd (k.kvmAlct.addr vp) s) (wordAdd (k.pmAlct.addr pp) s) 0 1 = .ok (err, k')) :
    (err ≠ .ok ∧ k.MapFails (k.kvmAlct.addr vp + s) ∧ ∃ lock, k' = { k with ptb := { k.ptb with lock := lock } }) ∨
      err = .ok ∧ ¬ k.MapFails (k.kvmAlct.addr vp + s) ∧ Mapping lay covered vp pp n k' ∧ k'.kvmAlct = k.kvmAlct ∧
        ∃ w, Ptb.Entered k.ptb k'.ptb (k.kvmAlct.addr vp + s) (some w) := by
  obtain ⟨hadd, hva, hpa⟩ := h.addrs hunit hlt
  obtain ⟨g, live, hvalid, hpp⟩ := h.pm
  rw [hadd] at hrun
  obtain hfail | ⟨rfl, hok, hkvm, hentered, ⟨g', live', hvalid', hlive⟩, hunused⟩ :=
    ptbMap_cases hvalid h.ptb h.unused hva hpa (h.plain _ (by omega) (by omega)) hrun
  · exact .inl hfail
  · refine .inr ⟨rfl, hok, ⟨⟨g', live', hvalid', (hlive pp hpp).1⟩, ?_, hentered.inv, ?_, ?_, ?_, hunused⟩,
      hkvm, _, hentered⟩
    all_goals grind [h.block, h.unit, h.bound, hentered.plain, h.plain]

theorem mapLoop_mapped {pages : ℕ} (h : Mapping lay covered vp pp n k) (hunit : s % pageSize = 0)
    (hpos : 0 < s) (hrest : s + pages * pageSize = n) (hmapped : (k.ptb.entryAt (k.kvmAlct.addr vp)).isSome)
    (hrun : mapLoop vp pp pages s k = .ok (err, k')) (herr : err ≠ .ok) :
    k'.kvmAlct = k.kvmAlct ∧ (∃ g live, PageAlct.Valid lay k'.pmAlct g live covered ∧ pp ∈ live) ∧
      ∃ pa, k'.ptb.v2p (k.kvmAlct.addr vp) = .ok (.ok, some pa) := by
  induction pages generalizing k s with
  | zero =>
    cases hrun
    exact absurd rfl herr
  | succ pages ih =>
    have hpages : pageSize ≤ (pages + 1) * pageSize := Nat.le_mul_of_pos_left _ (by omega)
    have hpage : 0 < pageSize := by decide
    have hlt : s < n := by omega
    have hstart := h.plain (k.kvmAlct.addr vp) le_rfl (by omega)
    obtain ⟨⟨err₁, k₁⟩, hmap, hret⟩ := bind_eq_ok.mp hrun
    dsimp only at hret
    obtain ⟨hne, -, lock, rfl⟩ | ⟨rfl, -, h₁, hkvm, w, hentered⟩ := h.step hunit hlt hmap
    · rw [if_pos hne] at hret
      cases hret
      exact ⟨rfl, h.pm, (Ptb.v2p_eq_some h.ptb hstart).mpr hmapped⟩
    · rw [if_neg (by simp)] at hret
      have hother : k.kvmAlct.addr vp ≠ k.kvmAlct.addr vp + s := by omega
      have hva := (h.addrs hunit hlt).2.1
      have hva₀ : Ptb.PageAddr (k.kvmAlct.addr vp) := ⟨h.unit, by have := h.bound; omega⟩
      rw [← hkvm]
      refine ih h₁ ?_ (by omega) ?_ ?_ hret
      · unfold pageSize at *
        omega
      · rw [Nat.succ_mul] at hrest
        omega
      · rwa [hkvm, Ptb.entryAt, hentered.lookup,
          if_neg fun heq ↦ hother (eq_of_slot_place hva hva₀ heq.1 heq.2), ← Ptb.entryAt]

theorem mapLoop_error {pages : ℕ} (h : Mapping lay covered vp pp n k) (hpos : 0 < n)
    (hpages : pages * pageSize = n) (hrun : mapLoop vp pp pages 0 k = .ok (err, k')) (herr : err ≠ .ok) :
    k'.kvmAlct = k.kvmAlct ∧
      (k.MapFails (k.kvmAlct.addr vp) ∧ (∃ lock, k' = { k with ptb := { k.ptb with lock := lock } }) ∨
        ¬ k.MapFails (k.kvmAlct.addr vp) ∧ (∃ g live, PageAlct.Valid lay k'.pmAlct g live covered ∧ pp ∈ live) ∧
          k'.ptb.v2p (k.kvmAlct.addr vp) ≠ k.ptb.v2p (k.kvmAlct.addr vp)) := by
  obtain ⟨pages, rfl⟩ := Nat.exists_eq_add_one_of_ne_zero (show pages ≠ 0 by rintro rfl; omega)
  have hstart := h.plain (k.kvmAlct.addr vp) le_rfl (by omega)
  obtain ⟨⟨err₁, k₁⟩, hmap, hret⟩ := bind_eq_ok.mp hrun
  dsimp only at hret
  obtain ⟨hne, hfails, lock, rfl⟩ | ⟨rfl, hok, h₁, hkvm, w, hentered⟩ := h.step (by decide) hpos hmap
  · rw [if_pos hne] at hret
    cases hret
    exact ⟨rfl, .inl ⟨hfails, lock, rfl⟩⟩
  · rw [if_neg (by simp)] at hret
    rw [Nat.add_zero] at hok hentered
    obtain ⟨hkvm', hvalid', pa, hv2p⟩ := mapLoop_mapped h₁ (by decide) (by decide)
      (by rw [Nat.succ_mul] at hpages; omega) (by rw [hkvm, hentered.entryAt]; rfl) hret herr
    rw [hkvm] at hkvm' hv2p
    refine ⟨hkvm', .inr ⟨hok, hvalid', ?_⟩⟩
    have hunmapped : k.ptb.entryAt (k.kvmAlct.addr vp) = none := by
      by_contra hsome
      exact hok (.inl (Option.isSome_iff_ne_none.mpr hsome))
    rw [hv2p, (Ptb.v2p_eq_notfound h.ptb hstart).mpr hunmapped]
    simp

end Loop

/-! ### `kmalloc_page` -/

/-- `kmalloc_page` finds a block, the region `res` to take the addresses from, and a descriptor. -/
structure Finds (k : KernMem) (new : Except Errno ℕ) (size res : ℕ) : Prop where
  pos : roundUp size pageSize ≠ 0
  block : k.pmAlct.HasBlock (roundUp size pageSize)
  region : k.kvmAlct.rbtSearchSize (roundUp size pageSize) = .ok (some res)
  desc : ∃ vp, new = .ok vp

/-- The first page of a free region cannot be mapped once the block is taken: it is mapped, or it needs a
table and the block is the last that is free. -/
def Blocked (k : KernMem) (size res : ℕ) : Prop :=
  (k.ptb.entryAt (k.kvmAlct.addr res)).isSome ∨
    ¬ k.ptb.HasTable (k.kvmAlct.addr res) ∧ k.pmAlct.OnlyBlock (roundUp size pageSize)

def Undone (k : KernMem) (size res : ℕ) : Prop := k.Blocked size res ∧ k.kvmAlct.Unmerged res

section KmallocPage

variable {k k' : KernMem} {new : Except Errno ℕ} {size : ℕ} {err : Errno} {vp : Option ℕ}

theorem Same.refl (k : KernMem) : k.Same k :=
  ⟨⟨fun _ _ ↦ Iff.rfl, fun _ _ ↦ Iff.rfl⟩, ⟨rfl, rfl⟩, fun _ _ _ ↦ rfl⟩

theorem kmallocMap_error {lay : Layout} {covered : ℕ → Prop} {v pp n : ℕ}
    (h : Mapping lay covered v pp n k) (hpos : 0 < n) (hunit : n % pageSize = 0)
    (hrun : k.kmallocMap v pp n = .ok (err, vp, k')) (herr : err ≠ .ok) : vp = some v ∧
      (∃ type e, { k.kvmAlct with type := type }.vmFree v = .ok (e, k'.kvmAlct)) ∧
      (k.MapFails (k.kvmAlct.addr v) ∧ k.pmAlct.pmFree pp = .ok k'.pmAlct ∧ (∀ va, k'.ptb.v2p va = k.ptb.v2p va) ∨
        ¬ k.MapFails (k.kvmAlct.addr v) ∧ k'.ptb.v2p (k.kvmAlct.addr v) ≠ k.ptb.v2p (k.kvmAlct.addr v)) := by
  have hpages : n / pageSize * pageSize = n := Nat.div_mul_cancel (Nat.dvd_of_mod_eq_zero hunit)
  obtain ⟨⟨err₁, k₁⟩, hloop, hret⟩ := bind_eq_ok.mp hrun
  dsimp only at hret
  by_cases hok : err₁ = .ok
  · rw [if_neg (by simpa using hok)] at hret
    exact absurd (ok_pair_inj hret).1.symm herr
  rw [if_pos hok] at hret
  have h₁ : Mapping lay covered v pp n { k with
      kvmAlct := { k.kvmAlct with type := Function.update k.kvmAlct.type v .kmNormal } } :=
    ⟨h.pm, h.block, h.ptb, h.unit, h.bound, h.plain, h.unused⟩
  obtain ⟨⟨e, kvm⟩, hvm, hret⟩ := bind_eq_ok.mp hret
  obtain ⟨pm, hpm, hret⟩ := bind_eq_ok.mp hret
  obtain ⟨rfl, rfl, rfl⟩ := ok_triple_inj hret
  obtain ⟨hkvm, hcase⟩ := mapLoop_error h₁ hpos hpages hloop hok
  rw [hkvm] at hvm
  refine ⟨rfl, ⟨_, e, hvm⟩, ?_⟩
  obtain ⟨hfails, lock, rfl⟩ | ⟨hfails, -, hv2p⟩ := hcase
  · exact .inl ⟨hfails, hpm, fun va ↦ rfl⟩
  · exact .inr ⟨hfails, hv2p⟩

/-- A call of `kmalloc_page` that fails: the region pointer is set if and only if block, region and
descriptor were found. If not, everything is as before; if so, that depends on where the loop failed. -/
theorem kmallocPage_error (h : k.Valid) (hnew : k.kvmAlct.Supply new)
    (hrun : k.kmallocPage new size = .ok (err, vp, k')) (herr : err ≠ .ok) :
    ((∀ res, ¬ k.Finds new size res) ∧ vp = none ∧ k.Same k') ∨
      ∃ res, k.Finds new size res ∧ vp.isSome ∧ (k.Same k' ↔ k.Undone size res) := by
  obtain ⟨lay, g, live, covered, blocks, hpm, hcanon⟩ := h.pm
  obtain ⟨free, lives, regions, hkvm⟩ := h.kvm
  obtain ⟨hunit, hword⟩ := VpageAlct.roundUp_page size
  have hround : roundUp (roundUp size pageSize) pageSize = roundUp size pageSize := by
    unfold roundUp pageSize addressSpace at *
    omega
  obtain ⟨⟨err₀, page, pm₁⟩, halloc, hret⟩ := bind_eq_ok.mp hrun
  dsimp only at hret
  by_cases hzero : roundUp size pageSize = 0
  · rw [hzero] at halloc
    obtain ⟨rfl, rfl, rfl⟩ := ok_triple_inj halloc
    obtain ⟨rfl, rfl, rfl⟩ := ok_triple_inj hret
    exact .inl ⟨fun res hfinds ↦ hfinds.pos hzero, rfl, .refl k⟩
  obtain ⟨hfull, halloc'⟩ | ⟨hblock, halloc' | ⟨pp, pm₁', g₁, live₁, halloc', hpm₁, hpp, hsize, -, -, hless,
    honly⟩⟩ := PageAlct.pmAlloc_block hpm hzero hunit (by unfold pageSize addressSpace at *; omega)
  · obtain ⟨rfl, rfl, rfl⟩ := ok_triple_inj (halloc'.symm.trans halloc)
    obtain ⟨rfl, rfl, rfl⟩ := ok_triple_inj hret
    exact .inl ⟨fun res hfinds ↦ hfull hfinds.block, rfl, .refl k⟩
  · simp [halloc'] at halloc
  obtain ⟨rfl, rfl, rfl⟩ := ok_triple_inj (halloc'.symm.trans halloc)
  obtain ⟨pm₂, g₂, live₂, hfree, hpm₂, hsame⟩ := PageAlct.pmFree_pmAlloc hpm hcanon halloc
  have hblocks := hsame.sameMemory hpm hpm₂
  -- without a region the block is given back
  have hgiven : ∀ err', k.kvmAlct.vmAlloc new (roundUp size pageSize) = .ok (err', none, k.kvmAlct) →
      err' ≠ .ok → vp = none ∧ k.Same k' := by
    intro err' hvm herr'
    obtain ⟨⟨err₁, v, kvm⟩, hvm', hret⟩ := bind_eq_ok.mp hret
    obtain ⟨rfl, rfl, rfl⟩ := ok_triple_inj (hvm.symm.trans hvm')
    obtain ⟨pm₂', hfree', hret⟩ : ∃ pm, pm₁'.pmFree pp = .ok pm ∧
        (.ok (err', none, { k with pmAlct := pm }) : Result _) = .ok (err, vp, k') := by
      cases err'
      case ok => exact absurd rfl herr'
      all_goals exact bind_eq_ok.mp hret
    obtain rfl := Except.ok.inj (hfree.symm.trans hfree')
    obtain ⟨rfl, rfl, rfl⟩ := ok_triple_inj hret
    exact ⟨rfl, hblocks, ⟨rfl, rfl⟩, fun _ _ _ ↦ rfl⟩
  obtain hnone | ⟨res, hres, hsearch, hle⟩ :=
    VpageAlct.rbtSearchSize_spec hkvm.trees (roundUp size pageSize)
  · refine .inl ⟨fun res hfinds ↦ ?_, hgiven .nomem ?_ (by simp)⟩
    · have := hnone.symm.trans hfinds.region
      cases this
    · simp [VpageAlct.vmAlloc, hround, hnone]
  cases new with
  | error e =>
    refine .inl ⟨fun res hfinds ↦ ?_, hgiven e ?_ hnew⟩
    · obtain ⟨v, hv⟩ := hfinds.desc
      cases hv
    · simp [VpageAlct.vmAlloc, hround, hsearch, VpageAlct.vpageNew]
  | ok v =>
    refine .inr ⟨res, ⟨hzero, hblock, hsearch, v, rfl⟩, ?_⟩
    have hpos : 0 < roundUp size pageSize := Nat.pos_of_ne_zero hzero
    obtain ⟨kvm, free₁, lives₁, hvm, hkvm₁, haddr, -, hundo⟩ :=
      VpageAlct.vmFree_vmAlloc hkvm hnew hpos hunit hword hsearch
    obtain ⟨⟨err₁, v', kvm'⟩, hvm', hret⟩ := bind_eq_ok.mp hret
    obtain ⟨rfl, rfl, rfl⟩ := ok_triple_inj (hvm.symm.trans hvm')
    have hregion := hkvm.regions.bound res (List.mem_append_left _ hres)
    have hmem : res ∈ k.kvmAlct.frees := by rwa [hkvm.trees.frees_eq]
    have hmapping : Mapping lay covered v pp (roundUp size pageSize)
        { k with pmAlct := pm₁', kvmAlct := kvm } := by
      refine ⟨⟨g₁, live₁, hpm₁, hpp⟩, hsize, h.ptb, ?_, ?_, fun va hlo hhi ↦ ?_,
        fun x hx hx_free ↦ h.unused x hx (hless x hx_free).1⟩
      · rw [haddr]
        exact hkvm.regions.start_unit res (List.mem_append_left _ hres)
      · rw [haddr]
        omega
      · rw [haddr] at hlo hhi
        exact h.plain res hmem va ⟨hlo, by omega⟩
    obtain ⟨rfl, ⟨type, e, hvmfree⟩, hcase⟩ := kmallocMap_error hmapping hpos hunit hret herr
    obtain ⟨kvm₂, hvmfree', hregions⟩ := hundo type
    obtain rfl := (ok_pair_inj (hvmfree'.symm.trans hvmfree)).2
    have hblocked : MapFails { k with pmAlct := pm₁', kvmAlct := kvm } (kvm.addr v) ↔ k.Blocked size res := by
      rw [MapFails, Blocked, honly, not_not, haddr]
    refine ⟨rfl, ?_⟩
    obtain ⟨hfails, hpmfree, hv2p⟩ | ⟨hfails, hv2p⟩ := hcase
    · have hpm' := Except.ok.inj (hfree.symm.trans hpmfree)
      rw [Undone, ← hregions, and_iff_right (hblocked.mp hfails)]
      exact ⟨fun hsame ↦ hsame.regions, fun hsame ↦ ⟨hpm' ▸ hblocks, hsame, fun va _ _ ↦ hv2p va⟩⟩
    · refine iff_of_false (fun hsame ↦ hv2p ?_) fun hundone ↦ hfails (hblocked.mpr hundone.1)
      rw [haddr]
      exact hsame.v2p _ (h.kern res hmem) (by omega)

/-! ### `kmalloc` -/

/-- The bytes for which `kmalloc` calls `kmalloc_page`, if it does. -/
def request (k : KernMem) (size : ℕ) : Option ℕ :=
  if size = 0 then none
  else if size ≤ szSlabAllocMax then if k.slabAlct.NeedsPage size then some pageSize else none
  else some (roundUp size pageSize)

theorem kmallocRegion_of_page (hrun : k.kmallocPage new (roundUp size pageSize) = .ok (err, vp, k')) :
    k.kmallocRegion new size = match vp with
      | none => .error .unset
      | some v => .ok (err, some (k'.kvmAlct.addr v), k') := by
  simp only [kmallocRegion, hrun, ok_bind]
  cases vp <;> rfl

theorem kmalloc_of_request {m : ℕ} (hrequest : k.request size = some m)
    (hrun : k.kmallocPage new m = .ok (err, vp, k')) (herr : err ≠ .ok) :
    (vp = none → k.kmalloc new size = .error .unset) ∧
      (vp.isSome → ∃ addr, k.kmalloc new size = .ok (err, addr, k')) := by
  obtain ⟨depth, hdepth⟩ := Nat.exists_eq_add_of_le' (show 1 + 1 ≤ addressSpace by decide)
  rw [kmalloc, hdepth, kmallocTo]
  unfold request at hrequest
  split_ifs at hrequest ⊢ with hzero hsmall hpage
  · -- the slab asks for a page
    obtain rfl := Option.some_inj.mp hrequest
    have hregion : kmallocTo new (depth + 1) pageSize k = k.kmallocRegion new pageSize := by
      rw [kmallocTo, if_neg (by decide), if_neg (by decide)]
    have hpages : k.kmallocPage new (roundUp pageSize pageSize) = .ok (err, vp, k') := hrun
    rw [slabAlloc, if_pos hpage, hregion, kmallocRegion_of_page hpages]
    cases vp with
    | none => exact ⟨fun _ ↦ rfl, by simp⟩
    | some v =>
      refine ⟨by simp, fun _ ↦ ⟨none, ?_⟩⟩
      cases err
      case ok => exact absurd rfl herr
      all_goals rfl
  · obtain rfl := Option.some_inj.mp hrequest
    rw [kmallocRegion_of_page hrun]
    cases vp with
    | none => simp
    | some v => simp

theorem kmalloc_of_no_request {addr : Option ℕ} (hrequest : k.request size = none)
    (hrun : k.kmalloc new size = .ok (err, addr, k')) (herr : err ≠ .ok) : k' = k := by
  obtain ⟨depth, hdepth⟩ := Nat.exists_eq_add_of_le' (show 1 ≤ addressSpace by decide)
  rw [kmalloc, hdepth, kmallocTo] at hrun
  unfold request at hrequest
  split_ifs at hrequest hrun with hzero hsmall hpage
  · exact (ok_triple_inj hrun).2.2.symm
  · rw [slabAlloc, if_neg hpage] at hrun
    exact absurd (ok_pair_inj hrun).1.symm herr

/-- When a failed allocation leaves the blocks, the regions and the translations as they were.

`kmalloc_page` does so unless it finds block, region and descriptor, and then only if the first page cannot
be mapped and `vm_free` joins the region with no neighbour. A `kmalloc` that calls `kmalloc_page` reads the
region pointer, so it does so only if they were found. -/
theorem kmalloc_undone_iff (h : k.Valid) (hnew : k.kvmAlct.Supply new) (size : ℕ) :
    (∀ err vp k', k.kmallocPage new size = .ok (err, vp, k') → err ≠ .ok →
      (k.Same k' ↔ ∀ res, k.Finds new size res → k.Undone size res)) ∧
    (∀ err addr k', k.request size = none → k.kmalloc new size = .ok (err, addr, k') → err ≠ .ok → k.Same k') ∧
    ∀ m err vp k₁, k.request size = some m → k.kmallocPage new m = .ok (err, vp, k₁) → err ≠ .ok →
      (k.kmalloc new size = .error .unset ↔ ∀ res, ¬ k.Finds new m res) ∧
      ((∃ addr k', k.kmalloc new size = .ok (err, addr, k') ∧ k.Same k') ↔
        ∃ res, k.Finds new m res ∧ k.Undone m res) := by
  have hunique : ∀ {m res res'}, k.Finds new m res → k.Finds new m res' → res' = res := by
    intro m res res' hfinds hfinds'
    simpa [hfinds.region] using hfinds'.region.symm
  refine ⟨fun err vp k' hrun herr ↦ ?_, fun err addr k' hrequest hrun herr ↦ ?_,
    fun m err vp k₁ hrequest hrun herr ↦ ?_⟩
  · grind [kmallocPage_error]
  · rw [kmalloc_of_no_request hrequest hrun herr]
    exact .refl k
  · obtain ⟨hunset, hset⟩ := kmalloc_of_request hrequest hrun herr
    obtain ⟨hnone, rfl, -⟩ | ⟨res, hfinds, hsome, hiff⟩ := kmallocPage_error h hnew hrun herr
    all_goals grind

end KmallocPage

/-! ### Examples -/

theorem exampleMem_plain (va : ℕ) : Ptb.exampleMem.Plain 0x1000 va := by
  by_cases hslot : slotOf va = 768
  · refine .inr ?_
    rw [hslot]
    decide
  · refine .inl ?_
    have hne : 0x1000 + (slotOf va : ℕ) * 4 ≠ 0x1000 + 768 * 4 := by
      intro heq
      exact hslot (Fin.ext (show (slotOf va : ℕ) = 768 by omega))
    rw [Ptb.exampleMem, word_set_of_ne hne]
    exact Nat.zero_and _

/-- Two pages of memory, and two pages of kernel addresses, of which only the first has a table. -/
def exampleFrom (pm : PageAlct) (kvm : VpageAlct) : KernMem :=
  ⟨pm, kvm, ⟨Ptb.exampleMem, 0x1000, false⟩, ⟨0, fun _ ↦ 0⟩⟩

/-- `kmalloc_page` of two pages and `kmalloc` of four: the codes, the regions before, the region pointer and
the translation of the first address, and the fault. -/
def exampleRun : Result ((List Errno × Option Fault) × List (ℕ × ℕ) × List ℕ × List (Option ℕ)) := do
  let (err₁, pm) ← (PmState.blank 4096).pmInit 0x100000 712
  let (err₂, pm) ← pm.pmInsert 0x200000 0x2000
  let (err₃, kvm) ← VmState.blank.vmInit.vmInsert (.ok 0x5000) 0xC03FF000 0x2000
  let k := exampleFrom pm kvm
  let (err₄, vp, k') ← k.kmallocPage (.ok 0x6000) 0x2000
  let (err₅, pa) ← k'.ptb.v2p 0xC03FF000
  let fault := match k.kmalloc (.ok 0x6000) 0x4000 with
    | .error fault => some fault
    | .ok _ => none
  return (([err₁, err₂, err₃, err₄, err₅], fault), kvm.extents kvm.frees, kvm.frees ++ kvm.lives, [vp, pa])

theorem exampleRun_eq : exampleRun = .ok (([.ok, .ok, .ok, .nomem, .ok], some .unset),
    [(0xC03FF000, 0x2000)], [0x5000], [some 0x6000, some 0x200000]) := by decide +kernel

theorem exampleFrom_valid {pm₁ pm : PageAlct} {kvm : VpageAlct}
    (hinit : (PmState.blank 4096).pmInit 0x100000 712 = .ok (.ok, pm₁))
    (hinsert : pm₁.pmInsert 0x200000 0x2000 = .ok (.ok, pm))
    (hkvm : VmState.blank.vmInit.vmInsert (.ok 0x5000) 0xC03FF000 0x2000 = .ok (.ok, kvm))
    (hextents : kvm.extents kvm.frees = [(0xC03FF000, 0x2000)]) : (exampleFrom pm kvm).Valid := by
  have hreach : PmState.system.Reachable
      ⟨pm, PageAlct.initDescs 0x100000 712, [(0x200000, 0x2000)], []⟩ := by
    refine .step (.init (s := ⟨pm₁, PageAlct.initDescs 0x100000 712, [], []⟩)
      ⟨PmState.blank 4096, 0x100000, 712, ?_, hinit, rfl, rfl, rfl⟩) trivial
      (a := .insert 0x200000 0x2000) ⟨?_, pm, hinsert, rfl⟩
    · constructor <;> decide
    · exact ⟨by decide, by decide, by decide, by decide, by decide, by simp⟩
  obtain ⟨lay, g, live, -, -, hvalid, hcanon⟩ := hreach.invariant (P := PmState.CanonicalInv)
    (fun _ ↦ PmState.canonicalInv_init) fun _ _ _ ↦ PmState.canonicalInv_step
  dsimp only at hvalid hcanon
  have hdesc : VpageAlct.IsDesc 0x5000 := show 0x5000 + vpageTSize ≤ addressSpace by decide
  obtain ⟨kvm', free, hrun, hvalid', -⟩ := VpageAlct.vmInsert_valid
    (VpageAlct.vmInit_valid VmState.blank) (by simp) hdesc (show 0xC03FF000 % pageSize = 0 by decide)
    (show 0x2000 % pageSize = 0 by decide) (by decide) (by decide) (by simp)
  obtain rfl : kvm' = kvm := by simpa [hkvm] using hrun.symm
  have hregion : ∀ p ∈ kvm'.frees, kvm'.addr p = 0xC03FF000 := by
    intro p hp
    have hmem : (kvm'.addr p, kvm'.size p) ∈ kvm'.extents kvm'.frees := List.mem_map_of_mem hp
    rw [hextents, List.mem_singleton] at hmem
    exact (Prod.mk.inj hmem).1
  refine ⟨⟨lay, g, live, _, _, hvalid, hcanon⟩, ⟨_, _, _, hvalid'⟩, ⟨rfl, Ptb.exampleMem_directory⟩,
    fun p hp ↦ (hregion p hp).ge.trans' (by decide), fun p _ va _ ↦ exampleMem_plain va, fun x hx hfree ↦ ?_⟩
  obtain ⟨q, hq, hstate, hwithin⟩ := (hvalid.freeAddr_iff x).mp hfree
  obtain ⟨r, hr, hle, hlt⟩ := (hvalid.buddy.tiles.cover x).mpr ⟨q, hq, by simp [hstate], hwithin⟩
  obtain rfl := List.mem_singleton.mp hr
  dsimp only at hle hlt
  refine ⟨⟨hx, ?_⟩, ?_, fun i ↦ ?_⟩
  · unfold addressSpace
    omega
  · change x ≠ 0x1000
    omega
  · change (Ptb.exampleMem.tables 0x1000).dir i ≠ _
    grind [Ptb.exampleMem_dir, pageSize]

theorem exampleRun_calls : ∃ k k' : KernMem, k.Valid ∧ k.kvmAlct.Supply (.ok 0x6000) ∧
    k.ptb.v2p 0xC03FF000 = .ok (.notfound, none) ∧
    k.kmallocPage (.ok 0x6000) 0x2000 = .ok (.nomem, some 0x6000, k') ∧
    k'.ptb.v2p 0xC03FF000 = .ok (.ok, some 0x200000) ∧ k.kmalloc (.ok 0x6000) 0x4000 = .error .unset := by
  obtain ⟨⟨err₁, pm₁⟩, hinit, hrest⟩ := bind_eq_ok.mp exampleRun_eq
  obtain ⟨⟨err₂, pm⟩, hinsert, hrest⟩ := bind_eq_ok.mp hrest
  obtain ⟨⟨err₃, kvm⟩, hkvm, hrest⟩ := bind_eq_ok.mp hrest
  obtain ⟨⟨err₄, vp, k'⟩, hpage, hrest⟩ := bind_eq_ok.mp hrest
  obtain ⟨⟨err₅, pa⟩, hv2p, hrest⟩ := bind_eq_ok.mp hrest
  obtain ⟨⟨⟨rfl, rfl, rfl, rfl, rfl⟩, hfault⟩, hextents, hregions, rfl, rfl⟩ :
      ((err₁ = .ok ∧ err₂ = .ok ∧ err₃ = .ok ∧ err₄ = .nomem ∧ err₅ = .ok) ∧
        (match (exampleFrom pm kvm).kmalloc (.ok 0x6000) 0x4000 with
          | .error fault => some fault
          | .ok _ => none) = some .unset) ∧
        kvm.extents kvm.frees = [(0xC03FF000, 0x2000)] ∧ kvm.frees ++ kvm.lives = [0x5000] ∧
        vp = some 0x6000 ∧ pa = some 0x200000 := by simpa using hrest
  refine ⟨exampleFrom pm kvm, k', exampleFrom_valid hinit hinsert hkvm hextents, ⟨?_, ?_⟩, ?_, hpage, hv2p, ?_⟩
  · exact show 0x6000 + vpageTSize ≤ addressSpace by decide
  · rw [show (exampleFrom pm kvm).kvmAlct = kvm from rfl, hregions]
    decide
  · exact show Ptb.exampleMem.mmuV2p 0x1000 0xC03FF000 = _ by decide +kernel
  grind

/-- A failed `kmalloc_page` leaves its first page mapped, and `kmalloc` reads a region pointer that is not
set. -/
theorem kmalloc_not_undone : ∃ (k : KernMem) (new : Except Errno ℕ), k.Valid ∧ k.kvmAlct.Supply new ∧
    (∃ vp k', k.kmallocPage new 0x2000 = .ok (.nomem, vp, k') ∧ k.ptb.v2p 0xC03FF000 = .ok (.notfound, none) ∧
      k'.ptb.v2p 0xC03FF000 = .ok (.ok, some 0x200000) ∧ ¬ k.Same k') ∧
    k.kmalloc new 0x4000 = .error .unset := by
  obtain ⟨k, k', hvalid, hnew, hbefore, hrun, hafter, hunset⟩ := exampleRun_calls
  refine ⟨k, _, hvalid, hnew, ⟨_, k', hrun, hbefore, hafter, fun hsame ↦ ?_⟩, hunset⟩
  have hv2p := hsame.v2p 0xC03FF000 (by decide) (by decide)
  rw [hbefore, hafter] at hv2p
  simp at hv2p

/-- The condition for the call of `kmalloc_page` of the example, and a call of `kmalloc` without one. -/
theorem kmalloc_undone_iff_example : ∃ (k : KernMem) (new : Except Errno ℕ), k.Valid ∧
    k.kvmAlct.Supply new ∧ (∃ vp k', k.kmallocPage new 0x2000 = .ok (.nomem, vp, k') ∧
      (k.Same k' ↔ ∀ res, k.Finds new 0x2000 res → k.Undone 0x2000 res)) ∧
    ∀ err addr k', k.kmalloc new 0 = .ok (err, addr, k') → err ≠ .ok → k.Same k' := by
  obtain ⟨k, k', hvalid, hnew, -, hrun, -⟩ := exampleRun_calls
  exact ⟨k, _, hvalid, hnew, ⟨_, k', hrun, (kmalloc_undone_iff hvalid hnew 0x2000).1 _ _ _ hrun (by simp)⟩,
    fun err addr k' ↦ (kmalloc_undone_iff hvalid hnew 0).2.1 err addr k' rfl⟩

end KernMem

end Lanthorn
