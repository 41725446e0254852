import Lanthorn.Memory.FreshPages
import Lanthorn.Memory.PtbCopy
import Lanthorn.Memory.VmCalls
import Lanthorn.Memory.VmFrame

/-!
# `vm_fork`

The regions of a process are copied for its child: two walks over the trees of the parent insert a descriptor for
each region into the trees of the child, and each `UM_NORMAL` region gets a page of its own with the contents of
the parent's page. The descriptors of both processes lie in one memory, and so do their pages.

`VmFork.DescsCopied` says what holds of the descriptors when some of the regions have been copied, and
`VmFork.TablesCopied` and `VmFork.PagesCopied` what holds of the tables of the child and of the pages.
-/

namespace Lanthorn

open Function List

open Library PhysMem

/-- What the allocators return when `vm_fork` copies a region: `mm_ops.alloc` for the descriptor, and
`page_alloc` for the page and, inside `ptb_map`, for a table. -/
structure ForkAllocs where
  new : Except Errno ℕ
  page : Option ℕ
  table : Option ℕ

def ForkAllocs.vp (a : ForkAllocs) : ℕ :=
  match a.new with
  | .ok vp => vp
  | .error _ => 0

theorem ForkAllocs.vp_eq {a : ForkAllocs} {vp : ℕ} (h : a.new = .ok vp) : a.vp = vp := by rw [ForkAllocs.vp, h]

/-- The state of `vm_fork`: the parent with the memory of descriptors and of pages, the roots of the trees of
`new_alct`, the directory `ptb` of the child, the lock of `old_alct` and the nesting count of interrupts. -/
structure VmFork where
  old : Paged
  freeRoot : ℕ
  allocedRoot : ℕ
  pde : ℕ
  ptbLock : Bool
  lock : Bool
  ncli : ℕ

namespace VmFork

/-- `old_alct`. -/
def alct (s : VmFork) : VpageAlct := s.old.um.vpAlct

/-- `new_alct`. -/
def new (s : VmFork) : VpageAlct := s.alct.withRoots s.freeRoot s.allocedRoot

/-- Write `new_alct` and the memory of descriptors. -/
def setNew (s : VmFork) (a : VpageAlct) : VmFork :=
  { s with
    old := s.old.setVpAlct (a.withRoots s.alct.freeRoot s.alct.allocedRoot)
    freeRoot := a.freeRoot
    allocedRoot := a.allocedRoot }

/-- `ptb`. -/
def ptb (s : VmFork) : Ptb := ⟨s.old.ptb.mem, s.pde, s.ptbLock⟩

/-- Write `ptb` and the memory of pages. -/
def setPtb (s : VmFork) (t : Ptb) : VmFork :=
  { s with old := { s.old with ptb := { s.old.ptb with mem := t.mem } }, pde := t.pde, ptbLock := t.lock }

/-- `spin_lock_irqsave` on the lock of `old_alct`. -/
def spinLockIrqsave (s : VmFork) : Result VmFork :=
  if s.lock then throw .endless else return { s with lock := true, ncli := s.ncli + 1 }

/-- `spin_unlock_irqrestore` on the lock of `old_alct`. -/
def spinUnlockIrqrestore (s : VmFork) : Result VmFork := do
  assert (0 < s.ncli)
  return { s with lock := false, ncli := s.ncli - 1 }

/-- `vpn->map_page = page`. -/
def setMapPage (s : VmFork) (vpn page : ℕ) : VmFork :=
  { s with old := { s.old with mapPage := update s.old.mapPage vpn page } }

/-- The address, the size and the type of a region are copied to its new descriptor. -/
def copyLive (s : VmFork) (vpn vpo : ℕ) : VmFork :=
  s.setNew { s.new.setExtent vpn (s.new.addr vpo) (s.new.size vpo) with
    type := update s.new.type vpn (s.new.type vpo) }

/-- The address, the size and `mx_size` of a free region are copied to its new descriptor. -/
def copyFree (s : VmFork) (vpn vpo : ℕ) : VmFork :=
  s.setNew { s.new.setExtent vpn (s.new.addr vpo) (s.new.size vpo) with
    mxSize := update s.new.mxSize vpn (s.new.mxSize vpo) }

/-- The branch on `UM_NORMAL`, with a page from `page_alloc`. -/
def copyPage (s : VmFork) (table : Option ℕ) (vpn vpo page : ℕ) : Result VmFork := do
  let s := s.setMapPage vpn page
  let t ← s.ptb.copyTo table (s.new.addr vpn) page (s.old.mapPage vpo)
  return s.setPtb t

/-- `vm_insert_alloced` on `new_alct`; what it returns is not looked at. -/
def insertLive (s : VmFork) (vpn : ℕ) : Result (Errno × VmFork) := do
  let (_, a) ← s.new.vmInsertAlloced vpn
  return (.ok, s.setNew a)

/-- `vm_insert_free` on `new_alct`; what it returns is not looked at. -/
def insertFree (s : VmFork) (vpn : ℕ) : Result (Errno × VmFork) := do
  let (_, a) ← s.new.vmInsertFree vpn
  return (.ok, s.setNew a)

def forkDesc (s : VmFork) (a : ForkAllocs) (vpn vpo : ℕ) : Result (Errno × VmFork) :=
  let s := s.copyLive vpn vpo
  if s.new.type vpn = .umNormal then
    match a.page with
    | none => return (.nomem, s)
    | some page => do
      let s ← s.copyPage a.table vpn vpo page
      s.insertLive vpn
  else s.insertLive vpn

def forkLive (allocs : ℕ → ForkAllocs) (node : ℕ) (s : VmFork) : Result (Errno × VmFork) :=
  match (allocs (VpageAlct.vpageOf node)).new with
  | .error err => return (err, s)
  | .ok vpn => s.forkDesc (allocs (VpageAlct.vpageOf node)) vpn (VpageAlct.vpageOf node)

def forkFree (allocs : ℕ → ForkAllocs) (node : ℕ) (s : VmFork) : Result (Errno × VmFork) :=
  match (allocs (VpageAlct.vpageOf node)).new with
  | .error err => return (err, s)
  | .ok vpn => (s.copyFree vpn (VpageAlct.vpageOf node)).insertFree vpn

def forkLoop (body : ℕ → VmFork → Result (Errno × VmFork)) (t : Rbt) (s : VmFork) : Result (Errno × VmFork) := do
  let first ← Rbt.rbtFirst t
  Rbt.rbtRep (fun s ↦ s.alct.tree) body addressSpace first s

/-- `vm_fork` from the second loop on. -/
def forkFrees (s : VmFork) (allocs : ℕ → ForkAllocs) : Result (Errno × VmFork) := do
  let (err, s) ← forkLoop (forkFree allocs) s.alct.freeRbt s
  -- the early returns leave the lock and the interrupts as they are
  if err ≠ .ok then return (err, s)
  else do
    let s ← s.spinUnlockIrqrestore
    return (.ok, s)

/-- `vm_fork`. The allocators answer to each region by its descriptor. -/
def vmFork (s : VmFork) (allocs : ℕ → ForkAllocs) : Result (Errno × VmFork) := do
  let s ← s.spinLockIrqsave
  let s := s.setNew s.new.vmInit
  let (err, s) ← forkLoop (forkLive allocs) s.alct.allocedRbt s
  if err ≠ .ok then return (err, s) else s.forkFrees allocs

/-! ### What is asked for -/

def Normal (s : VmFork) (p : ℕ) : Prop := p ∈ s.alct.lives ∧ s.alct.type p = .umNormal

def NeedsTable (s : VmFork) (p : ℕ) : Prop :=
  s.Normal p ∧ ¬ s.ptb.HasTable (s.alct.addr p) ∧
    ∀ q, s.Normal q → s.alct.addr q < s.alct.addr p → slotOf (s.alct.addr q) ≠ slotOf (s.alct.addr p)

/-- `page_alloc` returns the page when the region is copied. -/
def Asked (s : VmFork) (allocs : ℕ → ForkAllocs) (p x : ℕ) : Prop :=
  s.Normal p ∧ ((allocs p).page = some x ∨ s.NeedsTable p ∧ (allocs p).table = some x)

/-- The allocators return memory that is not in use, for each region another. -/
structure Supplied (s : VmFork) (allocs : ℕ → ForkAllocs) : Prop where
  error : ∀ p, (allocs p).new ≠ .error .ok
  desc : ∀ p ∈ s.alct.frees ++ s.alct.lives, ∀ vp, (allocs p).new = .ok vp → s.alct.Fresh vp
  desc_inj : ∀ p ∈ s.alct.frees ++ s.alct.lives, ∀ q ∈ s.alct.frees ++ s.alct.lives, ∀ vp,
    (allocs p).new = .ok vp → (allocs q).new = .ok vp → p = q
  page : ∀ p x, s.Asked allocs p x → s.ptb.Unused x
  page_inj : ∀ p q x, s.Asked allocs p x → s.Asked allocs q x → p = q
  page_ne_table : ∀ p x, s.NeedsTable p → (allocs p).page = some x → (allocs p).table ≠ some x

def ServesLive (s : VmFork) (allocs : ℕ → ForkAllocs) (p : ℕ) : Prop :=
  (∃ vp, (allocs p).new = .ok vp) ∧ (s.Normal p → (allocs p).page.isSome) ∧
    (s.NeedsTable p → (allocs p).table.isSome)

/-- Every allocation that `vm_fork` asks for succeeds. -/
structure Served (s : VmFork) (allocs : ℕ → ForkAllocs) : Prop where
  live : ∀ p ∈ s.alct.lives, s.ServesLive allocs p
  free : ∀ p ∈ s.alct.frees, ∃ vp, (allocs p).new = .ok vp

/-- A parent with a valid allocator, and a child with a directory that has its own tables and no large pages
at the regions. -/
structure Forkable (s : VmFork) : Prop where
  unlocked : s.lock = false
  valid : ∃ free live covered, s.alct.Valid free live covered
  ptb : s.ptb.Inv
  plain : ∀ p, s.Normal p → s.ptb.Plain (s.alct.addr p)

@[simp] theorem setNew_new (s : VmFork) (a : VpageAlct) : (s.setNew a).new = a := rfl

theorem setNew_alct (s : VmFork) (a : VpageAlct) :
    (s.setNew a).alct = a.withRoots s.alct.freeRoot s.alct.allocedRoot := rfl

theorem Forkable.lists {s : VmFork} (h : s.Forkable) :
    ∃ covered, s.alct.Valid s.alct.frees s.alct.lives covered := by
  obtain ⟨free, live, covered, hvalid⟩ := h.valid
  exact ⟨covered, by rwa [hvalid.trees.frees_eq, hvalid.trees.lives_eq]⟩

/-! ### The descriptors -/

structure CopyOf (s₀ s : VmFork) (a : ForkAllocs) (p : ℕ) : Prop where
  addr : s.alct.addr a.vp = s₀.alct.addr p
  size : s.alct.size a.vp = s₀.alct.size p
  type : s.alct.type a.vp = s₀.alct.type p
  page : s₀.alct.type p = .umNormal → a.page = some (s.old.mapPage a.vp)

/-- The descriptors when the regions `free` and `live` have been copied: those of the parent are as before, and
the allocator of the child is valid and covers the copied regions. -/
structure DescsCopied (s₀ : VmFork) (allocs : ℕ → ForkAllocs) (free live : List ℕ) (s : VmFork) : Prop where
  um : s.old.um = s₀.old.um.setVpAlct s.alct
  untouched : s₀.alct.Untouched s.alct
  type : ∀ p ∈ s₀.alct.frees ++ s₀.alct.lives, s.alct.type p = s₀.alct.type p
  mapPage : ∀ p ∈ s₀.alct.frees ++ s₀.alct.lives, s.old.mapPage p = s₀.old.mapPage p
  sub : free ++ live ⊆ s₀.alct.frees ++ s₀.alct.lives
  served : ∀ p ∈ free ++ live, ∃ vp, (allocs p).new = .ok vp
  child : ∃ free' covered, free' ⊆ free.map (fun p ↦ (allocs p).vp) ∧
    (∀ x, covered x ↔ s₀.alct.HeldBy (free ++ live) x) ∧
    s.new.Valid free' (live.map fun p ↦ (allocs p).vp) covered
  copies : ∀ p ∈ live, CopyOf s₀ s (allocs p) p

section Descriptors

variable {s₀ s s₂ : VmFork} {allocs : ℕ → ForkAllocs} {free live : List ℕ} {covered : ℕ → Prop} {p vpn : ℕ}

theorem DescsCopied.fresh (h : DescsCopied s₀ allocs free live s) (hsup : s₀.Supplied allocs)
    (hp : p ∈ s₀.alct.frees ++ s₀.alct.lives) (hnot : p ∉ free ++ live) (hnew : (allocs p).new = .ok vpn) :
    VpageAlct.IsDesc vpn ∧ vpn ∉ s₀.alct.frees ++ s₀.alct.lives ∧
      vpn ∉ (free ++ live).map fun q ↦ (allocs q).vp := by
  obtain ⟨hdesc, hfresh⟩ := hsup.desc p hp vpn hnew
  grind [h.served, ForkAllocs.vp_eq, hsup.desc_inj, h.sub]

theorem DescsCopied.apart (h : DescsCopied s₀ allocs free live s) (hsup : s₀.Supplied allocs) :
    ∀ q ∈ s₀.alct.frees ++ s₀.alct.lives, q ∉ (free ++ live).map fun r ↦ (allocs r).vp := by
  intro q hq hmem
  obtain ⟨r, hr, rfl⟩ := List.mem_map.mp hmem
  obtain ⟨vp, hvp⟩ := h.served r hr
  rw [ForkAllocs.vp_eq hvp] at hq
  exact (hsup.desc r (h.sub hr) vp hvp).2 hq

section

variable (hvalid : s₀.alct.Valid s₀.alct.frees s₀.alct.lives covered) (h : DescsCopied s₀ allocs free live s)
include hvalid h

theorem DescsCopied.not_held (hp : p ∈ s₀.alct.frees ++ s₀.alct.lives) (hnot : p ∉ free ++ live) {x : ℕ}
    (hx : InRegion s₀.alct.addr s₀.alct.size p x) : ¬ s₀.alct.HeldBy (free ++ live) x := by
  rintro ⟨q, hq, hxq⟩
  exact hnot (hvalid.regions.eq_of_common hp (h.sub hq) hx hxq ▸ hq)

theorem DescsCopied.write_new (hsup : s₀.Supplied allocs) (hp : p ∈ s₀.alct.frees ++ s₀.alct.lives)
    (hnot : p ∉ free ++ live) (hnew : (allocs p).new = .ok vpn) {a : VpageAlct}
    (hwrites : VpageAlct.Writes s.new a [vpn]) (hfreeRoot : a.freeRoot = s.freeRoot)
    (hallocedRoot : a.allocedRoot = s.allocedRoot) (haddr : a.addr vpn = s.alct.addr p)
    (hsize : a.size vpn = s.alct.size p) : ∃ free' covered', free' ⊆ free.map (fun p ↦ (allocs p).vp) ∧
      vpn ∉ free' ++ live.map (fun p ↦ (allocs p).vp) ∧ (∀ x, covered' x ↔ s₀.alct.HeldBy (p :: (free ++ live)) x) ∧
      a.Trees free' (live.map fun p ↦ (allocs p).vp) 0 ∧ VpageAlct.Sorted a.addr free' ∧
      VpageAlct.Sorted a.addr (live.map fun p ↦ (allocs p).vp) ∧
      Regions pageSize addressSpace a.addr a.size (vpn :: (free' ++ live.map fun p ↦ (allocs p).vp))
        covered' := by
  obtain ⟨free', covered', hsub, hcover, hchild⟩ := h.child
  obtain ⟨-, -, hfresh⟩ := h.fresh hsup hp hnot hnew
  have hvpn : vpn ∉ free' ++ live.map fun p ↦ (allocs p).vp := by grind
  rw [h.untouched.addr p hp] at haddr
  rw [h.untouched.size p hp] at hsize
  have hin : ∀ x, InRegion a.addr a.size vpn x ↔ InRegion s₀.alct.addr s₀.alct.size p x := by
    intro x
    rw [InRegion, InRegion, haddr, hsize]
  obtain ⟨htrees, hfree, hlive, hregions⟩ := hchild.write_new hwrites hfreeRoot hallocedRoot hvpn
    (haddr ▸ hvalid.regions.start_unit p hp) (hsize ▸ hvalid.regions.len_unit p hp)
    (hsize ▸ hvalid.regions.pos p hp) (by rw [haddr, hsize]; exact hvalid.regions.bound p hp)
    (fun x hx ↦ by
      rw [hcover]
      exact h.not_held hvalid hp hnot ((hin x).mp hx))
  grind [VpageAlct.HeldBy]

theorem DescsCopied.untouched_of_writes {a : VpageAlct} {vps : List ℕ}
    (hwrites : VpageAlct.Writes s.new a vps) (hapart : ∀ p ∈ s₀.alct.frees ++ s₀.alct.lives, p ∉ vps) :
    s₀.alct.Untouched (a.withRoots s.alct.freeRoot s.alct.allocedRoot) ∧
      ∀ p ∈ s₀.alct.frees ++ s₀.alct.lives, a.type p = s₀.alct.type p := by
  have hvalid' := h.untouched.valid hvalid
  have hwrites' : VpageAlct.Writes s.alct (a.withRoots s.alct.freeRoot s.alct.allocedRoot) vps :=
    ⟨hwrites.addr, hwrites.size, hwrites.mxSize, hwrites.type, hwrites.tree⟩
  refine ⟨h.untouched.trans (hwrites'.untouched rfl rfl fun p hp ↦ ?_) hvalid, fun p hp ↦ ?_⟩
  · rw [hvalid'.trees.frees_eq, hvalid'.trees.lives_eq] at hp
    exact hapart p hp
  · rw [hwrites.type p (hapart p hp)]
    exact h.type p hp

end

theorem copyLive_writes (s : VmFork) (vpn vpo : ℕ) : VpageAlct.Writes s.new (s.copyLive vpn vpo).new [vpn] where
  addr q hq := update_of_ne (by simpa using hq) _ _
  size q hq := update_of_ne (by simpa using hq) _ _
  mxSize _ _ := rfl
  type q hq := update_of_ne (by simpa using hq) _ _
  tree _ _ := .refl _ _

theorem copyFree_writes (s : VmFork) (vpn vpo : ℕ) : VpageAlct.Writes s.new (s.copyFree vpn vpo).new [vpn] where
  addr q hq := update_of_ne (by simpa using hq) _ _
  size q hq := update_of_ne (by simpa using hq) _ _
  mxSize q hq := update_of_ne (by simpa using hq) _ _
  type _ _ := rfl
  tree _ _ := .refl _ _

theorem sorted_copies {addr : ℕ → ℕ} (h : VpageAlct.Sorted s₀.alct.addr live)
    (hcopies : ∀ q ∈ live, addr (allocs q).vp = s₀.alct.addr q) :
    VpageAlct.Sorted addr (live.map fun q ↦ (allocs q).vp) := by grind [VpageAlct.Sorted, h.imp_of_mem]

theorem DescsCopied.insertLive (hvalid : s₀.alct.Valid s₀.alct.frees s₀.alct.lives covered)
    (h : DescsCopied s₀ allocs [] live s) (hsup : s₀.Supplied allocs) {rest : List ℕ}
    (hlives : s₀.alct.lives = live ++ p :: rest) (hnew : (allocs p).new = .ok vpn)
    (hum : s₂.old.um = (s.copyLive vpn p).old.um) (hfreeRoot : s₂.freeRoot = s.freeRoot)
    (hallocedRoot : s₂.allocedRoot = s.allocedRoot) (hmap : ∀ q, q ≠ vpn → s₂.old.mapPage q = s.old.mapPage q)
    (hpage : s₀.alct.type p = .umNormal → (allocs p).page = some (s₂.old.mapPage vpn)) :
    ∃ a, s₂.insertLive vpn = .ok (.ok, s₂.setNew a) ∧ DescsCopied s₀ allocs [] (live ++ [p]) (s₂.setNew a) := by
  have hvp : (allocs p).vp = vpn := ForkAllocs.vp_eq hnew
  have hp : p ∈ s₀.alct.frees ++ s₀.alct.lives := by simp [hlives]
  have hlivesNodup := (List.nodup_append.mp hvalid.trees.nodup).2.1
  have hnot : p ∉ [] ++ live := by
    rw [hlives] at hlivesNodup
    grind
  obtain ⟨hdesc, hfresh₀, hfresh⟩ := h.fresh hsup hp hnot hnew
  have hne : ∀ q ∈ live, (allocs q).vp ≠ vpn := fun q hq heq ↦ hfresh (heq ▸ mem_map_of_mem hq)
  have hnew₂ : s₂.new = (s.copyLive vpn p).new := by
    rw [new, alct, hum, hfreeRoot, hallocedRoot]
    rfl
  obtain ⟨free', covered', hsub, hvpn, hcover, htrees, hfree, hlive, hregions⟩ :=
    h.write_new hvalid hsup hp hnot hnew (copyLive_writes s vpn p) rfl rfl (update_self _ _ _)
      (update_self _ _ _)
  obtain rfl : free' = [] := List.subset_nil.mp hsub
  obtain ⟨a, live', hrun, hvalid', hperm, hsame⟩ :=
    VpageAlct.vmInsertAlloced_valid htrees hfree hlive hvpn hdesc hregions
  have hwrites : VpageAlct.Writes s.new a (vpn :: live.map fun q ↦ (allocs q).vp) :=
    ((copyLive_writes s vpn p).mono (by simp)).trans
      (VpageAlct.vmInsertAlloced_writes htrees hvpn hdesc hrun)
  -- what the descriptors of the child say
  have haddr : ∀ q ∈ live, a.addr (allocs q).vp = s₀.alct.addr q := fun q hq ↦ by
    rw [hsame.addr]
    exact (update_of_ne (hne q hq) _ _).trans (h.copies q hq).addr
  have haddr_p : a.addr vpn = s₀.alct.addr p := by
    rw [hsame.addr]
    exact (update_self _ _ _).trans (h.untouched.addr p hp)
  have hsorted : VpageAlct.Sorted a.addr ((live ++ [p]).map fun q ↦ (allocs q).vp) := by
    have hpart : VpageAlct.Sorted s₀.alct.addr (live ++ [p]) :=
      hvalid.live_sorted.sublist (by rw [hlives]; exact (List.Sublist.refl live).append (by simp))
    refine sorted_copies hpart ?_
    rw [forall_mem_append, forall_mem_singleton, hvp]
    exact ⟨haddr, haddr_p⟩
  have hlive' : live' = (live ++ [p]).map fun q ↦ (allocs q).vp := by
    refine hvalid'.live_sorted.eq_of_perm hsorted (hperm.trans ?_)
    rw [map_append, map_singleton, hvp]
    exact (perm_append_singleton _ _).symm
  have hmem : ∀ q ∈ s₀.alct.frees ++ s₀.alct.lives, q ≠ vpn := fun q hq heq ↦ hfresh₀ (heq ▸ hq)
  obtain ⟨huntouched, htype⟩ := h.untouched_of_writes hvalid hwrites fun q hq hq' ↦ by grind [h.apart]
  have hroots : s₂.alct.freeRoot = s.alct.freeRoot ∧ s₂.alct.allocedRoot = s.alct.allocedRoot := by
    rw [alct, hum]
    exact ⟨rfl, rfl⟩
  refine ⟨a, ?_, ⟨?_, ?_, htype, fun q hq ↦ (hmap q (hmem q hq)).trans (h.mapPage q hq), ?_, ?_, ?_, ?_⟩⟩
  · refine bind_eq_ok.mpr ⟨(.ok, a), ?_, rfl⟩
    rw [hnew₂]
    exact hrun
  · change s₂.old.um.setVpAlct _ = _
    rw [hum]
    change s.old.um.setVpAlct _ = _
    rw [h.um]
    rfl
  · rw [setNew_alct, hroots.1, hroots.2]
    exact huntouched
  · grind
  · rw [nil_append, forall_mem_append, forall_mem_singleton]
    exact ⟨h.served, vpn, hnew⟩
  · refine ⟨[], covered', hsub, fun x ↦ ?_, ?_⟩
    · rw [hcover]
      exact exists_congr fun q ↦ and_congr_left fun _ ↦ by simp [or_comm]
    · rw [setNew_new, ← hlive']
      exact hvalid'
  · rw [forall_mem_append, forall_mem_singleton]
    refine ⟨fun q hq ↦ ?_, ?_⟩
    · have hcopy := h.copies q hq
      refine ⟨haddr q hq, ?_, ?_, fun hnormal ↦ ?_⟩
      · change a.size _ = _
        rw [hsame.size]
        exact (update_of_ne (hne q hq) _ _).trans hcopy.size
      · change a.type _ = _
        rw [hsame.type]
        exact (update_of_ne (hne q hq) _ _).trans hcopy.type
      · rw [hcopy.page hnormal]
        exact congrArg some (hmap _ (hne q hq)).symm
    · rw [← hvp] at hpage
      refine ⟨hvp ▸ haddr_p, ?_, ?_, hpage⟩
      · change a.size _ = _
        rw [hsame.size, hvp]
        exact (update_self _ _ _).trans (h.untouched.size p hp)
      · change a.type _ = _
        rw [hsame.type, hvp]
        exact (update_self _ _ _).trans (h.type p hp)

theorem DescsCopied.insertFree (hvalid : s₀.alct.Valid s₀.alct.frees s₀.alct.lives covered)
    (h : DescsCopied s₀ allocs free s₀.alct.lives s) (hsup : s₀.Supplied allocs) {rest : List ℕ}
    (hfrees : s₀.alct.frees = free ++ p :: rest) (hnew : (allocs p).new = .ok vpn) :
    ∃ a, (s.copyFree vpn p).insertFree vpn = .ok (.ok, (s.copyFree vpn p).setNew a) ∧
      DescsCopied s₀ allocs (free ++ [p]) s₀.alct.lives ((s.copyFree vpn p).setNew a) := by
  have hvp : (allocs p).vp = vpn := ForkAllocs.vp_eq hnew
  have hp : p ∈ s₀.alct.frees ++ s₀.alct.lives := by simp [hfrees]
  have hnot : p ∉ free ++ s₀.alct.lives := by
    have hnodup := hvalid.trees.nodup
    rw [hfrees] at hnodup
    grind
  obtain ⟨hdesc, hfresh₀, hfresh⟩ := h.fresh hsup hp hnot hnew
  obtain ⟨free', covered', hsub, hvpn, hcover, htrees, hfree, hlive, hregions⟩ :=
    h.write_new hvalid hsup hp hnot hnew (copyFree_writes s vpn p) rfl rfl (update_self _ _ _)
      (update_self _ _ _)
  obtain ⟨a, free'', hrun, hvalid', hsub', hsame, hwrites'⟩ :=
    VpageAlct.vmInsertFree_valid htrees hfree hlive hvpn hdesc hregions
  have hwrites : VpageAlct.Writes s.new a (vpn :: free') := ((copyFree_writes s vpn p).mono (by simp)).trans hwrites'
  have hapart : ∀ q ∈ s₀.alct.frees ++ s₀.alct.lives, q ∉ vpn :: free' := by
    intro q hq hq'
    rcases List.mem_cons.mp hq' with rfl | hq'
    · exact hfresh₀ hq
    · refine h.apart hsup q hq ?_
      rw [map_append]
      exact mem_append_left _ (hsub hq')
  obtain ⟨huntouched, htype⟩ := h.untouched_of_writes hvalid hwrites hapart
  have hne : ∀ q ∈ s₀.alct.lives, (allocs q).vp ∉ vpn :: free' := by grind [htrees.not_mem_live]
  refine ⟨a, bind_eq_ok.mpr ⟨(.ok, a), hrun, rfl⟩, ⟨?_, huntouched, htype, h.mapPage, ?_, ?_, ?_, ?_⟩⟩
  · change s.old.um.setVpAlct _ = _
    rw [h.um]
    rfl
  · have hsub := h.sub
    grind
  · have hserved := h.served
    grind
  · refine ⟨free'', covered', ?_, fun x ↦ ?_, hvalid'⟩
    · rw [map_append, map_singleton, hvp]
      grind
    · rw [hcover]
      exact exists_congr fun q ↦ and_congr_left fun _ ↦ by grind
  · intro q hq
    have hcopy := h.copies q hq
    exact ⟨(hwrites.addr _ (hne q hq)).trans hcopy.addr, (hwrites.size _ (hne q hq)).trans hcopy.size,
      (hwrites.type _ (hne q hq)).trans hcopy.type, hcopy.page⟩

end Descriptors

/-! ### The pages -/

/-- The tables of the child when the regions `live` have been copied. -/
structure TablesCopied (s₀ : VmFork) (allocs : ℕ → ForkAllocs) (live : List ℕ) (t : Ptb) : Prop where
  inv : t.Inv
  pde : t.pde = s₀.pde
  plain : ∀ va, s₀.ptb.Plain va → t.Plain va
  table : ∀ va, t.HasTable va ↔ s₀.ptb.HasTable va ∨ ∃ p ∈ live, s₀.Normal p ∧ slotOf (s₀.alct.addr p) = slotOf va
  unused : ∀ x, s₀.ptb.Unused x → (∀ p ∈ live, ¬ s₀.Asked allocs p x) → t.Unused x

/-- A child without user mappings, whose directory and tables are no pages of the parent. -/
structure EmptyChild (s : VmFork) : Prop where
  plain : ∀ va < kernBase, s.ptb.Plain va
  unmapped : ∀ va, Ptb.PageAddr va → va < kernBase → s.ptb.entryAt va = none
  directory : ¬ s.old.ptb.Owns s.pde
  tables : ∀ va < kernBase, ∀ f, s.ptb.tables.dir (slotOf va) = some f → ¬ s.old.ptb.Owns (f * pageSize)

/-- The pages when the regions `live` have been copied into an empty child. -/
structure PagesCopied (s₀ : VmFork) (allocs : ℕ → ForkAllocs) (live : List ℕ) (t : Ptb) : Prop where
  mapped : ∀ p ∈ live, s₀.Normal p → ∀ page, (allocs p).page = some page →
    t.entryAt (s₀.alct.addr p) = some (pxe page 1 1)
  unmapped : ∀ va, Ptb.PageAddr va → va < kernBase → (∀ p ∈ live, s₀.Normal p → s₀.alct.addr p ≠ va) →
    t.entryAt va = none
  tables : ∀ va < kernBase, ∀ f, t.tables.dir (slotOf va) = some f → s₀.ptb.tables.dir (slotOf va) = some f ∨
      ∃ p ∈ live, s₀.NeedsTable p ∧ (allocs p).table = some (f * pageSize)
  kept : ∀ q x, Ptb.PageAddr q → s₀.old.ptb.Owns q → q ≤ x → x < q + pageSize → t.mem.word x = s₀.ptb.mem.word x
  contents : ∀ p ∈ live, s₀.Normal p → ∀ page, (allocs p).page = some page → ∀ i < pageSize,
    t.mem.word (page + i) = s₀.ptb.mem.word (s₀.old.mapPage p + i)

section Pages

variable {s₀ : VmFork} {allocs : ℕ → ForkAllocs} {live rest : List ℕ} {covered : ℕ → Prop} {p page : ℕ}
  {t t' : Ptb}

section

variable (hvalid : s₀.alct.Valid s₀.alct.frees s₀.alct.lives covered)
  (hlives : s₀.alct.lives = live ++ p :: rest)
include hvalid hlives

theorem mem_copied_iff {q : ℕ} : q ∈ live ↔ q ∈ s₀.alct.lives ∧ s₀.alct.addr q < s₀.alct.addr p := by
  have hsorted := hvalid.live_sorted
  rw [hlives] at hsorted ⊢
  obtain ⟨-, hrest, hbefore⟩ := List.pairwise_append.mp hsorted
  grind [pairwise_cons, mem_cons_self]

theorem not_mem_copied : p ∉ live := fun hp ↦
  absurd ((mem_copied_iff hvalid hlives).mp hp).2 (Nat.lt_irrefl _)

end

section

variable (h : TablesCopied s₀ allocs live t)
include h

theorem TablesCopied.needsTable_iff (hvalid : s₀.alct.Valid s₀.alct.frees s₀.alct.lives covered)
    (hlives : s₀.alct.lives = live ++ p :: rest) (hnormal : s₀.Normal p) :
    s₀.NeedsTable p ↔ ¬ t.HasTable (s₀.alct.addr p) := by
  rw [h.table, not_or, NeedsTable, and_iff_right hnormal]
  refine and_congr_right fun _ ↦ ⟨fun hfirst ↦ ?_, fun hno q hq hlt hslot ↦ ?_⟩
  · grind [mem_copied_iff]
  · exact hno ⟨q, (mem_copied_iff hvalid hlives).mpr ⟨hq.1, hlt⟩, hq, hslot⟩

theorem TablesCopied.asked_unused (hsup : s₀.Supplied allocs) (hnot : p ∉ live) {x : ℕ}
    (hx : s₀.Asked allocs p x) : t.Unused x :=
  h.unused x (hsup.page p x hx) fun q hq hq' ↦ hnot (hsup.page_inj p q x hx hq' ▸ hq)

theorem TablesCopied.skip (hp : ¬ s₀.Normal p) : TablesCopied s₀ allocs (live ++ [p]) t where
  inv := h.inv
  pde := h.pde
  plain := h.plain
  table va := by grind [h.table]
  unused x hx hno := h.unused x hx fun q hq ↦ hno q (mem_append_left _ hq)

theorem TablesCopied.step (hsup : s₀.Supplied allocs)
    (hvalid : s₀.alct.Valid s₀.alct.frees s₀.alct.lives covered) (hlives : s₀.alct.lives = live ++ p :: rest)
    (hnormal : s₀.Normal p) (hplain : s₀.ptb.Plain (s₀.alct.addr p)) (hpage : (allocs p).page = some page)
    (htable : s₀.NeedsTable p → (allocs p).table.isSome) (old : ℕ) :
    ∃ t', t.copyTo (allocs p).table (s₀.alct.addr p) page old = .ok t' ∧
      Ptb.Steady t t' (allocs p).table (s₀.alct.addr p) ∧ TablesCopied s₀ allocs (live ++ [p]) t' ∧
      (t.entryAt (s₀.alct.addr p) = none → Ptb.Copies t t' (s₀.alct.addr p) page old) := by
  have hnot := not_mem_copied hvalid hlives
  have hmem : p ∈ s₀.alct.frees ++ s₀.alct.lives := mem_append_right _ hnormal.1
  have hneeds := h.needsTable_iff hvalid hlives hnormal
  have hva : Ptb.PageAddr (s₀.alct.addr p) := by
    have hbound := hvalid.regions.bound p hmem
    exact ⟨hvalid.regions.start_unit p hmem, by omega⟩
  have htable' : ¬ t.HasTable (s₀.alct.addr p) → ∃ q, (allocs p).table = some q ∧ t.Unused q := by
    intro hno
    obtain ⟨q, hq⟩ := Option.isSome_iff_exists.mp (htable (hneeds.mpr hno))
    exact ⟨q, hq, h.asked_unused hsup hnot ⟨hnormal, .inr ⟨hneeds.mpr hno, hq⟩⟩⟩
  obtain ⟨t', hrun, hsteady, hcopies⟩ := Ptb.copyTo_steady h.inv hva (h.plain _ hplain)
    (h.asked_unused hsup hnot ⟨hnormal, .inl hpage⟩) htable' old
  refine ⟨t', hrun, hsteady, ⟨hsteady.inv, hsteady.pde.trans h.pde, fun va hva ↦
    hsteady.plain va (h.plain va hva), fun va ↦ ?_, fun x hx hno ↦ ?_⟩, fun hnone ↦ hcopies hnone ?_⟩
  · -- the slot of the region has a table now
    have hhas : t'.HasTable va ↔ t.HasTable va ∨ slotOf (s₀.alct.addr p) = slotOf va := by
      obtain ⟨hyes, hsame⟩ | ⟨-, q, -, hnew⟩ := hsteady.dir
      · grind [Ptb.HasTable]
      · rw [Ptb.HasTable, Ptb.HasTable, hnew, update_apply]
        split_ifs with hslot
        · simp [hslot]
        · simp [Ne.symm hslot]
    grind [h.table]
  · refine hsteady.unused x (h.unused x hx fun q hq ↦ hno q (mem_append_left _ hq)) ?_
    by_contra hcon
    rw [not_or, not_not] at hcon
    exact hno p (by simp) ⟨hnormal, .inr ⟨hneeds.mpr hcon.1, hcon.2⟩⟩
  · rintro q hq hno rfl
    exact hsup.page_ne_table p q (hneeds.mpr hno) hpage hq

end

theorem PagesCopied.skip (h : PagesCopied s₀ allocs live t) (hp : ¬ s₀.Normal p) :
    PagesCopied s₀ allocs (live ++ [p]) t := by
  have hmem : ∀ q ∈ live ++ [p], s₀.Normal q → q ∈ live := fun q hq hq' ↦
    (List.mem_append.mp hq).resolve_right fun heq ↦ hp (List.mem_singleton.mp heq ▸ hq')
  refine ⟨fun q hq hq' ↦ h.mapped q (hmem q hq hq') hq', fun va hva hlt hno ↦
    h.unmapped va hva hlt fun q hq ↦ hno q (mem_append_left _ hq), fun va hva f hf ↦ ?_, h.kept,
    fun q hq hq' ↦ h.contents q (hmem q hq hq') hq'⟩
  grind [h.tables]

def NewPages (s : VmFork) (allocs : ℕ → ForkAllocs) : Prop :=
  ∀ p x, s.Asked allocs p x → ¬ s.old.ptb.Owns x

theorem PagesCopied.tables_step (h : PagesCopied s₀ allocs live t) (htables : TablesCopied s₀ allocs live t)
    (hsup : s₀.Supplied allocs) (hvalid : s₀.alct.Valid s₀.alct.frees s₀.alct.lives covered)
    (hlives : s₀.alct.lives = live ++ p :: rest) (hnormal : s₀.Normal p)
    (hsteady : Ptb.Steady t t' (allocs p).table (s₀.alct.addr p)) {va : ℕ} (hva : va < kernBase) {f : ℕ}
    (hf : t'.tables.dir (slotOf va) = some f) : s₀.ptb.tables.dir (slotOf va) = some f ∨
      ∃ q ∈ live ++ [p], s₀.NeedsTable q ∧ (allocs q).table = some (f * pageSize) := by
  have hold : t.tables.dir (slotOf va) = some f → s₀.ptb.tables.dir (slotOf va) = some f ∨
      ∃ q ∈ live ++ [p], s₀.NeedsTable q ∧ (allocs q).table = some (f * pageSize) := fun hdir ↦
    (h.tables va hva f hdir).imp_right (Exists.imp fun _ ↦ And.imp_left (mem_append_left _))
  obtain ⟨-, hsame⟩ | ⟨hno, q, hq, hnew⟩ := hsteady.dir
  · exact hold (hsame ▸ hf)
  · rw [hnew, update_apply] at hf
    split_ifs at hf
    · have hneeds := (htables.needsTable_iff hvalid hlives hnormal).mpr hno
      have hunit := (hsup.page p q ⟨hnormal, .inr ⟨hneeds, hq⟩⟩).1.1
      grind [Nat.div_mul_cancel, Nat.dvd_of_mod_eq_zero]
    · exact hold hf

theorem PagesCopied.step (h : PagesCopied s₀ allocs live t) (htables : TablesCopied s₀ allocs live t)
    (hempty : s₀.EmptyChild) (hnewPages : s₀.NewPages allocs) (hsup : s₀.Supplied allocs)
    (hvalid : s₀.alct.Valid s₀.alct.frees s₀.alct.lives covered) (hlives : s₀.alct.lives = live ++ p :: rest)
    (hnormal : s₀.Normal p) (hlt : s₀.alct.addr p < kernBase) (hpage : (allocs p).page = some page)
    (hold : Ptb.PageAddr (s₀.old.mapPage p) ∧ s₀.old.ptb.Owns (s₀.old.mapPage p))
    (hsteady : Ptb.Steady t t' (allocs p).table (s₀.alct.addr p))
    (hcopies : Ptb.Copies t t' (s₀.alct.addr p) page (s₀.old.mapPage p)) :
    PagesCopied s₀ allocs (live ++ [p]) t' := by
  have hask : s₀.Asked allocs p page := ⟨hnormal, .inl hpage⟩
  have hva : ∀ {q}, s₀.Normal q → Ptb.PageAddr (s₀.alct.addr q) := by
    intro q hq
    have hq' : q ∈ s₀.alct.frees ++ s₀.alct.lives := mem_append_right _ hq.1
    have hbound := hvalid.regions.bound q hq'
    have hpos := hvalid.regions.pos q hq'
    exact ⟨hvalid.regions.start_unit q hq', by omega⟩
  have hne : ∀ q ∈ live, s₀.alct.addr q ≠ s₀.alct.addr p := fun q hq ↦
    Nat.ne_of_lt ((mem_copied_iff hvalid hlives).mp hq).2
  have htables' : ∀ va < kernBase, ∀ f, t'.tables.dir (slotOf va) = some f → _ := fun va hva f hf ↦
    h.tables_step htables hsup hvalid hlives hnormal hsteady hva hf
  have hkept : ∀ q x, Ptb.PageAddr q → s₀.old.ptb.Owns q → q ≤ x → x < q + pageSize →
      t'.mem.word x = t.mem.word x := by
    intro q x hq howns hx hx'
    refine hcopies.kept q x hq ?_ ?_ ?_ hx hx'
    · rintro rfl
      exact hempty.directory (htables.pde ▸ howns)
    · rintro rfl
      exact hnewPages p q hask howns
    · rintro f hf rfl
      obtain hdir | ⟨r, -, hr, hr'⟩ := htables' _ hlt f hf
      · exact hempty.tables _ hlt f hdir howns
      · exact hnewPages r _ ⟨hr.1, .inr ⟨hr, hr'⟩⟩ howns
  refine ⟨?_, fun va hva' hlt' hno ↦ ?_, htables', fun q x hq howns hx hx' ↦ ?_, ?_⟩
  · grind [hcopies.others, h.mapped, hcopies.entry]
  · grind [hcopies.others, h.unmapped]
  · rw [hkept q x hq howns hx hx']
    exact h.kept q x hq howns hx hx'
  · rw [forall_mem_append, forall_mem_singleton]
    refine ⟨fun q hq hq' x hx i hi ↦ ?_, fun _ x hx i hi ↦ ?_⟩
    · -- an earlier copy is neither the directory, nor the new page, nor a table
      have hask' : s₀.Asked allocs q x := ⟨hq', .inl hx⟩
      have hunused := hsup.page q x hask'
      rw [← h.contents q hq hq' x hx i hi]
      refine hcopies.kept x _ hunused.1 (htables.pde ▸ hunused.2.1) ?_ ?_ (Nat.le_add_right _ _)
        (Nat.add_lt_add_left hi _)
      · rintro rfl
        exact hne q hq (by rw [hsup.page_inj q p x hask' hask])
      · rintro f hf rfl
        obtain hdir | ⟨r, -, hr, hr'⟩ := htables' _ hlt f hf
        · refine hunused.2.2 (slotOf (s₀.alct.addr p)) ?_
          rw [hdir, Nat.mul_div_cancel _ (by decide)]
        · obtain rfl := hsup.page_inj r q _ ⟨hr.1, .inr ⟨hr, hr'⟩⟩ hask'
          exact hsup.page_ne_table r _ hr hx hr'
    grind [hcopies.contents, h.kept]

end Pages

end VmFork

end Lanthorn
