import Lanthorn.Memory.Vm

/-!
# `kernel/memory/um.c` and `kernel/memory/slab.c`

The allocation of user memory. `umalloc` serves small requests from a slab, which cuts them from the page that it
took last, and larger ones with regions of whole pages (`umalloc_page`). When no free region is large enough,
`um_heap_alloc` moves the end of the heap up and the new range is inserted.

`slab_alloc` gets its pages from the `alloc` of its allocator. In the slab of a process this is `umalloc_slab`,
which calls `umalloc` again for the same process; `umalloc` is a loop through `slab_alloc`, here with the depth of
the calls as fuel. The counters that a slab keeps at the starts of its pages are a map from addresses.

Region descriptors come from `kmalloc`, whose answers are arguments. The parts of the layout that no allocation
reads are left out.
-/

namespace Lanthorn

/-! ### Slabs -/

/-- `slab_alct_t` with the counters of its pages. -/
structure SlabAlct where
  freep : ℕ
  cnt : ℕ → ℕ

namespace SlabAlct

def uintSize : ℕ := 4

/-- `get_cnt`. -/
def getCnt (addr : ℕ) : ℕ := roundDown addr pageSize

/-- Whether `slab_alloc` needs a new page. -/
def NeedsPage (s : SlabAlct) (size : ℕ) : Prop :=
  s.freep = 0 ∨ wordAdd s.freep size ≥ roundUp s.freep pageSize

instance (s : SlabAlct) (size : ℕ) : Decidable (s.NeedsPage size) := by
  unfold NeedsPage
  infer_instance

/-- `slab_alloc` begins a new page. -/
def beginPage (s : SlabAlct) (addr : ℕ) : SlabAlct where
  freep := wordAdd addr uintSize
  cnt := Function.update s.cnt addr 0

/-- `slab_alloc` cuts memory from its page. -/
def cut (s : SlabAlct) (size : ℕ) : SlabAlct where
  freep := wordAdd s.freep size
  cnt := Function.update s.cnt (getCnt s.freep) (wordAdd (s.cnt (getCnt s.freep)) 1)

/-- `slab_init`. -/
def slabInit (s : SlabAlct) : SlabAlct := { s with freep := 0 }

end SlabAlct

/-- `slab_alloc` for a slab inside a larger state: the error code and the address. -/
def slabAlloc {σ : Type} (slab : σ → SlabAlct) (setSlab : σ → SlabAlct → σ)
    (alloc : ℕ → σ → Result (Errno × Option ℕ × σ)) (size : ℕ) (st : σ) :
    Result (Errno × Option ℕ × σ) := do
  if (slab st).NeedsPage size then
    let (err, addr, st) ← alloc pageSize st
    match err, addr with
    | .ok, some addr =>
      let s := (slab st).beginPage addr
      return (.ok, some s.freep, setSlab st (s.cut size))
    | err, _ => return (err, none, st)
  else return (.ok, some (slab st).freep, setSlab st ((slab st).cut size))

/-! ### User memory -/

/-- `CONFIG_SZ_SLAB_ALLOC_MAX`. -/
def szSlabAllocMax : ℕ := 256

/-- The parts of `uvm_layout_t` that the heap uses. -/
structure UvmLayout where
  heapS : ℕ
  heapE : ℕ
  freeS : ℕ
  freeE : ℕ
  stkS : ℕ
  deriving DecidableEq, Repr

/-- `init_uvmlo`. -/
def initUvmlo : UvmLayout where
  heapS := 0
  heapE := 0
  freeS := 0
  freeE := kernBase - pageSize
  stkS := kernBase - pageSize

/-- `um_t`. -/
structure Um where
  layout : UvmLayout
  vpAlct : VpageAlct
  slabAlct : SlabAlct

/-- What `kmalloc` returns in the course of one `umalloc_page`: to the first `vm_alloc`, to
`vm_insert`, and to the second `vm_alloc`. -/
structure Kmallocs where
  alloc : Except Errno ℕ
  insert : Except Errno ℕ
  realloc : Except Errno ℕ

namespace Um

/-- Write `vp_alct`. -/
def setVpAlct (um : Um) (s : VpageAlct) : Um := { um with vpAlct := s }

/-- Write `slab_alct`. -/
def setSlabAlct (um : Um) (s : SlabAlct) : Um := { um with slabAlct := s }

/-- `um_heap_alloc`: the error code and the address. -/
def umHeapAlloc (um : Um) (size : ℕ) : Result (Errno × Option ℕ × Um) := do
  assert (size % pageSize = 0)
  if wordAdd um.layout.freeS size > um.layout.freeE then return (.nomem, none, um)
  else return (.ok, some um.layout.heapE, { um with layout := { um.layout with
    heapE := wordAdd um.layout.heapE size
    freeS := wordAdd um.layout.freeS size } })

/-- The branch of `umalloc_page` on `E_NOMEM`: the heap grows, and the new range is inserted and
allocated from. -/
def umallocGrow (um : Um) (km : Kmallocs) (size : ℕ) : Result (Errno × Option ℕ × Um) := do
  let (err, nm, um) ← um.umHeapAlloc size
  match err, nm with
  | .ok, some nm => do
    let (err, s) ← um.vpAlct.vmInsert km.insert nm size
    if err ≠ .ok then return (err, none, um.setVpAlct s)
    else do
      let (err, vp, s) ← s.vmAlloc km.realloc size
      return (err, vp, um.setVpAlct s)
  | err, _ => return (err, none, um)

/-- The region that `umalloc_page` uses. -/
def umallocRegion (um : Um) (km : Kmallocs) (size : ℕ) : Result (Errno × Option ℕ × Um) := do
  let (err, vp, s) ← um.vpAlct.vmAlloc km.alloc size
  if err = .nomem then (um.setVpAlct s).umallocGrow km size
  else return (err, vp, um.setVpAlct s)

/-- `umalloc_page`: the error code and the address. -/
def umallocPage (um : Um) (km : Kmallocs) (size : ℕ) : Result (Errno × Option ℕ × Um) := do
  assert (size % pageSize = 0)
  let (err, vp, um) ← um.umallocRegion km size
  match err, vp with
  | .ok, some vp => return (.ok, some (um.vpAlct.addr vp),
      um.setVpAlct { um.vpAlct with type := Function.update um.vpAlct.type vp .umNopm })
  | err, _ => return (err, none, um)

/-- `umalloc`, with the depth to which it may call itself through `slab_alloc`. -/
def umallocTo (km : Kmallocs) : ℕ → ℕ → Um → Result (Errno × Option ℕ × Um)
  | 0, _, _ => throw .endless
  | depth + 1, size, um =>
    if size = 0 then return (.inval, none, um)
    else if size ≤ szSlabAllocMax then
      slabAlloc slabAlct setSlabAlct (umallocTo km depth) size um
    else um.umallocPage km (roundUp size pageSize)

/-- `umalloc`: the error code and the address. -/
def umalloc (um : Um) (km : Kmallocs) (size : ℕ) : Result (Errno × Option ℕ × Um) :=
  umallocTo km addressSpace size um

/-- `um_init`. -/
def umInit (um : Um) : Um where
  layout := initUvmlo
  vpAlct := um.vpAlct.vmInit
  slabAlct := um.slabAlct.slabInit

end Um

end Lanthorn
