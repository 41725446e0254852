import Lanthorn.Kernel.RbtUpdate

/-!
# `kernel/memory/vm.c`

The allocator of virtual regions, function by function. A region has a descriptor `vpage_t`, named by its address,
and each member of `vpage_t` is a map from addresses. The free regions are in the tree `free_rbt`, whose nodes
carry the largest size of their subtree in `mx_size`, and the allocated ones in the tree `alloced_rbt`; both lie in
one memory of tree nodes.

Descriptors come from `mm_ops.alloc`, so every call that makes one takes what `mm_ops.alloc` returned as an
argument, an error code or an address. `mm_ops.free` takes a descriptor back; what its owner does with the memory
is not part of the call. The locks are left out, and so is `map_page`, which nothing here reads.
-/

namespace Lanthorn

open Library

/-- `enum TYPE` of `vpage_t`. -/
inductive VpageType
  | kmNormal
  | umNormal
  | umNopm
  | umRcu
  deriving DecidableEq, Repr

/-- The offset of `rbt_node` in `vpage_t`. -/
def vpageRbtNode : ℕ := 32

/-- The size of `vpage_t`. -/
def vpageTSize : ℕ := 48

/-- `vpage_alct_t` with the memory of its descriptors. -/
structure VpageAlct where
  freeRoot : ℕ
  allocedRoot : ℕ
  addr : ℕ → ℕ
  size : ℕ → ℕ
  mxSize : ℕ → ℕ
  type : ℕ → VpageType
  tree : TreeMem

namespace VpageAlct

/-- `free_rbt`. -/
def freeRbt (s : VpageAlct) : Rbt := ⟨s.tree, s.freeRoot⟩

/-- `alloced_rbt`. -/
def allocedRbt (s : VpageAlct) : Rbt := ⟨s.tree, s.allocedRoot⟩

/-- Write `free_rbt`. -/
def setFreeRbt (s : VpageAlct) (t : Rbt) : VpageAlct := { s with tree := t.mem, freeRoot := t.root }

/-- Write `alloced_rbt`. -/
def setAllocedRbt (s : VpageAlct) (t : Rbt) : VpageAlct :=
  { s with tree := t.mem, allocedRoot := t.root }

def vpageOf (node : ℕ) : ℕ := containerOf node vpageRbtNode

def setExtent (s : VpageAlct) (vp addr size : ℕ) : VpageAlct :=
  { s with addr := Function.update s.addr vp addr, size := Function.update s.size vp size }

/-- `vpage_new`, given what `mm_ops.alloc` returned. -/
def vpageNew (s : VpageAlct) (new : Except Errno ℕ) (addr size : ℕ) : Except Errno (ℕ × VpageAlct) :=
  match new with
  | .error err => .error err
  | .ok vp => .ok (vp, s.setExtent vp addr size)

/-- `update` of `vm.c` on the sizes of the regions: `mx_size` of a node from its children. -/
def update (size : ℕ → ℕ) (m : TreeMem) (mx : ℕ → ℕ) (node : ℕ) : ℕ → ℕ :=
  let vp := vpageOf node
  let mxSize := 0
  let mxSize := if m.child .left node ≠ 0 then max mxSize (mx (vpageOf (m.child .left node)))
    else mxSize
  let mxSize := if m.child .right node ≠ 0 then max mxSize (mx (vpageOf (m.child .right node)))
    else mxSize
  Function.update mx vp (max mxSize (size vp))

def compareAddr (s : VpageAlct) (a node : ℕ) : Ordering :=
  Rbt.compareKeys a (s.addr (vpageOf node))

/-- `rbt_insert` of `vm.c` into one of the trees. -/
def rbtInsert (s : VpageAlct) (t : Rbt) (vp : ℕ) : Result (Errno × Rbt) := do
  let t' ← t.insertBy (s.compareAddr (s.addr vp)) (vp + vpageRbtNode)
  match t' with
  | none => return (.exist, t)
  | some t' => return (.ok, t')

/-! ### Free regions -/

/-- `vm_delete_free`. -/
def vmDeleteFree (s : VpageAlct) (vp : ℕ) : Result VpageAlct := do
  let deepest ← Rbt.rbtDeleteUpdateBegin s.tree (vp + vpageRbtNode)
  let t ← s.freeRbt.rbtDelete (vp + vpageRbtNode)
  let s := s.setFreeRbt t
  let mx ← Rbt.rbtDeleteUpdateEnd s.tree (update s.size s.tree) deepest s.mxSize
  return { s with mxSize := mx }

/-- `rbt_update` with `update`. -/
def rbtUpdate (s : VpageAlct) (node : ℕ) : Result VpageAlct := do
  let mx ← Rbt.rbtUpdate s.tree (update s.size s.tree) node s.mxSize
  return { s with mxSize := mx }

/-- The first loop of `vm_merge`, over the regions behind. The second component tells that
`vm_merge` returns, because the next region does not follow immediately. -/
def mergeNext (now : ℕ) : ℕ → VpageAlct → Result (VpageAlct × Bool)
  | 0, _ => throw .endless
  | fuel + 1, s => do
    let tmp ← Rbt.rbtNext s.tree now
    if tmp = 0 then return (s, false)
    else
      let nowvp := vpageOf now
      let tmpvp := vpageOf tmp
      if wordAdd (s.addr nowvp) (s.size nowvp) ≠ s.addr tmpvp then return (s, true)
      else do
        let s ← (s.setExtent nowvp (s.addr nowvp) (wordAdd (s.size nowvp) (s.size tmpvp))).vmDeleteFree tmpvp
        let s ← s.rbtUpdate now
        mergeNext now fuel s

/-- The second loop of `vm_merge`, over the regions in front. -/
def mergePrev (now : ℕ) : ℕ → VpageAlct → Result VpageAlct
  | 0, _ => throw .endless
  | fuel + 1, s => do
    let tmp ← Rbt.rbtPrev s.tree now
    if tmp = 0 then return s
    else
      let nowvp := vpageOf now
      let tmpvp := vpageOf tmp
      if wordAdd (s.addr tmpvp) (s.size tmpvp) ≠ s.addr nowvp then return s
      else do
        let s ← (s.setExtent nowvp (s.addr tmpvp) (wordAdd (s.size nowvp) (s.size tmpvp))).vmDeleteFree tmpvp
        let s ← s.rbtUpdate now
        mergePrev now fuel s

/-- `vm_merge`. -/
def vmMerge (s : VpageAlct) (vp : ℕ) : Result VpageAlct := do
  let now := vp + vpageRbtNode
  let (s, done) ← mergeNext now addressSpace s
  if done then return s else mergePrev now addressSpace s

/-- `vm_insert_free`. -/
def vmInsertFree (s : VpageAlct) (vp : ℕ) : Result (Errno × VpageAlct) := do
  let (err, t) ← s.rbtInsert s.freeRbt vp
  let s := s.setFreeRbt t
  if err ≠ .ok then return (err, s)
  else do
    let mx ← Rbt.rbtInsertUpdate s.tree (update s.size s.tree) (vp + vpageRbtNode) s.mxSize
    let s ← { s with mxSize := mx }.vmMerge vp
    return (.ok, s)

/-- `vm_insert_alloced`. -/
def vmInsertAlloced (s : VpageAlct) (vp : ℕ) : Result (Errno × VpageAlct) := do
  let (err, t) ← s.rbtInsert s.allocedRbt vp
  return (err, s.setAllocedRbt t)

/-! ### Searches -/

def compareRegion (s : VpageAlct) (a node : ℕ) : Ordering :=
  let vp := vpageOf node
  if a < s.addr vp then .lt
  else if wordAdd (s.addr vp) (s.size vp) ≤ a then .gt
  else .eq

/-- `vm_search_addr`: nothing for `E_NOTFOUND`. -/
def vmSearchAddr (s : VpageAlct) (a : ℕ) : Result (Option ℕ) := do
  let n ← s.allocedRbt.search (s.compareRegion a)
  return if n = 0 then none else some (vpageOf n)

/-- The choice between the children in `rbt_search_size`: the least `mx_size` that is large enough
and the child that has it. -/
def searchChild (s : VpageAlct) (size n : ℕ) : ℕ × ℕ :=
  let best := (addressSpace - 1, 0)
  let l := s.tree.child .left n
  let best := if l ≠ 0 ∧ size ≤ s.mxSize (vpageOf l) ∧ s.mxSize (vpageOf l) < best.1
    then (s.mxSize (vpageOf l), l) else best
  let r := s.tree.child .right n
  if r ≠ 0 ∧ size ≤ s.mxSize (vpageOf r) ∧ s.mxSize (vpageOf r) < best.1
    then (s.mxSize (vpageOf r), r) else best

/-- The loop of `rbt_search_size`: nothing for `E_NOMEM`. -/
def searchSizeLoop (s : VpageAlct) (size : ℕ) : ℕ → ℕ → Result (Option ℕ)
  | 0, _ => throw .endless
  | fuel + 1, n =>
    if n = 0 then return none
    else
      let (mx, next) := s.searchChild size n
      let vp := vpageOf n
      if size ≤ s.size vp ∧ s.size vp < mx then return some vp
      else searchSizeLoop s size fuel next

/-- `rbt_search_size` on the free regions. -/
def rbtSearchSize (s : VpageAlct) (size : ℕ) : Result (Option ℕ) :=
  s.searchSizeLoop size addressSpace s.freeRoot

/-! ### The interface -/

/-- The branch of `vm_alloc` on a larger region: its low end is taken away. -/
def takeLow (s : VpageAlct) (res size : ℕ) : Result VpageAlct :=
  (s.setExtent res (wordAdd (s.addr res) size) (s.size res - size)).rbtUpdate (res + vpageRbtNode)

/-- `vm_insert`. -/
def vmInsert (s : VpageAlct) (new : Except Errno ℕ) (addr size : ℕ) : Result (Errno × VpageAlct) := do
  assert (addr % pageSize = 0 ∧ size % pageSize = 0)
  match s.vpageNew new addr size with
  | .error err => return (err, s)
  | .ok (vp, s) => s.vmInsertFree vp

/-- `vm_alloc`: the error code and the region. The code of `vm_insert_alloced` is not looked at. -/
def vmAlloc (s : VpageAlct) (new : Except Errno ℕ) (size : ℕ) : Result (Errno × Option ℕ × VpageAlct) := do
  let size := roundUp size pageSize
  let res ← s.rbtSearchSize size
  match res with
  | none => return (.nomem, none, s)
  | some res =>
    match s.vpageNew new (s.addr res) size with
    | .error err => return (err, none, s)
    | .ok (vp, s) => do
      let s ← if s.size res = size then s.vmDeleteFree res else s.takeLow res size
      let (_, s) ← s.vmInsertAlloced vp
      return (.ok, some vp, s)

/-- `vm_free`. -/
def vmFree (s : VpageAlct) (vp : ℕ) : Result (Errno × VpageAlct) := do
  let t ← s.allocedRbt.rbtDelete (vp + vpageRbtNode)
  (s.setAllocedRbt t).vmInsertFree vp

/-- `_vm_slice`: the error code and the region behind the bound. The region before it keeps its
descriptor. -/
def vmSliceAt (s : VpageAlct) (new : Except Errno ℕ) (vpo bound : ℕ) : Result (Errno × Option ℕ × VpageAlct) := do
  assert (bound > s.addr vpo ∧
    bound < (s.addr vpo + s.size vpo + addressSpace - 1) % addressSpace ∧ bound % pageSize = 0)
  let t ← s.allocedRbt.rbtDelete (vpo + vpageRbtNode)
  let s := s.setAllocedRbt t
  match s.vpageNew new bound ((s.addr vpo + s.size vpo + addressSpace - bound) % addressSpace) with
  | .error err => return (err, none, s)
  | .ok (vpr, s) => do
    let s := s.setExtent vpo (s.addr vpo) (bound - s.addr vpo)
    let s := { s with type := Function.update s.type vpr (s.type vpo) }
    let (err, s) ← s.vmInsertAlloced vpo
    assert (err = .ok)
    let (err, s) ← s.vmInsertAlloced vpr
    assert (err = .ok)
    return (err, some vpr, s)

/-- The first cut of `vm_slice`, at the start of the slice: the error code and the region from there
on. -/
def sliceFront (s : VpageAlct) (new : Except Errno ℕ) (vpage addr : ℕ) : Result (Errno × Option ℕ × VpageAlct) :=
  if addr > s.addr vpage then s.vmSliceAt new vpage addr else return (.ok, some vpage, s)

/-- The second cut of `vm_slice`, at the end of the slice: the region up to there keeps its
descriptor. -/
def sliceBack (s : VpageAlct) (new : Except Errno ℕ) (vpage bound : ℕ) : Result (Errno × Option ℕ × VpageAlct) :=
  if bound < wordAdd (s.addr vpage) (s.size vpage) then s.vmSliceAt new vpage bound
  else return (.ok, none, s)

/-- `vm_slice`: the error code and the region. -/
def vmSlice (s : VpageAlct) (new₁ new₂ : Except Errno ℕ) (vpage addr size : ℕ) :
    Result (Errno × Option ℕ × VpageAlct) := do
  assert (s.type vpage = .umNopm)
  assert (addr % pageSize = 0 ∧ size % pageSize = 0)
  assert (addr ≥ s.addr vpage ∧ wordAdd addr size ≤ wordAdd (s.addr vpage) (s.size vpage))
  let (err, vpage, s) ← s.sliceFront new₁ vpage addr
  match err, vpage with
  | .ok, some vpage => do
    let (err, _, s) ← s.sliceBack new₂ vpage (wordAdd addr size)
    if err ≠ .ok then return (err, none, s)
    else do
      assert (s.addr vpage = addr ∧ s.size vpage = size)
      return (.ok, some vpage, s)
  | err, _ => return (err, none, s)

/-- `vm_init`. -/
def vmInit (s : VpageAlct) : VpageAlct := { s with freeRoot := 0, allocedRoot := 0 }

end VpageAlct

end Lanthorn
