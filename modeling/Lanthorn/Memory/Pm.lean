import Lanthorn.Kernel.RbtSearch
import Lanthorn.Kernel.Slot

/-!
# `kernel/memory/pm.c`

The physical page allocator, function by function. A block of memory has a descriptor `page_t`, named by its
address. Descriptors are split and merged in pairs of buddies: a split block becomes `BUD_VIRT`, and its halves
point at each other by `b` and at it by `f`. Blocks in no use are in the list `head[order]`, live blocks in the
tree `alloced_rbt`, and descriptors in no use in a pool of slots.

Every member of `page_t` is a map from addresses. The members `addr` and `size` are the first two words of a
descriptor, which hold the links `p` and `n` of the pool while the descriptor is in it; so the links of the pool
are the same two maps (`slots`). The count `cnt` is written here and read elsewhere; the locks are left out.
-/

namespace Lanthorn

open Function Library

/-- `BUD_POS`. -/
inductive BudPos
  | nobud
  | left
  | right
  deriving DecidableEq, Repr

/-- `BUD_STATE`. -/
inductive BudState
  | free
  | alloced
  | virt
  deriving DecidableEq, Repr

/-- `CONFIG_NR_BUDDY_ORDER`. -/
def nrBuddyOrder : ℕ := 21

/-- The offset of `rbt_node` in `page_t`. -/
def pageRbtNode : ℕ := 12

/-- The offset of `buddy.list_node` in `page_t`. -/
def pageListNode : ℕ := 52

/-- The size of `page_t`. -/
def pageTSize : ℕ := 68

/-- `page_alct_t` with the memory of its descriptors and list heads. -/
structure PageAlct where
  slotAlct : SlotAlct
  head : ℕ
  allocedRoot : ℕ
  addr : ℕ → ℕ
  size : ℕ → ℕ
  cnt : ℕ → ℕ
  tree : TreeMem
  order : ℕ → ℕ
  f : ℕ → ℕ
  b : ℕ → ℕ
  list : Links ℕ
  pos : ℕ → BudPos
  state : ℕ → BudState

namespace PageAlct

def slots (s : PageAlct) : Links ℕ := ⟨s.addr, s.size⟩

def setSlots (s : PageAlct) (L : Links ℕ) : PageAlct := { s with addr := L.p, size := L.n }

/-- `alloced_rbt`. -/
def allocedRbt (s : PageAlct) : Rbt := ⟨s.tree, s.allocedRoot⟩

/-- Write `alloced_rbt`. -/
def setAllocedRbt (s : PageAlct) (t : Rbt) : PageAlct :=
  { s with tree := t.mem, allocedRoot := t.root }

/-- The address of `head[order]`. -/
def headAt (s : PageAlct) (order : ℕ) : ℕ := s.head + order * listNodeSize

def setState (s : PageAlct) (page : ℕ) (state : BudState) : PageAlct :=
  { s with state := update s.state page state }

section SetState

variable (s : PageAlct) (page : ℕ) (state : BudState)

@[simp] theorem setState_addr : (s.setState page state).addr = s.addr := rfl
@[simp] theorem setState_size : (s.setState page state).size = s.size := rfl
@[simp] theorem setState_order : (s.setState page state).order = s.order := rfl
@[simp] theorem setState_f : (s.setState page state).f = s.f := rfl
@[simp] theorem setState_b : (s.setState page state).b = s.b := rfl
@[simp] theorem setState_pos : (s.setState page state).pos = s.pos := rfl
@[simp] theorem setState_list : (s.setState page state).list = s.list := rfl
@[simp] theorem setState_slots : (s.setState page state).slots = s.slots := rfl
@[simp] theorem setState_state (p : ℕ) :
    (s.setState page state).state p = if p = page then state else s.state p :=
  update_apply _ _ _ _

end SetState

/-! ### Descriptors -/

/-- `new_page`: nothing for `E_NOSLOT`. -/
def newPage (s : PageAlct) : Result (Option ℕ × PageAlct) := do
  let (page, L) ← slotAlloc s.slots s.slotAlct
  let s := s.setSlots L
  match page with
  | none => return (none, s)
  | some page => return (some page, { s with cnt := update s.cnt page 0 })

/-- `free_page`. -/
def freePage (s : PageAlct) (page : ℕ) : Result PageAlct := do
  let L ← slotFree s.slots s.slotAlct page
  return s.setSlots L

/-- `merge_page`: the block of which the two are the halves. -/
def mergePage (s : PageAlct) (p1 p2 : ℕ) : Result (ℕ × PageAlct) := do
  assert (s.state p1 = .alloced ∧ s.state p2 = .alloced)
  assert (s.b p1 = p2 ∧ s.b p2 = p1)
  assert (s.f p1 = s.f p2)
  let f := s.f p1
  assert (s.state f = .virt)
  return (f, s.setState f .alloced)

/-- `divide_page`. -/
def dividePage (s : PageAlct) (f l r : ℕ) : Errno × PageAlct :=
  if s.order f = 0 then (.nomem, s)
  else
    let s := { s with addr := update s.addr l (s.addr f) }
    let s := { s with order := update s.order l (s.order f - 1) }
    let s := { s with size := update s.size l (s.size f / 2) }
    let s := { s with addr := update s.addr r (wordAdd (s.addr l) (s.size l)) }
    let s := { s with order := update s.order r (s.order l) }
    let s := { s with size := update s.size r (s.size l) }
    let s := { s with f := update (update s.f r f) l f }
    let s := { s with b := update s.b l r }
    let s := { s with b := update s.b r l }
    let s := { s with pos := update s.pos l .left }
    let s := { s with pos := update s.pos r .right }
    (.ok, ((s.setState l .alloced).setState r .alloced).setState f .virt)

/-! ### Free lists -/

/-- `buddy_get`: nothing for `E_NOMEM`. -/
def buddyGet (s : PageAlct) (order : ℕ) : Result (Option ℕ × PageAlct) := do
  assert (order < nrBuddyOrder)
  if listIsempty s.list (s.headAt order) then return (none, s)
  else
    let (node, L) ← listPopFront s.list (s.headAt order)
    let page := containerOf node pageListNode
    return (some page, { s with list := L }.setState page .alloced)

/-- `buddy_get_ptc`. -/
def buddyGetPtc (s : PageAlct) (page : ℕ) : Result (Errno × PageAlct) :=
  if s.state page ≠ .free then return (.faile, s)
  else do
    let L ← listDelete s.list (page + pageListNode)
    return (.ok, { s with list := L }.setState page .alloced)

/-- The loop of `buddy_put`: merge with the buddy while it is free. -/
def buddyPutLoop : ℕ → PageAlct → ℕ → Result (PageAlct × ℕ)
  | 0, _, _ => throw .endless
  | fuel + 1, s, page =>
    if s.pos page = .nobud then return (s, page)
    else do
      let (err, s) ← buddyGetPtc s (s.b page)
      if err ≠ .ok then return (s, page)
      else
        let (f, s) ← mergePage s page (s.b page)
        let s ← freePage s (s.b page)
        let s ← freePage s page
        buddyPutLoop fuel s f

/-- `buddy_put`. -/
def buddyPut (s : PageAlct) (page : ℕ) : Result PageAlct := do
  assert (s.order page < nrBuddyOrder)
  assert (s.state page = .alloced)
  let (s, page) ← buddyPutLoop addressSpace s page
  let s := s.setState page .free
  let L ← listPushBack s.list (s.headAt (s.order page)) (page + pageListNode)
  return { s with list := L }

/-- `buddy_alloc`, recursing at most as often as there are orders: nothing for `E_NOMEM`. A
descriptor that `new_page` did not provide is used as it is. -/
def buddyAlloc : ℕ → PageAlct → ℕ → Result (Option ℕ × PageAlct)
  | 0, _, _ => throw .endless
  | fuel + 1, s, order =>
    if nrBuddyOrder ≤ order then return (none, s)
    else do
      let (page, s) ← buddyGet s order
      match page with
      | some page => return (some page, s)
      | none => do
        let (f, s) ← buddyAlloc fuel s (order + 1)
        match f with
        | none => return (none, s)
        | some f => do
          let (l, s) ← newPage s
          let (r, s) ← newPage s
          match l, r with
          | some l, some r => do
            let (err, s) := dividePage s f l r
            if err ≠ .ok then do
              let s ← freePage s l
              let s ← freePage s r
              let s ← buddyPut s f
              return (none, s)
            else do
              let s ← buddyPut s r
              return (some l, s)
          | _, _ => throw .unset

/-! ### The tree of live blocks -/

def compareAddr (s : PageAlct) (a node : ℕ) : Ordering :=
  Rbt.compareKeys a (s.addr (containerOf node pageRbtNode))

/-- `rbt_insert` of `pm.c`. -/
def rbtInsert (s : PageAlct) (page : ℕ) : Result (Errno × PageAlct) := do
  let t ← s.allocedRbt.insertBy (s.compareAddr (s.addr page)) (page + pageRbtNode)
  match t with
  | none => return (.exist, s)
  | some t => return (.ok, s.setAllocedRbt t)

/-- `rbt_find` of `pm.c`: nothing for `E_NOTFOUND`. -/
def rbtFind (s : PageAlct) (pa : ℕ) : Result (Option ℕ) := do
  assert (pa % pageSize = 0)
  let n ← s.allocedRbt.search (s.compareAddr pa)
  return if n = 0 then none else some (containerOf n pageRbtNode)

/-! ### The interface -/

/-- What `pm_insert` writes into a new descriptor: the block of `2 ^ i` pages at `addr`. -/
def setBlock (s : PageAlct) (page addr i : ℕ) : PageAlct :=
  { s with
    addr := update s.addr page addr
    size := update s.size page (2 ^ i * pageSize % addressSpace)
    order := update s.order page i
    pos := update s.pos page .nobud
    state := update s.state page .alloced }

/-- A round of the loop of `pm_insert` at the order `i`. -/
def pmInsertBlock (s : PageAlct) (addr i : ℕ) : Result (Errno × PageAlct) := do
  let (page, s) ← newPage s
  match page with
  | none => return (.noslot, s)
  | some page => do
    let s ← buddyPut (s.setBlock page addr i) page
    return (.ok, s)

/-- The loop of `pm_insert` over the remaining orders, `count` of them from `i` on. -/
def pmInsertLoop (size : ℕ) : ℕ → ℕ → PageAlct → ℕ → Result (Errno × PageAlct)
  | 0, _, s, _ => return (.ok, s)
  | count + 1, i, s, addr =>
    if (size / pageSize).testBit i then do
      let (err, s) ← pmInsertBlock s addr i
      if err ≠ .ok then return (err, s)
      else pmInsertLoop size count (i + 1) s (wordAdd addr (2 ^ i * pageSize % addressSpace))
    else pmInsertLoop size count (i + 1) s addr

/-- `pm_insert`. -/
def pmInsert (s : PageAlct) (addr size : ℕ) : Result (Errno × PageAlct) := do
  assert (size % pageSize = 0 ∧ size > 0 ∧ addr % pageSize = 0)
  pmInsertLoop size nrBuddyOrder 0 s addr

/-- The loop of `pm_alloc` that finds the order: from the greatest downwards while the pages fit. -/
def orderLoop (pages : ℕ) : ℕ → Option ℕ → Option ℕ
  | 0, order => order
  | i + 1, order => if pages ≤ 2 ^ i then orderLoop pages i (some i) else order

/-- `pm_alloc`: the error code and the block. -/
def pmAlloc (s : PageAlct) (size : ℕ) : Result (Errno × Option ℕ × PageAlct) :=
  if size = 0 then return (.inval, none, s)
  else
    match orderLoop (roundUp size pageSize / pageSize) nrBuddyOrder none with
    | none => throw .unset
    | some order => do
      let (page, s) ← buddyAlloc (nrBuddyOrder + 1) s order
      match page with
      | none => return (.nomem, none, s)
      | some page => do
        let (err, s) ← s.rbtInsert page
        assert (err = .ok)
        return (err, some page, s)

/-- `pm_free`. -/
def pmFree (s : PageAlct) (page : ℕ) : Result PageAlct := do
  let s ← buddyPut s page
  let t ← s.allocedRbt.rbtDelete (page + pageRbtNode)
  return s.setAllocedRbt t

/-- The loop of `pm_init` over the list heads. -/
def initHeads (L : Links ℕ) (head : ℕ) : ℕ → Links ℕ
  | 0 => L
  | i + 1 => listInit (initHeads L head i) (head + i * listNodeSize)

/-- `pm_init`. -/
def pmInit (s : PageAlct) (addr size : ℕ) : Result (Errno × PageAlct) := do
  let s := { s with head := addr }
  let slotAddr := wordAdd addr (nrBuddyOrder * listNodeSize)
  if slotAddr > wordAdd addr size then return (.nomem, s)
  else
    let slotSize := (wordAdd addr size + addressSpace - slotAddr) % addressSpace
    let (alct, L) := slotInit s.slots s.slotAlct pageTSize
    let L ← slotInsert L alct slotAddr slotSize
    let s := { s.setSlots L with slotAlct := alct }
    return (.ok, { s with list := initHeads s.list s.head nrBuddyOrder, allocedRoot := 0 })

/-- `pm_get_page`: nothing for `E_NOTFOUND`. -/
def pmGetPage (s : PageAlct) (addr : ℕ) : Result (Option ℕ) := do
  assert (addr % pageSize = 0)
  s.rbtFind addr

end PageAlct

end Lanthorn
