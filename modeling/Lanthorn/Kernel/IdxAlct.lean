import Lanthorn.Kernel.RbtUpdate
import Mathlib.Data.Int.Order.Basic

/-!
# `lib/idx_alct.c`

The allocator of ids. The live ids are the keys of a red-black tree whose nodes `idx_node_t` carry the address
stored with the id and, in `rbt_node_sum`, the number of nodes of their subtree. `rbt_find_free_id` looks for the
least free id by these numbers.

Ids and sums are of type `int`. A sum is computed in 32 bits; ids need no bound, as there are never more of them
than nodes. `update` reads the sum of the left child in place of that of the right one. When there is a right child
but no left one, it reads it at the place of a node before address zero, where nothing is known about the memory:
this is the value of the map `sum` at that place.

Nodes come from `kmalloc`, whose answer is an argument. They are never given back. The mutex is left out.
-/

namespace Lanthorn

open Library

/-- The offset of `rbt_node` in `idx_node_t`. -/
def idxRbtNode : ℕ := 12

/-- The size of `idx_node_t`. -/
def idxTSize : ℕ := 28

/-- The value of a 32-bit `int`. -/
def wordInt (x : ℤ) : ℤ := x.bmod addressSpace

/-- `idx_alct_t` with the memory of its nodes. -/
structure IdxAlct where
  root : ℕ
  id : ℕ → ℤ
  addr : ℕ → ℕ
  sum : ℕ → ℤ
  tree : TreeMem

namespace IdxAlct

/-- `rbt`. -/
def rbt (s : IdxAlct) : Rbt := ⟨s.tree, s.root⟩

/-- Write `rbt`. -/
def setRbt (s : IdxAlct) (t : Rbt) : IdxAlct := { s with tree := t.mem, root := t.root }

def idxOf (node : ℕ) : ℕ := containerOf node idxRbtNode

/-- `update` of `idx_alct.c`. -/
def update (m : TreeMem) (sum : ℕ → ℤ) (node : ℕ) : ℕ → ℤ :=
  let l := m.child .left node
  let count := 1
  let count := if l ≠ 0 then count + sum (idxOf l) else count
  let count := if m.child .right node ≠ 0 then count + sum (idxOf l) else count
  Function.update sum (idxOf node) (wordInt count)

def compareId (s : IdxAlct) (id : ℤ) (node : ℕ) : Ordering := Rbt.compareKeys id (s.id (idxOf node))

/-- `rbt_insert`. -/
def rbtInsert (s : IdxAlct) (idx : ℕ) : Result IdxAlct := do
  let t ← s.rbt.insertBy (s.compareId (s.id idx)) (idx + idxRbtNode)
  match t with
  | none => throw .panic
  | some t => do
    let sum ← Rbt.rbtInsertUpdate t.mem (update t.mem) (idx + idxRbtNode) s.sum
    return { s.setRbt t with sum := sum }

/-- `rbt_find`: nothing for `E_NOTFOUND`. -/
def rbtFind (s : IdxAlct) (id : ℤ) : Result (Option ℕ) := do
  let n ← s.rbt.search (s.compareId id)
  return if n = 0 then none else some (idxOf n)

/-! ### `rbt_find_free_id` -/

/-- The end of an iteration of `rbt_find_free_id`: the ids up to that of the node are taken. -/
def freeIdRight (s : IdxAlct) (n : ℕ) : ℤ ⊕ ℕ × ℤ :=
  let id := s.id (idxOf n)
  let r := s.tree.child .right n
  if r ≠ 0 then .inr (r, id + 1) else .inl (id + 1)

/-- An iteration of `rbt_find_free_id`: the id that is returned, or the next node and base. -/
def freeIdStep (s : IdxAlct) (n : ℕ) (base : ℤ) : Result (ℤ ⊕ ℕ × ℤ) := do
  let id := s.id (idxOf n)
  let l := s.tree.child .left n
  if l ≠ 0 then
    assert (s.sum (idxOf l) + base ≤ id)
    if s.sum (idxOf l) + base < id then return .inr (l, base)
    else return s.freeIdRight n
  else if base < id then return .inl base
  else return s.freeIdRight n

/-- The loop of `rbt_find_free_id`. -/
def freeIdLoop (s : IdxAlct) : ℕ → ℕ → ℤ → Result ℤ
  | 0, _, _ => throw .endless
  | fuel + 1, n, base =>
    if n = 0 then throw .panic
    else do
      let next ← s.freeIdStep n base
      match next with
      | .inl id => return id
      | .inr (n, base) => freeIdLoop s fuel n base

/-- `rbt_find_free_id`. -/
def rbtFindFreeId (s : IdxAlct) : Result ℤ :=
  if s.root = 0 then return 0 else s.freeIdLoop addressSpace s.root 0

/-! ### The interface -/

def setEntry (s : IdxAlct) (idx : ℕ) (id : ℤ) (addr : ℕ) : IdxAlct :=
  { s with id := Function.update s.id idx id, addr := Function.update s.addr idx addr }

/-- `idx_alct_new`: the error code and the id. -/
def idxAlctNew (s : IdxAlct) (new : Except Errno ℕ) (addr : ℕ) : Result (Errno × Option ℤ × IdxAlct) := do
  let id ← s.rbtFindFreeId
  match new with
  | .error err => return (err, none, s)
  | .ok idx => do
    let s ← (s.setEntry idx id addr).rbtInsert idx
    return (.ok, some id, s)

/-- `idx_alct_find`: the error code and the address. -/
def idxAlctFind (s : IdxAlct) (id : ℤ) : Result (Errno × Option ℕ) := do
  let idx ← s.rbtFind id
  match idx with
  | none => return (.notfound, none)
  | some idx => return (.ok, some (s.addr idx))

/-- `idx_alct_delete`. -/
def idxAlctDelete (s : IdxAlct) (id : ℤ) : Result (Errno × IdxAlct) := do
  let idx ← s.rbtFind id
  match idx with
  | none => return (.notfound, s)
  | some idx => do
    let deepest ← Rbt.rbtDeleteUpdateBegin s.tree (idx + idxRbtNode)
    let t ← s.rbt.rbtDelete (idx + idxRbtNode)
    let s := s.setRbt t
    let sum ← Rbt.rbtDeleteUpdateEnd s.tree (update s.tree) deepest s.sum
    return (.ok, { s with sum := sum })

/-- `idx_aclt_init`. -/
def idxAcltInit (s : IdxAlct) : IdxAlct := { s with root := 0 }

end IdxAlct

end Lanthorn
