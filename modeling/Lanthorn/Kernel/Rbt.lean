import Lanthorn.Kernel.Basic
import Lanthorn.Library.RedBlack

/-!
# `lib/rbt.c`

The red-black tree of the kernel, function by function. A tree is a root pointer over a memory of `rbt_node_t`s; a
node is named by its address, and zero is `NULL`. The members `color`, `f`, `l` and `r` are `color`, `parent`,
`child .left` and `child .right` of `TreeMem`.

The source writes every step twice, once for each side. Here a step is written once with the side as a parameter:
`rotate .left` is `rotate_left` and `rotate .right` is `rotate_right`, and in `rbtInsertColor` and `rbtDeleteColor`
the side `d` stands for the branch on `f == g->l` and on `parent->l == node`. Following a null pointer is
`Fault.null`, and a loop stops with `Fault.endless` after as many rounds as there are addresses.
-/

namespace Lanthorn

open Library

/-- A memory of nodes with the root of one tree in it: `rbt_t`. -/
structure Rbt where
  mem : TreeMem
  root : ℕ

namespace Rbt

def IsBlack (m : TreeMem) (node : ℕ) : Prop := node = 0 ∨ m.color node = .black

instance (m : TreeMem) (node : ℕ) : Decidable (IsBlack m node) := inferInstanceAs (Decidable (_ ∨ _))

def setColor (t : Rbt) (node : ℕ) (c : Color) : Rbt := { t with mem := t.mem.setColor node c }

/-- Let the parent `f` of `node`, or the root pointer, point at `other`. -/
def replaceChild (t : Rbt) (f node other : ℕ) : Rbt :=
  if f ≠ 0 then
    if node = t.mem.child .left f then { t with mem := t.mem.setChild .left f other }
    else { t with mem := t.mem.setChild .right f other }
  else { t with root := other }

/-- `rotate_left` and `rotate_right`. -/
def rotate (d : Side) (t : Rbt) (node : ℕ) : Result Rbt := do
  let r := t.mem.child d.flip node
  let f := t.mem.parent node
  if r = 0 then throw .null
  let inner := t.mem.child d r
  let m := t.mem.setChild d.flip node inner
  let m := if inner ≠ 0 then m.setParent inner node else m
  let m := (m.setParent node r).setParent r f
  let m := m.setChild d r node
  return replaceChild ⟨m, t.root⟩ f node r

/-- `rb_link_node` of `rbt.h`, with the link given by the parent and the side, or the root pointer
when there is no parent. -/
def rbLinkNode (t : Rbt) (node parent : ℕ) (d : Side) : Rbt :=
  let m := ((t.mem.setParent node parent).setChild .right node 0).setChild .left node 0
  if parent = 0 then ⟨m, node⟩ else ⟨m.setChild d parent node, t.root⟩

/-! ### Insertion -/

/-- The end of a round of `rbt_insert_color` whose uncle is not red: one or two rotations. The
second component is the node from which the next round starts. -/
def insertColorRotate (d : Side) (t : Rbt) (node f g : ℕ) : Result (Rbt × ℕ) :=
  if t.mem.child d.flip f = node then do
    let t ← rotate d t f
    let t ← rotate d.flip ((t.setColor node .black).setColor g .red) g
    return (t, f)
  else do
    let t ← rotate d.flip ((t.setColor f .black).setColor g .red) g
    return (t, node)

/-- The loop of `rbt_insert_color`. -/
def insertColorLoop : ℕ → Rbt → ℕ → Result Rbt
  | 0, _, _ => throw .endless
  | fuel + 1, t, node =>
    let f := t.mem.parent node
    if f ≠ 0 ∧ t.mem.color f = .red then do
      let g := t.mem.parent f
      if g = 0 then throw .null
      let d : Side := if f = t.mem.child .left g then .left else .right
      let u := t.mem.child d.flip g
      if u ≠ 0 ∧ t.mem.color u = .red then
        insertColorLoop fuel (((t.setColor u .black).setColor f .black).setColor g .red) g
      else do
        let (t, node) ← insertColorRotate d t node f g
        insertColorLoop fuel t node
    else return t

/-- `rbt_insert_color`. -/
def rbtInsertColor (t : Rbt) (node : ℕ) : Result Rbt := do
  let t ← insertColorLoop addressSpace (t.setColor node .red) node
  return t.setColor t.root .black

/-! ### Deletion -/

/-- The first step of a round of `rbt_delete_color`: a red sibling is rotated above the parent. The
second component is the sibling afterwards. -/
def deleteColorSibling (d : Side) (t : Rbt) (parent other : ℕ) : Result (Rbt × ℕ) :=
  if t.mem.color other = .red then do
    let t ← rotate d ((t.setColor other .black).setColor parent .red) parent
    return (t, t.mem.child d.flip parent)
  else return (t, other)

/-- The last step of a round of `rbt_delete_color`: the sibling has a red child. -/
def deleteColorRotate (d : Side) (t : Rbt) (parent other : ℕ) : Result Rbt := do
  let (t, other) ← if IsBlack t.mem (t.mem.child d.flip other) then do
      let t ← rotate d.flip ((t.setColor (t.mem.child d other) .black).setColor other .red) other
      pure (t, t.mem.child d.flip parent)
    else pure (t, other)
  let t := (t.setColor other (t.mem.color parent)).setColor parent .black
  rotate d (t.setColor (t.mem.child d.flip other) .black) parent

/-- The loop of `rbt_delete_color`. The second component is the node that is painted black at the
end. -/
def deleteColorLoop : ℕ → Rbt → ℕ → ℕ → Result (Rbt × ℕ)
  | 0, _, _, _ => throw .endless
  | fuel + 1, t, node, parent =>
    if IsBlack t.mem node ∧ node ≠ t.root then do
      if parent = 0 then throw .null
      let d : Side := if t.mem.child .left parent = node then .left else .right
      if t.mem.child d.flip parent = 0 then throw .null
      let (t, other) ← deleteColorSibling d t parent (t.mem.child d.flip parent)
      if other = 0 then throw .null
      if IsBlack t.mem (t.mem.child d other) ∧ IsBlack t.mem (t.mem.child d.flip other) then
        deleteColorLoop fuel (t.setColor other .red) parent (t.mem.parent parent)
      else do
        let t ← deleteColorRotate d t parent other
        return (t, t.root)
    else return (t, node)

/-- `rbt_delete_color`. -/
def rbtDeleteColor (t : Rbt) (node parent : ℕ) : Result Rbt := do
  let (t, node) ← deleteColorLoop addressSpace t node parent
  return if node ≠ 0 then t.setColor node .black else t

def descend (m : TreeMem) (d : Side) : ℕ → ℕ → Result ℕ
  | 0, _ => throw .endless
  | fuel + 1, node => if m.child d node ≠ 0 then descend m d fuel (m.child d node) else return node

/-- `rbt_delete` of a node with at most one child `s`: put the child in its place. -/
def deleteOne (t : Rbt) (node s : ℕ) : Result Rbt := do
  let f := t.mem.parent node
  let color := t.mem.color node
  let m := if s ≠ 0 then t.mem.setParent s f else t.mem
  let t := replaceChild ⟨m, t.root⟩ f node s
  if color = .black then rbtDeleteColor t s f else return t

/-- The pointer updates of `rbt_delete` on a node `old` with two children, once its parent points
at its successor `node`: the successor leaves its place below `f` to its child `s` and takes over
the children, the parent and the color of `old`. -/
def deleteSplice (m : TreeMem) (old node s f : ℕ) : TreeMem :=
  let m := if f = old then m
    else
      let m := if s ≠ 0 then m.setParent s f else m
      let m := m.setChild .left f s
      let m := m.setChild .right node (m.child .right old)
      m.setParent (m.child .right old) node
  let m := m.setParent node (m.parent old)
  let m := m.setColor node (m.color old)
  let m := m.setChild .left node (m.child .left old)
  m.setParent (m.child .left old) node

/-- `rbt_delete` of a node `old` with two children whose successor is `node`. -/
def deleteTwo (t : Rbt) (old node : ℕ) : Result Rbt :=
  let t := replaceChild t (t.mem.parent old) old node
  let s := t.mem.child .right node
  let f := t.mem.parent node
  let color := t.mem.color node
  let t : Rbt := ⟨deleteSplice t.mem old node s f, t.root⟩
  if color = .black then rbtDeleteColor t s (if f = old then node else f) else return t

/-- `rbt_delete`. -/
def rbtDelete (t : Rbt) (node : ℕ) : Result Rbt :=
  if t.mem.child .left node = 0 then deleteOne t node (t.mem.child .right node)
  else if t.mem.child .right node = 0 then deleteOne t node (t.mem.child .left node)
  else do
    let next ← descend t.mem .left addressSpace (t.mem.child .right node)
    deleteTwo t node next

/-! ### Iteration -/

def ascend (m : TreeMem) (d : Side) : ℕ → ℕ → Result ℕ
  | 0, _ => throw .endless
  | fuel + 1, node =>
    let parent := m.parent node
    if parent ≠ 0 ∧ node = m.child d parent then ascend m d fuel parent else return parent

/-- `rbt_next` and `rbt_prev`: the neighbour on a side. -/
def neighbour (d : Side) (m : TreeMem) (node : ℕ) : Result ℕ :=
  if m.child d node ≠ 0 then descend m d.flip addressSpace (m.child d node)
  else ascend m d addressSpace node

/-- `rbt_next`. -/
def rbtNext (m : TreeMem) (node : ℕ) : Result ℕ := neighbour .right m node

/-- `rbt_prev`. -/
def rbtPrev (m : TreeMem) (node : ℕ) : Result ℕ := neighbour .left m node

/-! ### Summaries -/

section Update

variable {β : Type*}

/-- The loop of `rbt_update`. The update function acts on a state of its own. -/
def updateLoop (m : TreeMem) (func : β → ℕ → β) : ℕ → ℕ → β → Result β
  | 0, _, _ => throw .endless
  | fuel + 1, node, b =>
    let b := func b node
    let f := m.parent node
    if f = 0 then return b
    else
      let b := if node = m.child .left f ∧ m.child .right f ≠ 0 then func b (m.child .right f)
        else if m.child .left f ≠ 0 then func b (m.child .left f)
        else b
      updateLoop m func fuel f b

/-- `rbt_update`. -/
def rbtUpdate (m : TreeMem) (func : β → ℕ → β) (node : ℕ) (b : β) : Result β :=
  updateLoop m func addressSpace node b

/-- `rbt_insert_update`. -/
def rbtInsertUpdate (m : TreeMem) (func : β → ℕ → β) (node : ℕ) (b : β) : Result β :=
  let start := if m.child .left node ≠ 0 then m.child .left node
    else if m.child .right node ≠ 0 then m.child .right node
    else node
  rbtUpdate m func start b

/-- `rbt_delete_update_begin`: the deepest node whose subtree the deletion will change, null when
there is none. -/
def rbtDeleteUpdateBegin (m : TreeMem) (node : ℕ) : Result ℕ :=
  if m.child .right node = 0 ∧ m.child .left node = 0 then return m.parent node
  else if m.child .right node = 0 then return m.child .left node
  else if m.child .left node = 0 then return m.child .right node
  else do
    let deepest ← rbtNext m node
    return if m.child .right deepest ≠ 0 then m.child .right deepest
      else if m.parent deepest ≠ node then m.parent deepest
      else deepest

/-- `rbt_delete_update_end`. -/
def rbtDeleteUpdateEnd (m : TreeMem) (func : β → ℕ → β) (node : ℕ) (b : β) : Result β :=
  if node ≠ 0 then rbtUpdate m func node b else return b

end Update

end Rbt

end Lanthorn
