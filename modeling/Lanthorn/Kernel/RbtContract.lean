import Lanthorn.Kernel.RbtRep

/-!
# The contract of `lib/rbt.c`

`Valid t` says that the memory holds a red-black tree at the root pointer: consistent parent links, a black root,
no red node with a red child, and equally many black nodes on all paths. The two theorems say what linking a node
and `rbt_insert_color` (`rbtInsertColor_valid`), and what `rbt_delete` (`rbtDelete_valid`), do to a valid tree.
Both return. `walk` says that `rbt_first`, `rbt_next` and `rbt_prev` follow the nodes in order, in any tree with
consistent parent links, so that a loop `rbt_rep` visits each of them once.

The members `color`, `f`, `l` and `r` are all that the functions can write, since a `TreeMem` has nothing else, and
they are untouched at every address outside the tree.
-/

namespace Lanthorn.Rbt

open Library Tree

def Valid (t : Rbt) : Prop := ∃ T, Holds t T ∧ RedBlack T

/-- An empty place for a node: a missing child of a node of the tree, or the root of an empty tree. -/
def EmptyLink (t : Rbt) (parent : ℕ) (d : Side) : Prop :=
  parent = 0 ∧ t.root = 0 ∨ parent ∈ t.nodes ∧ t.mem.child d parent = 0

theorem EmptyLink.exists_plug {t : Rbt} {T : Tree} {parent : ℕ} {d : Side} (hlink : t.EmptyLink parent d)
    (h : Holds t T) : ∃ fs, T = plug fs .nil ∧
      ∀ x, t.rbLinkNode x parent d = t.rbLinkNode x (hook fs) (innerSide fs) := by
  rcases hlink with ⟨rfl, hroot⟩ | ⟨hmem, hchild⟩
  · have hnil : T = .nil := h.rep.root_eq_zero_iff.mp (h.root_eq ▸ hroot)
    exact ⟨[], hnil, fun _ ↦ rfl⟩
  · rw [h.nodes_eq] at hmem
    obtain ⟨fs, l, c, r, rfl⟩ := exists_plug_of_mem hmem
    obtain ⟨-, -, -, hleft, hright, hrepl, hrepr⟩ := h.represents.2
    cases d with
    | left =>
      obtain rfl : l = .nil := hrepl.root_eq_zero_iff.mp (hleft ▸ hchild)
      exact ⟨⟨.left, parent, c, r⟩ :: fs, rfl, fun _ ↦ rfl⟩
    | right =>
      obtain rfl : r = .nil := hrepr.root_eq_zero_iff.mp (hright ▸ hchild)
      exact ⟨⟨.right, parent, c, l⟩ :: fs, rfl, fun _ ↦ rfl⟩

/-- Linking a new node at any empty place of a valid tree and calling `rbt_insert_color` returns, and
leaves a valid tree with the nodes in the order that the linking gave them. -/
theorem rbtInsertColor_valid {t : Rbt} {x parent : ℕ} {d : Side} (h : t.Valid) (hx : x ≠ 0)
    (hword : x < addressSpace) (hnew : x ∉ t.nodes) (hlink : t.EmptyLink parent d) :
    ∃ t' xs ys, rbtInsertColor (t.rbLinkNode x parent d) x = .ok t' ∧ t'.Valid ∧
      t'.nodes = (t.rbLinkNode x parent d).nodes ∧ t.nodes = xs ++ ys ∧
      (t.rbLinkNode x parent d).nodes = xs ++ x :: ys ∧ Frames t t' (x :: t.nodes) := by
  obtain ⟨T, hT, hrb⟩ := h
  obtain ⟨fs, rfl, hat⟩ := hlink.exists_plug hT
  rw [hat x, hT.nodes_eq] at *
  obtain ⟨n, hn, hfs, -⟩ := (redBlack_plug_iff _ _).mp hrb
  obtain rfl : n = 0 := hn
  obtain ⟨hlinked, hframes⟩ := rbLinkNode_holds hT hx hword hnew
  obtain ⟨t', hrun, hmoves⟩ := rbtInsertColor_moves hlinked hfs
  refine ⟨t', before fs, after fs, hrun, ⟨_, hmoves.holds, (insertShape_spec x hrb).1⟩, ?_, ?_, ?_, ?_⟩
  · rw [hmoves.holds.nodes_eq, hlinked.nodes_eq, hmoves.inorder_eq]
  · simp [inorder_plug]
  · rw [hlinked.nodes_eq, inorder_plug]
    simp
  · refine (hframes.trans hmoves.frames).mono fun z hz ↦ ?_
    simpa [mem_plug] using hz

def threeNodes : Rbt where
  mem := {
    color := fun a ↦ if a = 8 then .black else .red
    parent := fun a ↦ if a = 4 ∨ a = 12 then 8 else 0
    child := fun d a ↦ if a = 8 then (match d with | .left => 4 | .right => 12) else 0 }
  root := 8

def threeShape : Tree := .node (.node .nil 4 .red .nil) 8 .black (.node .nil 12 .red .nil)

theorem threeNodes_holds : threeNodes.Holds threeShape := by
  refine ⟨rfl, ?_, ?_, ?_⟩
  · simp [threeShape, Represents, threeNodes]
  · simp [threeShape]
  · simp [threeShape, addressSpace]

theorem redBlack_threeShape : RedBlack threeShape := ⟨rfl, 1, by simp [threeShape, Library.Balanced]⟩

theorem threeNodes_valid : threeNodes.Valid := ⟨_, threeNodes_holds, redBlack_threeShape⟩

/-- A fourth node under a red one, which is repainted. -/
theorem rbtInsertColor_valid_example :
    ∃ t', rbtInsertColor (threeNodes.rbLinkNode 16 12 .right) 16 = .ok t' ∧ t'.Valid ∧
      t'.nodes = [4, 8, 12, 16] := by
  have hlink : threeNodes.EmptyLink 12 .right := Or.inr ⟨by decide +kernel, rfl⟩
  have hnodes : (threeNodes.rbLinkNode 16 12 .right).nodes = [4, 8, 12, 16] := by decide +kernel
  obtain ⟨t', -, -, hrun, hvalid, hsame, -⟩ := rbtInsertColor_valid threeNodes_valid
    (show (16 : ℕ) ≠ 0 by decide) (by decide) (by decide +kernel) hlink
  exact ⟨t', hrun, hvalid, hsame.trans hnodes⟩

/-- `rbt_delete` of a node of a valid tree returns, and leaves a valid tree of the other nodes in
their order. -/
theorem rbtDelete_valid {t : Rbt} {x : ℕ} (h : t.Valid) (hx : x ∈ t.nodes) :
    ∃ t', rbtDelete t x = .ok t' ∧ t'.Valid ∧ t'.nodes = t.nodes.erase x ∧ Frames t t' t.nodes := by
  obtain ⟨T, hT, hrb⟩ := h
  rw [hT.nodes_eq] at hx ⊢
  obtain ⟨t', T', hrun, hT', hrb', hinorder, hframes⟩ := rbtDelete_holds hT hrb hx
  exact ⟨t', hrun, ⟨T', hT', hrb'⟩, hT'.nodes_eq.trans hinorder, hframes⟩

/-- The root of three nodes, which has two children. -/
theorem rbtDelete_valid_example : ∃ t', rbtDelete threeNodes 8 = .ok t' ∧ t'.Valid ∧ t'.nodes = [4, 12] := by
  have hnodes : threeNodes.nodes.erase 8 = [4, 12] := by decide +kernel
  obtain ⟨t', hrun, hvalid, hsame, -⟩ := rbtDelete_valid threeNodes_valid
    (show 8 ∈ threeNodes.nodes by decide +kernel)
  exact ⟨t', hrun, hvalid, hsame.trans hnodes⟩

/-- `rbt_next` and `rbt_prev` return the neighbours of a node in order, null at the ends, `rbt_first`
returns the first node, null in an empty tree, and the loop `rbt_rep` runs its body on every node once,
in order. -/
theorem walk {t : Rbt} {T : Tree} (h : Holds t T) : (∀ xs x ys, T.inorder = xs ++ x :: ys →
      rbtNext t.mem x = .ok (ys.head?.getD 0) ∧ rbtPrev t.mem x = .ok (xs.getLast?.getD 0)) ∧
    rbtFirst t = .ok (T.inorder.head?.getD 0) ∧ (∀ (σ : Type) (body : σ → ℕ → σ) (s : σ),
      (do rbtRep (fun _ ↦ t.mem) (fun p s ↦ return (.ok, body s p)) addressSpace (← rbtFirst t) s) =
        .ok (.ok, T.inorder.foldl body s)) ∧
    T.inorder.Nodup ∧ ∀ x ∈ T.inorder, x ≠ 0 := by
  refine ⟨fun xs x ys hx ↦ ⟨?_, ?_⟩, ?_, fun σ body s ↦ ?_, h.nodup, fun x hx ↦ h.rep.ne_zero hx⟩
  · rw [rbtNext_eq h hx, List.headD_eq_head?_getD]
  · rw [rbtPrev_eq h hx, List.headD_eq_head?_getD, List.head?_reverse]
  · rw [rbtFirst_eq h, List.headD_eq_head?_getD]
  · have hfuel : T.inorder.length < addressSpace := length_inorder T ▸ h.size_lt
    simp only [rbtFirst_eq h, ok_bind, pure_eq]
    exact rbtRep_from h body (List.nil_append _).symm hfuel s

/-- The walk over three nodes. -/
theorem walk_threeNodes : rbtFirst threeNodes = .ok 4 ∧ rbtNext threeNodes.mem 4 = .ok 8 ∧
    rbtNext threeNodes.mem 8 = .ok 12 ∧ rbtNext threeNodes.mem 12 = .ok 0 := by
  obtain ⟨hnext, hfirst, -⟩ := walk threeNodes_holds
  exact ⟨hfirst, (hnext [] 4 [8, 12] rfl).1, (hnext [4] 8 [12] rfl).1, (hnext [4, 8] 12 [] rfl).1⟩

end Lanthorn.Rbt
