import Lanthorn.Library.RedBlack

/-!
# Red-black trees that only grow to the right

When every new element is greater than those before, all insertions go to the end of the right spine, and the
repairs rotate in one direction only. The subtrees that are left behind, left of the spine, are full: black but
for their roots, with equally many nodes on both sides of every node. `LeftFull` says this of a tree, and
`leftFull_insertFix` that the repair after such an insertion keeps it.
-/

namespace Lanthorn.Library

open Library.Tree

def Full : Tree → ℕ → Prop
  | .nil, n => n = 0
  | .node l _ c r, n => c = .black ∧ ∃ k, n = k + 1 ∧ Full l k ∧ Full r k

/-- A full tree of black nodes, except that the root may be red. -/
def FullBelow (t : Tree) : Prop := ∃ n, Full (paint .black t) n

/-- Left of the right spine there are full trees only. -/
def LeftFull : Tree → Prop
  | .nil => True
  | .node l _ _ r => FullBelow l ∧ LeftFull r

/-- Every left child has equally many nodes on both sides. -/
def LeftPaired : Tree → Prop
  | .nil => True
  | .node l _ _ r => (l.child .left).size = (l.child .right).size ∧ LeftPaired l ∧ LeftPaired r

section Full

variable {t : Tree} {n : ℕ}

theorem Full.size_eq {u : Tree} (ht : Full t n) (hu : Full u n) : t.size = u.size := by
  induction t generalizing u n with
  | nil =>
    obtain rfl : n = 0 := ht
    cases u with
    | nil => rfl
    | node l b c r =>
      obtain ⟨-, k, hk, -⟩ := hu
      omega
  | node l a c r ihl ihr =>
    obtain ⟨-, k, rfl, hl, hr⟩ := ht
    cases u with
    | nil => exact absurd hu (Nat.succ_ne_zero k)
    | node l' b c' r' =>
      obtain ⟨-, k', hk, hl', hr'⟩ := hu
      obtain rfl : k = k' := by omega
      rw [size_node, size_node, ihl hl hl', ihr hr hr']

theorem Full.height_eq {k : ℕ} (ht : Full t n) (hb : Balanced t k) : n = k := by
  induction t generalizing n k with
  | nil => exact (show n = 0 from ht).trans (show k = 0 from hb).symm
  | node l a c r ihl ihr =>
    obtain ⟨rfl, m, rfl, hl, -⟩ := ht
    obtain ⟨m', rfl, hbl, -⟩ := hb
    rw [ihl hl hbl]

theorem FullBelow.full (h : FullBelow t) (hc : t.color = .black) (hb : Balanced t n) : Full t n := by
  obtain ⟨k, hk⟩ := h
  rw [paint_black_of_black hc] at hk
  rwa [← hk.height_eq hb]

theorem FullBelow.paint (h : FullBelow t) (c : Color) : FullBelow (paint c t) := by
  obtain ⟨k, hk⟩ := h
  refine ⟨k, ?_⟩
  cases t <;> exact hk

theorem FullBelow.paired (h : FullBelow t) : (t.child .left).size = (t.child .right).size := by
  obtain ⟨k, hk⟩ := h
  cases t with
  | nil => rfl
  | node l a c r =>
    obtain ⟨-, m, -, hl, hr⟩ := hk
    exact hl.size_eq hr

theorem Full.fullBelow (h : Full t n) : FullBelow t := by
  refine ⟨n, ?_⟩
  cases t with
  | nil => exact h
  | node l a c r => exact ⟨rfl, h.2⟩

theorem Full.leftPaired (h : Full t n) : LeftPaired t := by
  induction t generalizing n with
  | nil => trivial
  | node l a c r ihl ihr =>
    obtain ⟨-, k, -, hl, hr⟩ := h
    exact ⟨hl.fullBelow.paired, ihl hl, ihr hr⟩

theorem FullBelow.leftPaired (h : FullBelow t) : LeftPaired t := by
  obtain ⟨k, hk⟩ := h
  cases t with
  | nil => trivial
  | node l a c r => exact hk.leftPaired

theorem LeftFull.leftPaired (h : LeftFull t) : LeftPaired t := by
  induction t with
  | nil => trivial
  | node l a c r _ ihr => exact ⟨h.1.paired, h.1.leftPaired, ihr h.2⟩

end Full

/-! ### Insertions at the right end -/

/-- The frames of a position at the right end of a tree. -/
def RightEnd (fs : List Frame) : Prop := ∀ F ∈ fs, F.side = .right

variable {fs : List Frame} {t : Tree}

theorem rightEnd_of_after (h : after fs = []) : RightEnd fs := by
  induction fs with
  | nil => simp [RightEnd]
  | cons F fs ih =>
    obtain ⟨d, a, c, s⟩ := F
    cases d with
    | left => simp [after] at h
    | right => exact List.forall_mem_cons.mpr ⟨rfl, ih h⟩

theorem leftFull_plug (hright : RightEnd fs) :
    LeftFull (plug fs t) ↔ (∀ F ∈ fs, FullBelow F.sibling) ∧ LeftFull t := by
  induction fs generalizing t with
  | nil => simp
  | cons F fs ih =>
    obtain ⟨hF, hfs⟩ := List.forall_mem_cons.mp hright
    obtain ⟨d, a, c, s⟩ := F
    obtain rfl : d = .right := hF
    rw [plug_cons, ih hfs, List.forall_mem_cons]
    exact ⟨fun h ↦ ⟨⟨h.2.1, h.1⟩, h.2.2⟩, fun h ↦ ⟨h.1.2, h.1.1, h.2⟩⟩

theorem leftFull_insertRotate {F G : Frame} {n : ℕ} (hF : F.side = .right) (hG : G.side = .right)
    (hsibling : FullBelow F.sibling) (huncle : FullBelow G.sibling) (ht : LeftFull t)
    (hcolors : F.sibling.color = .black ∧ G.sibling.color = .black)
    (hheights : Balanced F.sibling n ∧ Balanced G.sibling n) : LeftFull (insertRotate F G t) := by
  rw [insertRotate, if_pos (hF.trans hG.symm), hG]
  refine ⟨⟨n + 1, rfl, n, rfl, ?_, ?_⟩, ht⟩
  · exact huncle.full hcolors.2 hheights.2
  · exact hsibling.full hcolors.1 hheights.1

theorem leftFull_insertFix {n : ℕ} (hright : RightEnd fs) (hfull : ∀ F ∈ fs, FullBelow F.sibling)
    (ht : LeftFull t) (hfs : ContextBalanced fs n) : LeftFull (insertFix fs t) := by
  induction fs, t using insertFix.induct generalizing n with
  | case1 t => exact ht
  | case2 F t => exact (leftFull_plug hright).mpr ⟨hfull, ht⟩
  | case3 F G fs t hblack =>
    rw [insertFix, if_pos hblack]
    exact (leftFull_plug hright).mpr ⟨hfull, ht⟩
  | case4 F G fs t hred huncle ih =>
    obtain ⟨hF, hright'⟩ := List.forall_mem_cons.mp hright
    obtain ⟨hG, hright'⟩ := List.forall_mem_cons.mp hright'
    obtain ⟨hfullF, hfull'⟩ := List.forall_mem_cons.mp hfull
    obtain ⟨hfullG, hfull'⟩ := List.forall_mem_cons.mp hfull'
    rw [insertFix, if_neg hred, if_pos huncle]
    refine ih hright' hfull' ?_ hfs.2.2.2.2
    rw [hF, hG]
    exact ⟨hfullG.paint .black, hfullF, ht⟩
  | case5 F G fs t hred huncle =>
    obtain ⟨hF, hright'⟩ := List.forall_mem_cons.mp hright
    obtain ⟨hG, hright'⟩ := List.forall_mem_cons.mp hright'
    obtain ⟨hfullF, hfull'⟩ := List.forall_mem_cons.mp hfull
    obtain ⟨hfullG, hfull'⟩ := List.forall_mem_cons.mp hfull'
    obtain ⟨hbalF, hcolors, hbalG, -⟩ := hfs
    rw [if_neg hred] at hbalG
    rw [insertFix, if_neg hred, if_neg huncle]
    refine (leftFull_plug hright').mpr ⟨hfull', ?_⟩
    exact leftFull_insertRotate hF hG hfullF hfullG ht
      ⟨(hcolors (color_eq_red_of_ne_black hred)).1, color_eq_black_of_ne_red huncle⟩ ⟨hbalF, hbalG⟩

theorem leftFull_insert (x : ℕ) (hrb : RedBlack (plug fs .nil)) (hfull : LeftFull (plug fs .nil))
    (hafter : after fs = []) : LeftFull (paint .black (insertFix fs (.node .nil x .red .nil))) := by
  have hright := rightEnd_of_after hafter
  obtain ⟨n, -, hfs, -⟩ := (redBlack_plug_iff _ _).mp hrb
  have hfix := leftFull_insertFix (t := .node .nil x .red .nil) hright ((leftFull_plug hright).mp hfull).1
    ⟨⟨0, rfl⟩, trivial⟩ hfs
  generalize insertFix fs (.node .nil x .red .nil) = u at hfix
  cases u <;> exact hfix

end Lanthorn.Library
