import Lanthorn.Kernel.RbtContract
import Lanthorn.Kernel.RbtUpdate

/-!
# Augmented red-black trees

A client of `lib/rbt.c` may keep in each node a summary of its subtree, and pass the update functions a `func` that
recomputes the summary of a node from the data of the node and the summaries of its children. `Augmented` says of a
tree in memory that every summary is the value that the recursion over the subtree gives.
`rbtInsertUpdate_augmented`, `rbtDeleteUpdate_augmented` and `rbtUpdate_augmented` say that the three ways of
changing a tree keep it.
-/

namespace Lanthorn.Rbt

open Library Tree

section Augmented

variable {δ σ : Type*} (combine : δ → Option σ → Option σ → σ)

/-- An update function: the summary of a node from its data and the summaries of the children that it
has. -/
def recompute (data : ℕ → δ) (m : TreeMem) (summary : ℕ → σ) (node : ℕ) : ℕ → σ :=
  Function.update summary node (combine (data node) (childSummary summary (m.child .left node))
    (childSummary summary (m.child .right node)))

/-- A red-black tree in memory in which every node has the summary of its subtree. -/
def Augmented (t : Rbt) (data : ℕ → δ) (summary : ℕ → σ) : Prop :=
  ∃ T, Holds t T ∧ RedBlack T ∧ Correct combine data summary T

variable {combine} {t : Rbt} {data : ℕ → δ} {summary : ℕ → σ} {x : ℕ}

theorem childSummary_update {n : ℕ} (hne : n ≠ x) (v : σ) :
    childSummary (Function.update summary x v) n = childSummary summary n := by simp [childSummary, hne]

theorem updates_recompute (combine : δ → Option σ → Option σ → σ) (data : ℕ → δ) (m : TreeMem) :
    Updates (Combines combine data) m (recompute combine data m) where
  sets summary x l r hl hr _ _ _ hlx hrx := by
    rw [Combines, recompute, hl, hr, childSummary_update hlx, childSummary_update hrx, Function.update_self]
  keeps summary x a l r _ _ _ _ hax hlx hrx h := by
    rw [Combines, recompute, childSummary_update hlx, childSummary_update hrx, Function.update_of_ne hax]
    exact h

theorem Holds.correct_iff {T : Tree} (h : Holds t T) :
    Summed (Combines combine data summary) T ↔ Correct combine data summary T :=
  summed_iff_correct fun h0 ↦ h.rep.ne_zero h0 rfl

theorem rbtInsertUpdate_augmented (h : t.Augmented combine data summary) (hx : x ≠ 0)
    (hword : x < addressSpace) (hnew : x ∉ t.nodes) {parent : ℕ} {d : Side} (hlink : t.EmptyLink parent d) :
    ∃ t' summary', rbtInsertColor (t.rbLinkNode x parent d) x = .ok t' ∧
      rbtInsertUpdate t'.mem (recompute combine data t'.mem) x summary = .ok summary' ∧
      t'.nodes = (t.rbLinkNode x parent d).nodes ∧ t'.Augmented combine data summary' := by
  obtain ⟨T, hT, hrb, hcorrect⟩ := h
  obtain ⟨fs, rfl, hat⟩ := hlink.exists_plug hT
  rw [hT.nodes_eq] at hnew
  obtain ⟨n, hn, hfs, -⟩ := (redBlack_plug_iff _ _).mp hrb
  obtain rfl : n = 0 := hn
  obtain ⟨hlinked, -⟩ := rbLinkNode_holds hT hx hword hnew
  obtain ⟨t', hrun, hmoves⟩ := rbtInsertColor_moves hlinked hfs
  obtain ⟨summary', hupdate, hsummed⟩ := insertUpdate_summed (updates_recompute combine data t'.mem)
    hmoves.holds (hT.correct_iff.mpr hcorrect).of_plug.2
  rw [hat x]
  refine ⟨t', summary', hrun, hupdate, ?_, _, hmoves.holds, (insertShape_spec x hrb).1,
    hmoves.holds.correct_iff.mp hsummed⟩
  rw [hmoves.holds.nodes_eq, hlinked.nodes_eq, hmoves.inorder_eq]

theorem rbtDeleteUpdate_augmented (h : t.Augmented combine data summary) (hx : x ∈ t.nodes) :
    ∃ start t' summary', rbtDeleteUpdateBegin t.mem x = .ok start ∧ rbtDelete t x = .ok t' ∧
      rbtDeleteUpdateEnd t'.mem (recompute combine data t'.mem) start summary = .ok summary' ∧
      t'.nodes = t.nodes.erase x ∧ t'.Augmented combine data summary' := by
  obtain ⟨T, hT, hrb, hcorrect⟩ := h
  rw [hT.nodes_eq] at hx ⊢
  obtain ⟨start, t', T', summary', hbegin, hrun, hend, hT', hrb', hsummed, hinorder, -⟩ :=
    rbtDelete_summed (updates_recompute combine data) hT hrb (hT.correct_iff.mpr hcorrect) hx
  exact ⟨start, t', summary', hbegin, hrun, hend, hT'.nodes_eq.trans hinorder, T', hT', hrb',
    hT'.correct_iff.mp hsummed⟩

theorem rbtUpdate_augmented (h : t.Augmented combine data summary) (hx : x ∈ t.nodes) (new : δ) :
    ∃ summary', rbtUpdate t.mem (recompute combine (Function.update data x new) t.mem) x summary = .ok summary' ∧
      t.Augmented combine (Function.update data x new) summary' := by
  obtain ⟨T, hT, hrb, hcorrect⟩ := h
  rw [hT.nodes_eq] at hx
  have hrepair : Repairable (Combines combine (Function.update data x new) summary) x T :=
    repairable_of_forall_ne (hT.correct_iff.mpr hcorrect) hx hT.nodup fun a _ hne l r hright ↦ by
      rw [Combines, Function.update_of_ne hne]
      exact hright
  obtain ⟨summary', hrun, hsummed⟩ :=
    rbtUpdate_summed (updates_recompute combine (Function.update data x new) t.mem) hT hrepair
  exact ⟨summary', hrun, T, hT, hrb, hT.correct_iff.mp hsummed⟩

end Augmented

end Lanthorn.Rbt
