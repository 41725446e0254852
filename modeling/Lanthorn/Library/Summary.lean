import Lanthorn.Library.RedBlack

/-!
# Summaries in red-black trees

A node of a red-black tree may carry a summary of its subtree that is computed from the node and the summaries of
its children. Here the summaries are a relation `R` on a node and its two children. `Summed R t` says that it holds
at every node of `t`, and `SummedBelow R t` at every node below the root.

A change of the tree spoils summaries. `Repairable R x t` says that recomputing them along the way from `x` to the
root, at each node on the way and at its sibling, repairs all of them: the nodes below those are right.
`repairable_insertFix` and `repairable_removeFix` say from which node this is so after the repairs of an insertion
and of a deletion.

Where the summary of a node is combined from the data of the node and the summaries of its children, `value` is
what it should be, by recursion over the subtree, and `summed_iff_correct` says that summaries that are right for
their children have this value.
-/

namespace Lanthorn.Library

open Library.Tree

/-- The relation holds between every node and its children. -/
def Summed (R : ℕ → ℕ → ℕ → Prop) : Tree → Prop
  | .nil => True
  | .node l a _ r => R a l.root r.root ∧ Summed R l ∧ Summed R r

/-- The relation holds between every node below the root and its children. -/
def SummedBelow (R : ℕ → ℕ → ℕ → Prop) : Tree → Prop
  | .nil => True
  | .node l _ _ r => Summed R l ∧ Summed R r

/-- Recomputing from `x` upwards repairs the relation: it holds below `x` and, at every node above
`x`, below the sibling of the way. -/
inductive Repairable (R : ℕ → ℕ → ℕ → Prop) (x : ℕ) : Tree → Prop
  | here {l r : Tree} (c : Color) (hl : Summed R l) (hr : Summed R r) :
    Repairable R x (.node l x c r)
  | up {near far : Tree} (d : Side) (a : ℕ) (c : Color) (hnear : Repairable R x near)
    (hfar : SummedBelow R far) : Repairable R x (join d a c near far)

/-- The same with every sibling right in itself: nothing but the way from `x` upwards is spoilt. -/
inductive SpoiltFrom (R : ℕ → ℕ → ℕ → Prop) (x : ℕ) : Tree → Prop
  | here {l r : Tree} (c : Color) (hl : Summed R l) (hr : Summed R r) :
    SpoiltFrom R x (.node l x c r)
  | up {near far : Tree} (d : Side) (a : ℕ) (c : Color) (hnear : SpoiltFrom R x near)
    (hfar : Summed R far) : SpoiltFrom R x (join d a c near far)

section Lemmas

variable {R : ℕ → ℕ → ℕ → Prop} {x : ℕ}

@[simp] theorem summed_nil : Summed R .nil := trivial

@[simp] theorem summedBelow_nil : SummedBelow R .nil := trivial

@[simp] theorem summed_paint (c : Color) (t : Tree) : Summed R (paint c t) ↔ Summed R t := by cases t <;> rfl

@[simp] theorem summedBelow_paint (c : Color) (t : Tree) :
    SummedBelow R (paint c t) ↔ SummedBelow R t := by cases t <;> rfl

variable {t far : Tree} {d : Side} {a : ℕ} {c : Color} {fs : List Frame}

theorem Summed.below (h : Summed R t) : SummedBelow R t := by
  cases t with
  | nil => trivial
  | node l a c r => exact h.2

@[simp] theorem summedBelow_join {near : Tree} :
    SummedBelow R (join d a c near far) ↔ Summed R near ∧ Summed R far := by
  cases d with
  | left => rfl
  | right => exact and_comm

theorem Summed.child (h : Summed R t) (d : Side) : Summed R (t.child d) := by
  cases t with
  | nil => cases d <;> trivial
  | node l a c r =>
    cases d with
    | left => exact h.2.1
    | right => exact h.2.2

theorem summed_join {near : Tree} (h : Summed R (join d a c near far)) : Summed R near ∧ Summed R far :=
  summedBelow_join.mp h.below

theorem Summed.of_plug (h : Summed R (plug fs t)) : Summed R t ∧ ∀ F ∈ fs, Summed R F.sibling := by
  induction fs generalizing t with
  | nil => exact ⟨h, by simp⟩
  | cons F fs ih =>
    obtain ⟨hfill, hfs⟩ := ih h
    obtain ⟨ht, hF⟩ := summed_join hfill
    exact ⟨ht, by simpa [hF] using hfs⟩

theorem root_mem_of_ne_zero (h : t.root ≠ 0) : t.root ∈ t.inorder :=
  mem_root fun hnil ↦ h (hnil ▸ rfl)

theorem Summed.imp_of_mem {R' : ℕ → ℕ → ℕ → Prop} (h : Summed R t)
    (himp : ∀ a ∈ t.inorder, ∀ l r, (l ≠ 0 → l ∈ t.inorder) → (r ≠ 0 → r ∈ t.inorder) →
      R a l r → R' a l r) : Summed R' t := by
  induction t with
  | nil => trivial
  | node l a c r ihl ihr =>
    refine ⟨himp a (by simp) _ _ (fun hl ↦ ?_) (fun hr ↦ ?_) h.1,
      ihl h.2.1 fun b hb x y hx hy ↦ himp b (by simp [hb]) x y (fun hne ↦ ?_) (fun hne ↦ ?_),
      ihr h.2.2 fun b hb x y hx hy ↦ himp b (by simp [hb]) x y (fun hne ↦ ?_) (fun hne ↦ ?_)⟩
    · simp [root_mem_of_ne_zero hl]
    · simp [root_mem_of_ne_zero hr]
    all_goals simp [hx, hy, hne]

theorem repairable_paint (h : Repairable R x t) : Repairable R x (paint c t) := by
  cases h with
  | here c' hl hr => exact .here c hl hr
  | up d a c' hnear hfar =>
    rw [paint_join]
    exact .up d a c hnear hfar

theorem repairable_plug (h : Repairable R x t) (hfs : ∀ F ∈ fs, SummedBelow R F.sibling) :
    Repairable R x (plug fs t) := by
  induction fs generalizing t with
  | nil => exact h
  | cons F fs ih => exact ih (.up F.side F.addr F.color h (hfs F (by simp))) fun G hG ↦ hfs G (by simp [hG])

theorem SpoiltFrom.repairable (h : SpoiltFrom R x t) : Repairable R x t := by
  induction h with
  | here c hl hr => exact .here c hl hr
  | up d a c _ hfar ih => exact .up d a c ih hfar.below

theorem Repairable.exists_plug (h : Repairable R x t) :
    ∃ fs u, t = plug fs u ∧ u.root = x ∧ u ≠ .nil ∧ SummedBelow R u ∧ ∀ F ∈ fs, SummedBelow R F.sibling := by
  induction h with
  | here c hl hr => exact ⟨[], _, rfl, rfl, by simp, ⟨hl, hr⟩, by simp⟩
  | @up near far d a c _ hfar ih =>
    obtain ⟨fs, u, rfl, hroot, hne, hbelow, hfs⟩ := ih
    refine ⟨fs ++ [⟨d, a, c, far⟩], u, by simp [plug_append, Frame.fill], hroot, hne, hbelow, ?_⟩
    grind

theorem repairable_of_forall_ne {R' : ℕ → ℕ → ℕ → Prop} (h : Summed R' t) (hx : x ∈ t.inorder)
    (hnodup : t.inorder.Nodup) (himp : ∀ a ∈ t.inorder, a ≠ x → ∀ l r, R' a l r → R a l r) : Repairable R x t := by
  obtain ⟨fs, l, c, r, rfl⟩ := exists_plug_of_mem hx
  obtain ⟨⟨-, hl, hr⟩, hfs⟩ := h.of_plug
  have happend := nodup_plug.mp hnodup
  have hne : ∀ a, a ∈ l.inorder ∨ a ∈ r.inorder ∨ a ∈ around fs → a ≠ x := by
    rintro a ha rfl
    grind [inorder_node]
  have hright : ∀ u, Summed R' u →
      (∀ a ∈ u.inorder, a ∈ l.inorder ∨ a ∈ r.inorder ∨ a ∈ around fs) → Summed R u := by
    intro u hu hmem
    refine hu.imp_of_mem fun a ha l r _ _ ↦ himp a (mem_plug.mpr ?_) (hne a (hmem a ha)) l r
    have := hmem a ha
    simp only [inorder_node, List.mem_append, List.mem_cons]
    tauto
  refine repairable_plug (.here c (hright l hl fun a ha ↦ Or.inl ha)
    (hright r hr fun a ha ↦ Or.inr (Or.inl ha))) fun F hF ↦ ?_
  exact (hright _ (hfs F hF) fun a ha ↦ Or.inr (Or.inr (mem_around_of_sibling hF ha))).below

/-! ### After an insertion -/

/-- The frames of a position with the relation right in every sibling. -/
def SiblingsSummed (R : ℕ → ℕ → ℕ → Prop) (fs : List Frame) : Prop := ∀ F ∈ fs, Summed R F.sibling

/-- The frames of a position with the relation right below every sibling. -/
def SiblingsBelow (R : ℕ → ℕ → ℕ → Prop) (fs : List Frame) : Prop :=
  ∀ F ∈ fs, SummedBelow R F.sibling

theorem SiblingsSummed.append {gs : List Frame} (hfs : SiblingsSummed R fs)
    (hgs : SiblingsSummed R gs) : SiblingsSummed R (fs ++ gs) := by
  simpa [SiblingsSummed, or_imp, forall_and] using And.intro hfs hgs

theorem SiblingsBelow.append {gs : List Frame} (hfs : SiblingsBelow R fs) (hgs : SiblingsBelow R gs) :
    SiblingsBelow R (fs ++ gs) := by
  simpa [SiblingsBelow, or_imp, forall_and] using And.intro hfs hgs

theorem SiblingsSummed.below (h : SiblingsSummed R fs) : SiblingsBelow R fs :=
  fun F hF ↦ (h F hF).below

theorem insertRotate_plug {F G : Frame} {us : List Frame} (hus : SiblingsSummed R us)
    (hF : Summed R F.sibling) (hG : Summed R G.sibling) (hne : us ≠ [] ∨ F.side = G.side) :
    ∃ gs, insertRotate F G (plug us t) = plug gs t ∧ SiblingsBelow R gs := by
  unfold insertRotate
  split_ifs with hside
  · refine ⟨us ++ [⟨G.side, F.addr, .black, join G.side G.addr .red F.sibling G.sibling⟩], ?_, hus.below.append ?_⟩
    · simp [plug_append, Frame.fill]
    · simpa [SiblingsBelow] using ⟨hF, hG⟩
  obtain ⟨vs, H, rfl⟩ := (List.eq_nil_or_concat' us).resolve_left (hne.resolve_right hside)
  have hH : Summed R H.sibling := hus H (by simp)
  have hvs : SiblingsSummed R vs := fun K hK ↦ hus K (by simp [hK])
  rw [plug_append, plug_cons, plug_nil]
  obtain ⟨d, a, c, u⟩ := H
  -- the way goes on below the one or the other of the two nodes that come down
  by_cases hd : d = G.side
  · subst hd
    refine ⟨vs ++ [⟨G.side.flip, F.addr, .red, F.sibling⟩,
      ⟨G.side, a, .black, join G.side G.addr .red u G.sibling⟩], ?_, hvs.below.append ?_⟩
    · simp [plug_append, Frame.fill, join_flip]
    · simpa [SiblingsBelow] using ⟨hF.below, hH, hG⟩
  · obtain rfl := side_eq_flip_of_ne hd
    refine ⟨vs ++ [⟨G.side, G.addr, .red, G.sibling⟩,
      ⟨G.side.flip, a, .black, join G.side F.addr .red F.sibling u⟩], ?_, hvs.below.append ?_⟩
    · simp [plug_append, Frame.fill, join_flip]
    · simpa [SiblingsBelow] using ⟨hG.below, hF, hH⟩

/-- The repair after an insertion of the leaf `x`: the leaf stays a leaf, or it has come above its
parent and grandparent, and in either case recomputing from the lowest of these repairs the
relation. Assumes: the siblings are right. -/
theorem insertFix_plug {us : List Frame} (hus : SiblingsSummed R us) (hfs : SiblingsSummed R fs) :
    ∃ gs l c r, insertFix fs (plug us (.node .nil x .red .nil)) = plug gs (.node l x c r) ∧ SiblingsBelow R gs ∧
      (l = .nil ∧ r = .nil ∨ l ≠ .nil ∧ SummedBelow R l ∧ SummedBelow R r) := by
  generalize ht : plug us (.node .nil x .red .nil) = t
  induction fs, t using insertFix.induct generalizing us with
  | case1 t => exact ⟨us, .nil, .red, .nil, ht.symm, hus.below, Or.inl ⟨rfl, rfl⟩⟩
  | case2 F t =>
    refine ⟨us ++ [F], .nil, .red, .nil, ?_, (hus.append hfs).below, Or.inl ⟨rfl, rfl⟩⟩
    rw [insertFix, plug_append, ht]
  | case3 F G fs t hblack =>
    refine ⟨us ++ F :: G :: fs, .nil, .red, .nil, ?_, (hus.append hfs).below, Or.inl ⟨rfl, rfl⟩⟩
    rw [insertFix, if_pos hblack, plug_append, ht]
  | case4 F G fs t hred huncle ih =>
    have hF : Summed R F.sibling := hfs F (by simp)
    have hG : Summed R G.sibling := hfs G (by simp)
    have hup : SiblingsSummed R (us ++ [⟨F.side, F.addr, .black, F.sibling⟩,
        ⟨G.side, G.addr, .red, paint .black G.sibling⟩]) :=
      hus.append (by simpa [SiblingsSummed] using ⟨hF, hG⟩)
    rw [insertFix, if_neg hred, if_pos huncle]
    refine ih hup (fun K hK ↦ hfs K (by simp [hK])) ?_
    simp [plug_append, Frame.fill, ht]
  | case5 F G fs t hred huncle =>
    have hF : Summed R F.sibling := hfs F (by simp)
    have hG : Summed R G.sibling := hfs G (by simp)
    have hrest : SiblingsBelow R fs := fun K hK ↦ (hfs K (by simp [hK])).below
    rw [insertFix, if_neg hred, if_neg huncle]
    by_cases hne : us ≠ [] ∨ F.side = G.side
    · obtain ⟨gs, hgs, hbelow⟩ := insertRotate_plug (t := .node .nil x .red .nil) hus hF hG hne
      refine ⟨gs ++ fs, .nil, .red, .nil, ?_, hbelow.append hrest, Or.inl ⟨rfl, rfl⟩⟩
      rw [plug_append, ← hgs, ht]
    · -- the leaf itself comes above its parent and grandparent
      simp only [ne_eq, not_or, not_not] at hne
      obtain ⟨rfl, hside⟩ := hne
      rw [plug_nil] at ht
      subst ht
      rw [insertRotate, if_neg hside]
      obtain ⟨d, b, c, u⟩ := G
      have hchild : ∀ e, Tree.child e (.node .nil x .red .nil) = .nil := fun e ↦ by cases e <;> rfl
      simp only [hchild, root_node]
      cases d with
      | left =>
        exact ⟨fs, _, .black, _, rfl, hrest, Or.inr ⟨join_ne_nil, summedBelow_join.mpr ⟨hF, trivial⟩,
          summedBelow_join.mpr ⟨trivial, hG⟩⟩⟩
      | right =>
        exact ⟨fs, _, .black, _, rfl, hrest, Or.inr ⟨join_ne_nil, summedBelow_join.mpr ⟨trivial, hG⟩,
          summedBelow_join.mpr ⟨hF, trivial⟩⟩⟩

theorem paint_insertFix_plug (hfs : SiblingsSummed R fs) (k : Color) :
    ∃ gs l c r, paint k (insertFix fs (.node .nil x .red .nil)) = plug gs (.node l x c r) ∧ SiblingsBelow R gs ∧
      (l = .nil ∧ r = .nil ∨ l ≠ .nil ∧ SummedBelow R l ∧ SummedBelow R r) := by
  obtain ⟨gs, l, c, r, heq, hgs, hleaf⟩ :=
    insertFix_plug (x := x) (show SiblingsSummed R [] by simp [SiblingsSummed]) hfs
  rw [plug_nil] at heq
  rw [heq]
  obtain rfl | ⟨vs, F, rfl⟩ := List.eq_nil_or_concat' gs
  · exact ⟨[], l, k, r, rfl, hgs, hleaf⟩
  · refine ⟨vs ++ [⟨F.side, F.addr, k, F.sibling⟩], l, c, r, ?_, ?_, hleaf⟩
    · simp [plug_append, Frame.fill]
    · simpa [SiblingsBelow, or_imp, forall_and] using hgs

/-! ### After a deletion -/

theorem repairable_deleteRotate {s : Tree}
    (h : ∀ c far, Summed R far → SpoiltFrom R x (join d a c t far)) (hs : Summed R s) :
    Repairable R x (deleteRotate d a c t s) := by
  unfold deleteRotate
  split_ifs with hfar
  · refine .up _ _ _ (h _ _ ((hs.child d).child d)).repairable ?_
    exact summedBelow_join.mpr ⟨(hs.child d).child d.flip, hs.child d.flip⟩
  · refine .up _ _ _ (h _ _ (hs.child d)).repairable ?_
    exact ((summed_paint _ _).mpr (hs.child d.flip)).below

/-- A tree in which the way is spoilt, or an empty tree in a position whose node spoils it. -/
def SpoiltAt (R : ℕ → ℕ → ℕ → Prop) (x : ℕ) (fs : List Frame) (t : Tree) : Prop :=
  SpoiltFrom R x t ∨ t = .nil ∧ fs ≠ [] ∧ hook fs = x

theorem SpoiltAt.join {F : Frame} (h : SpoiltAt R x (F :: fs) t) (hfar : Summed R far) :
    SpoiltFrom R x (join F.side F.addr c t far) := by
  rcases h with h | ⟨rfl, -, rfl⟩
  · exact .up _ _ _ h hfar
  · cases F.side with
    | left => exact .here c trivial hfar
    | right => exact .here c hfar trivial

theorem repairable_deleteFix (h : SpoiltAt R x fs t) (hfs : SiblingsSummed R fs) :
    Repairable R x (deleteFix fs t) := by
  induction fs, t using deleteFix.induct with
  | case1 t =>
    rcases h with h | ⟨-, hne, -⟩
    · exact repairable_paint h.repairable
    · exact absurd rfl hne
  | case2 F fs t hred =>
    rcases h with h | ⟨rfl, -, -⟩
    · rw [deleteFix, if_pos hred]
      exact repairable_plug (repairable_paint h.repairable) hfs.below
    · cases hred
  | case3 F fs t hblack hsred hchildren =>
    have hF : Summed R F.sibling := hfs F (by simp)
    have hrest : SiblingsBelow R fs := fun K hK ↦ (hfs K (by simp [hK])).below
    rw [deleteFix, if_neg hblack, if_pos hsred, if_pos hchildren]
    refine repairable_plug (h.join ?_).repairable fun K hK ↦ ?_
    · simpa using hF.child F.side
    · rcases List.mem_cons.mp hK with rfl | hK
      · exact (hF.child F.side.flip).below
      · exact hrest K hK
  | case4 F fs t hblack hsred hchildren =>
    have hF : Summed R F.sibling := hfs F (by simp)
    have hrest : SiblingsBelow R fs := fun K hK ↦ (hfs K (by simp [hK])).below
    rw [deleteFix, if_neg hblack, if_pos hsred, if_neg hchildren]
    refine repairable_paint (repairable_plug ?_ fun K hK ↦ ?_)
    · exact repairable_deleteRotate (fun _ _ ↦ h.join) (hF.child F.side)
    · rcases List.mem_cons.mp hK with rfl | hK
      · exact (hF.child F.side.flip).below
      · exact hrest K hK
  | case5 F fs t hblack hsblack hchildren ih =>
    have hF : Summed R F.sibling := hfs F (by simp)
    rw [deleteFix, if_neg hblack, if_neg hsblack, if_pos hchildren]
    exact ih (Or.inl (h.join ((summed_paint _ _).mpr hF))) fun K hK ↦ hfs K (by simp [hK])
  | case6 F fs t hblack hsblack hchildren =>
    have hF : Summed R F.sibling := hfs F (by simp)
    have hrest : SiblingsBelow R fs := fun K hK ↦ (hfs K (by simp [hK])).below
    rw [deleteFix, if_neg hblack, if_neg hsblack, if_neg hchildren]
    exact repairable_paint (repairable_plug (repairable_deleteRotate (fun _ _ ↦ h.join) hF) hrest)

theorem repairable_removeFix {s : Tree} (h : SpoiltAt R x fs s) (hfs : SiblingsSummed R fs) :
    Repairable R x (removeFix c fs s) := by
  unfold removeFix
  split_ifs
  · exact repairable_deleteFix h hfs
  · cases fs with
    | nil =>
      rcases h with h | ⟨-, hne, -⟩
      · exact h.repairable
      · exact absurd rfl hne
    | cons F fs =>
      rw [plug_cons]
      refine repairable_plug (h.join (hfs F (by simp))).repairable fun K hK ↦ ?_
      exact (hfs K (by simp [hK])).below

end Lemmas

/-! ### Combined summaries -/

section Combined

variable {δ σ : Type*} (combine : δ → Option σ → Option σ → σ) (data : ℕ → δ)

def value : Tree → Option σ
  | .nil => none
  | .node l a _ r => some (combine (data a) (value l) (value r))

/-- Every node has the summary of its subtree. -/
def Correct (summary : ℕ → σ) : Tree → Prop
  | .nil => True
  | .node l a c r => some (summary a) = value combine data (.node l a c r) ∧ Correct summary l ∧
    Correct summary r

/-- The summary of a child, if there is one. -/
def childSummary (summary : ℕ → σ) (n : ℕ) : Option σ := if n = 0 then none else some (summary n)

/-- The summary of a node is combined from its data and the summaries of its children. -/
def Combines (summary : ℕ → σ) (a l r : ℕ) : Prop :=
  summary a = combine (data a) (childSummary summary l) (childSummary summary r)

variable {combine data} {summary : ℕ → σ}

theorem Correct.childSummary_root {t : Tree} (h : Correct combine data summary t) (ht : 0 ∉ t.inorder) :
    childSummary summary t.root = value combine data t := by
  cases t with
  | nil => rfl
  | node l a c r =>
    have ha : a ≠ 0 := by
      rintro rfl
      simp at ht
    rw [root_node, childSummary, if_neg ha, h.1]

theorem summed_iff_correct {t : Tree} (ht : 0 ∉ t.inorder) :
    Summed (Combines combine data summary) t ↔ Correct combine data summary t := by
  induction t with
  | nil => exact Iff.rfl
  | node l a c r ihl ihr =>
    simp only [inorder_node, List.mem_append, List.mem_cons, not_or] at ht
    simp only [Summed, Correct, ihl ht.1, ihr ht.2.2]
    refine and_congr_left fun ⟨hl, hr⟩ ↦ ?_
    rw [Combines, hl.childSummary_root ht.1, hr.childSummary_root ht.2.2, value, Option.some_inj]

end Combined

end Lanthorn.Library
