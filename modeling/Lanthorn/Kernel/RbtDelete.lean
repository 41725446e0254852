import Lanthorn.Kernel.RbtInsert

/-!
# `rbt_delete`

The deletion of the kernel's red-black tree on shapes. A node with at most one child is replaced by that child
(`deleteOne_holds`); a node with two children is replaced by its successor, whose own place its right child takes
(`deleteTwo_holds`). The loop of `rbt_delete_color` is `deleteFix` (`deleteColorLoop_moves`).

`rbtDelete_holds` is the result: on a red-black tree `rbt_delete` ends, leaves a red-black tree of the other nodes
in the same order, and writes only at nodes of the tree.
-/

namespace Lanthorn.Rbt

open Library Tree List

/-! ### The rotations of a round -/

variable {m : TreeMem} {up x y f z p v : ℕ} {t : Rbt} {s u l T : Tree} {d : Side}
  {fs gs : List Frame} {cy c : Color} {F : Frame}

theorem isBlack_iff_of_represents {t : Tree} (h : Represents m up t) : IsBlack m t.root ↔ t.color = .black := by
  cases t with
  | nil => simp [IsBlack]
  | node l a c r => simp [IsBlack, h.1, h.2.1]

theorem childrenBlack_iff (h : Represents m up s) (hs : s ≠ .nil) (d : Side) :
    (IsBlack m (m.child d s.root) ∧ IsBlack m (m.child d.flip s.root)) ↔
      ChildrenBlack d s := by
  rw [← join_child d hs, represents_join] at h
  obtain ⟨-, -, -, hnear, hfar, hn, hf⟩ := h
  rw [hnear, hfar, isBlack_iff_of_represents hn, isBlack_iff_of_represents hf]
  rfl

theorem deleteColorRotate_end {cx : Color} {a b c : Tree}
    (h : Holds t (plug fs (join d x cx a (join d y cy b c)))) (hc : c ≠ .nil) :
    ∃ t', rotate d ((((t.setColor y cx).setColor x .black)).setColor c.root .black) x = .ok t' ∧
      Moves t (plug fs (join d x cx a (join d y cy b c))) t'
        (plug fs (join d y cx (join d x .black a b) (paint .black c))) := by
  have h₁ := (Moves.refl h).paint cx (⟨d.flip, x, cx, a⟩ :: fs) (x := y)
    (u := join d y cy b c) (by simp [Frame.fill, join_flip]) (root_join ..).symm join_ne_nil
  have h₂ := h₁.paint .black fs (x := x) rfl (root_join ..).symm join_ne_nil
  simp only [Frame.fill, paint_join, join_flip] at h₂
  have h₃ := h₂.paint .black (⟨d.flip, y, cx, b⟩ :: ⟨d.flip, x, .black, a⟩ :: fs) (u := c)
    (by simp [Frame.fill, join_flip]) rfl hc
  simp only [plug_cons, Frame.fill, join_flip] at h₃
  obtain ⟨t', hrun, h₄⟩ := rotate_moves h₃.holds
  exact ⟨t', hrun, h₃.trans h₄⟩

theorem deleteColorRotate_moves (h : Holds t (plug fs (join d x c u s))) (hs : ¬ ChildrenBlack d s) :
    ∃ t', deleteColorRotate d t x s.root = .ok t' ∧
      Moves t (plug fs (join d x c u s)) t' (plug fs (deleteRotate d x c u s)) := by
  have hne := ne_nil_of_not_childrenBlack hs
  have hT : plug fs (join d x c u s) =
      plug fs (join d x c u (join d s.root s.color (s.child d) (s.child d.flip))) := by rw [join_child d hne]
  rw [hT] at h ⊢
  obtain ⟨hcontext, hrep⟩ := h.represents
  obtain ⟨-, hcolor, -, -, -, -, hreps⟩ := (represents_join ..).mp hrep
  obtain ⟨-, -, -, hnear, hfar, hn, hf⟩ := (represents_join ..).mp hreps
  by_cases hblack : (s.child d.flip).color = .black
  · -- the red child is the near one: it is rotated above the sibling first
    have hnearne : s.child d ≠ .nil := fun hnil ↦ hs ⟨by rw [hnil]; rfl, hblack⟩
    have hT' : plug fs (join d x c u (join d s.root s.color (s.child d) (s.child d.flip))) =
        plug (⟨d, s.root, s.color, s.child d.flip⟩ :: ⟨d.flip, x, c, u⟩ :: fs) (s.child d) := by
      simp [Frame.fill, join_flip]
    have h₁ := (Moves.refl h).paint .black _ hT' rfl hnearne
    have h₂ := h₁.paint .red (⟨d.flip, x, c, u⟩ :: fs) (x := s.root) rfl
      (root_join ..).symm join_ne_nil
    simp only [Frame.fill, paint_join, paint_eq_join d .black hnearne] at h₂
    obtain ⟨t₃, hrun₃, h₃⟩ := rotate_flip_moves h₂.holds
    have hcontext₃ := h₃.holds.represents.1
    rw [root_join] at hcontext₃
    obtain ⟨-, hcolor₃, -, hother, -, -, -⟩ := hcontext₃
    simp only at hcolor₃ hother
    have h₃' := h₂.trans h₃
    simp only [plug_cons, Frame.fill, join_flip] at h₃'
    have hfar₃ : t₃.mem.child d.flip (s.child d).root = s.root := by
      grind [h₃.holds.represents, represents_join, root_join]
    obtain ⟨t₄, hrun₄, h₄⟩ := deleteColorRotate_end h₃'.holds join_ne_nil
    rw [paint_join] at h₄
    rw [root_join] at hrun₄
    refine ⟨t₄, ?_, ?_⟩
    · have htest : IsBlack t.mem (t.mem.child d.flip s.root) := by rwa [hfar, isBlack_iff_of_represents hf]
      simp only [deleteColorRotate, htest, ↓reduceIte, hnear, hrun₃, hother, hcolor₃, ok_bind, pure_eq]
      exact hfar₃ ▸ hrun₄
    · rw [deleteRotate, if_pos hblack]
      exact h₃'.trans h₄
  · have hfarne : s.child d.flip ≠ .nil := fun hnil ↦ hblack (by rw [hnil]; rfl)
    obtain ⟨t₁, hrun₁, h₁⟩ := deleteColorRotate_end h hfarne
    refine ⟨t₁, ?_, ?_⟩
    · have htest : ¬ IsBlack t.mem (t.mem.child d.flip s.root) := by rwa [hfar, isBlack_iff_of_represents hf]
      simp only [deleteColorRotate, htest, ↓reduceIte, ok_bind, pure_eq]
      rw [hcolor]
      exact hfar ▸ hrun₁
    · rw [deleteRotate, if_neg hblack]
      exact h₁

theorem deleteColorSibling_moves (h : Holds t (plug (F :: fs) u)) (hs : F.sibling.color = .red) :
    ∃ t', deleteColorSibling F.side t F.addr F.sibling.root = .ok (t', (F.sibling.child F.side).root) ∧
      Moves t (plug (F :: fs) u) t' (plug (F.lifted :: fs)
        (join F.side F.addr .red u (F.sibling.child F.side))) := by
  obtain ⟨d, x, c, s⟩ := F
  simp only at hs ⊢
  have hne := ne_nil_of_red hs
  obtain ⟨-, -, -, -, -, hreps, -⟩ := h.represents.1
  have hcolor := hreps.color_root hne
  simp only at hcolor
  have h₁ := (Moves.refl h).paint .black (⟨d.flip, x, c, u⟩ :: fs) (u := s)
    (by simp [Frame.fill, join_flip]) rfl hne
  have h₂ := h₁.paint .red fs (x := x) rfl (root_join ..).symm join_ne_nil
  simp only [Frame.fill, paint_join, join_flip, paint_eq_join d .black hne] at h₂
  obtain ⟨t₃, hrun, h₃⟩ := rotate_moves h₂.holds
  have hnear : t₃.mem.child d.flip x = (s.child d).root := by grind [represents_join, h₃.holds.represents]
  refine ⟨t₃, ?_, ?_⟩
  · simp [deleteColorSibling, hcolor, hs, hrun, hnear]
  · exact h₂.trans h₃

theorem deleteColorSibling_black (h : Holds t (plug (F :: fs) u)) (hne : F.sibling ≠ .nil)
    (hs : F.sibling.color ≠ .red) :
    deleteColorSibling F.side t F.addr F.sibling.root = .ok (t, F.sibling.root) := by
  obtain ⟨-, -, -, -, -, hreps, -⟩ := h.represents.1
  simp [deleteColorSibling, hreps.color_root hne, hs]

/-! ### The loop -/

/-- A round of `rbt_delete_color` once the sibling is black. -/
def deleteColorRest (fuel : ℕ) (d : Side) (parent : ℕ) (p : Rbt × ℕ) : Result (Rbt × ℕ) := do
  if p.2 = 0 then throw .null
  if IsBlack p.1.mem (p.1.mem.child d p.2) ∧ IsBlack p.1.mem (p.1.mem.child d.flip p.2) then
    deleteColorLoop fuel (p.1.setColor p.2 .red) parent (p.1.mem.parent parent)
  else do
    let t ← deleteColorRotate d p.1 parent p.2
    return (t, t.root)

theorem deleteColorLoop_succ (fuel : ℕ) (h : Holds t (plug (F :: fs) u)) (hu : u.color ≠ .red)
    (hs : F.sibling ≠ .nil) : deleteColorLoop (fuel + 1) t u.root F.addr =
      deleteColorSibling F.side t F.addr F.sibling.root >>= deleteColorRest fuel F.side F.addr := by
  obtain ⟨hcontext, hrep⟩ := h.represents
  obtain ⟨hF0, -, -, -, hfar, hreps, -⟩ := id hcontext
  have hs0 : F.sibling.root ≠ 0 := fun h' ↦ hs (hreps.root_eq_zero_iff.mp h')
  have hdisjoint := (List.nodup_append.mp h.nodup_append).2.2
  have hroot : u.root ≠ t.root := by
    have hmem := root_plug_mem F fs u
    rw [← h.root_eq] at hmem
    by_cases hnil : u = .nil
    · subst hnil
      exact (hcontext.ne_zero hmem).symm
    · exact hdisjoint _ (mem_root hnil) _ hmem
  have hne : u.root ≠ F.sibling.root := by
    by_cases hnil : u = .nil
    · subst hnil
      exact hs0.symm
    · exact hdisjoint _ (mem_root hnil) _ (by simp [mem_root hs])
  have hd : (if t.mem.child .left F.addr = u.root then Side.left else .right) = F.side := by
    simp only [eq_comm (b := u.root), left_child_eq_iff hcontext hne]
    cases F.side <;> simp
  have hblack := (isBlack_iff_of_represents hrep).mpr (color_eq_black_of_ne_red hu)
  rw [deleteColorLoop]
  simp only [hblack, hroot, hd, hfar, hF0, hs0, ne_eq, not_false_eq_true, and_self, ↓reduceIte]
  rfl

theorem deleteColorRest_climb (fuel : ℕ) (h : Holds t (plug fs (join d x c u s))) (hs : s ≠ .nil)
    (hchildren : ChildrenBlack d s) :
    ∃ t', deleteColorRest fuel d x (t, s.root) = deleteColorLoop fuel t' x (hook fs) ∧
      Moves t (plug fs (join d x c u s)) t' (plug fs (join d x c u (paint .red s))) := by
  obtain ⟨-, -, hparent, -, -, -, hreps⟩ := (represents_join ..).mp h.represents.2
  have hs0 : s.root ≠ 0 := fun h' ↦ hs (hreps.root_eq_zero_iff.mp h')
  have h₁ := (Moves.refl h).paint .red (⟨d.flip, x, c, u⟩ :: fs) (u := s)
    (by simp [Frame.fill, join_flip]) rfl hs
  grind [plug_cons, Frame.fill, join_flip, deleteColorRest, childrenBlack_iff]

theorem deleteColorRest_rotate (fuel : ℕ) (h : Holds t (plug fs (join d x c u s)))
    (hchildren : ¬ ChildrenBlack d s) : ∃ t', deleteColorRest fuel d x (t, s.root) = .ok (t', t'.root) ∧
      Moves t (plug fs (join d x c u s)) t' (plug fs (deleteRotate d x c u s)) := by
  have hs := ne_nil_of_not_childrenBlack hchildren
  obtain ⟨-, -, -, -, -, -, hreps⟩ := (represents_join ..).mp h.represents.2
  have hs0 : s.root ≠ 0 := fun h' ↦ hs (hreps.root_eq_zero_iff.mp h')
  grind [childrenBlack_iff, deleteColorRotate_moves, deleteColorRest, ok_bind, pure_eq]

/-- The last line of `rbt_delete_color`. -/
def paintBlack (t : Rbt) (x : ℕ) : Rbt := if x ≠ 0 then t.setColor x .black else t

theorem Moves.paintBlack {t₀ : Rbt} {T₀ : Tree} (fs : List Frame) (h : Moves t₀ T₀ t (plug fs u)) :
    Moves t₀ T₀ (t.paintBlack u.root) (plug fs (Tree.paint .black u)) := by
  have hzero := h.holds.represents.2.root_eq_zero_iff
  by_cases hu : u = .nil
  · subst hu
    exact h
  · simpa [Rbt.paintBlack, hzero.not.mpr hu] using h.paint .black fs rfl rfl hu

theorem deleteColorLoop_red (fuel parent : ℕ) (h : Holds t (plug fs u)) (hu : u.color = .red) :
    deleteColorLoop (fuel + 1) t u.root parent = .ok (t, u.root) := by
  have hblack : ¬ IsBlack t.mem u.root := by
    rw [isBlack_iff_of_represents h.represents.2, hu]
    simp
  simp [deleteColorLoop, hblack]

theorem deleteColorLoop_moves {n fuel : ℕ} (h : Holds t (plug fs u)) (hu : Short u n)
    (hfs : ContextBalanced fs (n + 1)) (hfuel : fs.length < fuel) :
    ∃ t' x, deleteColorLoop fuel t u.root (hook fs) = .ok (t', x) ∧
      Moves t (plug fs u) (t'.paintBlack x) (deleteFix fs u) := by
  -- induction along the climb, one case for each way a round can go
  induction fs, u using deleteFix.induct generalizing t n fuel with
  | case1 u =>
    obtain ⟨fuel, rfl⟩ := exists_succ hfuel
    refine ⟨t, u.root, ?_, Moves.paintBlack [] (.refl h)⟩
    simp [deleteColorLoop, h.root_eq]
  | case2 F fs u hred =>
    obtain ⟨fuel, rfl⟩ := exists_succ hfuel
    rw [deleteFix, if_pos hred]
    exact ⟨t, u.root, deleteColorLoop_red fuel _ h hred, .paintBlack (F :: fs) (.refl h)⟩
  | case3 F fs u hred hsred hchildren =>
    obtain ⟨fuel, rfl⟩ : ∃ k, fuel = k + 2 :=
      ⟨fuel - 2, by simp only [length_cons] at hfuel; omega⟩
    rw [deleteFix, if_neg hred, if_pos hsred, if_pos hchildren, hook_cons,
      deleteColorLoop_succ _ h hred (ne_nil_of_red hsred)]
    obtain ⟨t₁, hrun₁, h₁⟩ := deleteColorSibling_moves h hsred
    obtain ⟨⟨hnear, -⟩, hbnear, -⟩ := hfs.1.of_red hsred F.side
    obtain ⟨t₂, hrun₂, h₂⟩ := deleteColorRest_climb (fuel + 1) h₁.holds
      (hbnear.of_black hnear F.side).1 hchildren
    have hstop := deleteColorLoop_red fuel (hook (F.lifted :: fs)) h₂.holds (color_join ..)
    rw [root_join] at hstop
    refine ⟨t₂, F.addr, ?_, ?_⟩
    · rw [hrun₁]
      exact hrun₂.trans hstop
    · have h₃ := Moves.paintBlack _ (h₁.trans h₂)
      rwa [root_join, paint_join] at h₃
  | case4 F fs u hred hsred hchildren =>
    obtain ⟨fuel, rfl⟩ := exists_succ hfuel
    rw [deleteFix, if_neg hred, if_pos hsred, if_neg hchildren, hook_cons,
      deleteColorLoop_succ _ h hred (ne_nil_of_red hsred)]
    obtain ⟨t₁, hrun₁, h₁⟩ := deleteColorSibling_moves h hsred
    obtain ⟨t₂, hrun₂, h₂⟩ := deleteColorRest_rotate fuel h₁.holds hchildren
    refine ⟨t₂, t₂.root, ?_, ?_⟩
    · rw [hrun₁]
      exact hrun₂
    · rw [h₂.holds.root_eq]
      exact Moves.paintBlack [] (h₁.trans h₂)
  | case5 F fs u hred hsred hchildren ih =>
    obtain ⟨fuel, rfl⟩ := exists_succ hfuel
    have hsne := (hfs.1.of_black (color_eq_black_of_ne_red hsred) F.side).1
    rw [deleteFix, if_neg hred, if_neg hsred, if_pos hchildren, hook_cons, deleteColorLoop_succ _ h hred hsne]
    obtain ⟨t₁, hrun₁, h₁⟩ := deleteColorRest_climb fuel h hsne hchildren
    obtain ⟨k, hshort, hup⟩ := hu.climb hred hfs hsred hchildren
    have hfuel' : fs.length < fuel := by
      simp only [length_cons] at hfuel
      omega
    obtain ⟨t₂, x, hrun₂, h₂⟩ := ih h₁.holds hshort hup hfuel'
    rw [root_join] at hrun₂
    refine ⟨t₂, x, ?_, h₁.trans h₂⟩
    rw [deleteColorSibling_black h hsne hsred]
    exact hrun₁.trans hrun₂
  | case6 F fs u hred hsred hchildren =>
    obtain ⟨fuel, rfl⟩ := exists_succ hfuel
    have hsne := (hfs.1.of_black (color_eq_black_of_ne_red hsred) F.side).1
    rw [deleteFix, if_neg hred, if_neg hsred, if_neg hchildren, hook_cons, deleteColorLoop_succ _ h hred hsne]
    obtain ⟨t₁, hrun₁, h₁⟩ := deleteColorRest_rotate fuel h hchildren
    refine ⟨t₁, t₁.root, ?_, ?_⟩
    · rw [deleteColorSibling_black h hsne hsred]
      exact hrun₁
    · rw [h₁.holds.root_eq]
      exact Moves.paintBlack [] h₁

theorem rbtDeleteColor_moves {n : ℕ} (h : Holds t (plug fs u)) (hu : Short u n) (hfs : ContextBalanced fs (n + 1)) :
    ∃ t', rbtDeleteColor t u.root (hook fs) = .ok t' ∧ Moves t (plug fs u) t' (deleteFix fs u) := by
  obtain ⟨t', x, hrun, hmoves⟩ := deleteColorLoop_moves h hu hfs h.length_lt
  refine ⟨t'.paintBlack x, ?_, hmoves⟩
  rw [rbtDeleteColor, hrun]
  rfl

theorem deleteEnd_moves (h : Holds t (plug fs s)) (hbefore : RedBlack (plug fs (join d x c .nil s))) :
    ∃ t', (if c = .black then rbtDeleteColor t s.root (hook fs) else return t) = .ok t' ∧
      Moves t (plug fs s) t' (removeFix c fs s) := by
  cases c with
  | red => exact ⟨t, rfl, .refl h⟩
  | black =>
    obtain ⟨n, hshort, hfs⟩ := exists_short_of_redBlack hbefore
    exact rbtDeleteColor_moves h hshort hfs

/-! ### A node with at most one child -/

/-- The write of `s->f = f` under its test on `s`. -/
def reparent (m : TreeMem) (s f : ℕ) : TreeMem := if s ≠ 0 then m.setParent s f else m

@[simp] theorem reparent_color (m : TreeMem) (s f : ℕ) : (reparent m s f).color = m.color := by
  unfold reparent
  split_ifs <;> rfl

@[simp] theorem reparent_child (m : TreeMem) (s f : ℕ) : (reparent m s f).child = m.child := by
  unfold reparent
  split_ifs <;> rfl

theorem reparent_parent (m : TreeMem) (s f z : ℕ) :
    (reparent m s f).parent z = if s ≠ 0 ∧ z = s then f else m.parent z := by
  unfold reparent
  by_cases hs : s = 0 <;> simp [hs]

theorem reparent_agree (hz : z ∉ s.inorder) : m.AgreeAt (reparent m s.root f) z := by
  refine ⟨by simp, ?_, fun _ ↦ by simp⟩
  rw [reparent_parent, if_neg]
  rintro ⟨hs, rfl⟩
  exact hz (mem_root fun hnil ↦ hs (by rw [hnil]; rfl))

theorem Represents.reparent (h : Represents m up s) (hnodup : s.inorder.Nodup) (f : ℕ) :
    Represents (reparent m s.root f) f s := by
  refine h.rehang hnodup (fun z _ hz ↦ ⟨by simp, ?_, fun _ ↦ by simp⟩) (by simp) (by simp) ?_
  all_goals grind [reparent_parent, h.root_eq_zero_iff.not]

theorem deleteOne_holds (h : Holds t (plug fs (join d x c .nil s))) (hT : RedBlack (plug fs (join d x c .nil s))) :
    ∃ t', deleteOne t x s.root = .ok t' ∧ Holds t' (removeFix c fs s) ∧
      Frames t t' (plug fs (join d x c .nil s)).inorder := by
  obtain ⟨hcontext, hrep⟩ := h.represents
  obtain ⟨hx, hcolor, hparent, -, -, -, hs⟩ := (represents_join ..).mp hrep
  have hnodup : (x :: s.inorder ++ around fs).Nodup := by
    refine (List.Perm.nodup_iff (List.Perm.append_right _ ?_)).mp h.nodup_append
    simpa using inorder_join_perm d x c .nil s
  have hcontext' : RepresentsContext (reparent t.mem s.root (hook fs)) fs x := by
    rw [root_join] at hcontext
    refine hcontext.congr fun z hz ↦ reparent_agree ?_
    grind
  have hroot : fs ≠ [] → t.root = (plug fs s).root := by
    intro hne
    rw [h.root_eq]
    cases fs with
    | nil => exact absurd rfl hne
    | cons F fs => exact root_plug_cons F fs _ _
  have hsub : (plug fs s).inorder ⊆ (plug fs (join d x c .nil s)).inorder := by
    intro z hz
    rw [mem_plug] at hz ⊢
    rw [mem_inorder_join]
    tauto
  obtain ⟨hholds, hframes⟩ := replaceChild_holds hcontext' hroot
    (Represents.reparent hs (by grind) (hook fs)) (by grind) (fun z hz ↦ h.word z (hsub hz)) hx
    (by grind)
  obtain ⟨t', hrun, hmoves⟩ := deleteEnd_moves hholds hT
  refine ⟨t', ?_, hmoves.holds, ?_⟩
  · rw [← hrun, deleteOne, hparent, hcolor]
    rfl
  · have hfirst : Frames t (replaceChild ⟨reparent t.mem s.root (hook fs), t.root⟩ (hook fs) x
        s.root) (plug fs s).inorder := by
      intro z hz
      rw [mem_plug] at hz
      exact (reparent_agree (by tauto)).trans (hframes z (by tauto))
    exact (hfirst.trans hmoves.frames).mono hsub

/-! ### A node with two children -/

theorem descend_eq {fuel : ℕ} (h : Represents m up u) (hu : u ≠ .nil) (hfuel : u.size ≤ fuel) :
    ∃ gs y c s, u = plug gs (join d y c .nil s) ∧ (∀ G ∈ gs, G.side = d) ∧ descend m d fuel u.root = .ok y := by
  induction fuel generalizing u up with
  | zero =>
    cases u with
    | nil => exact absurd rfl hu
    | node l a c r => simp at hfuel
  | succ fuel ih =>
    obtain ⟨near, far, hjoin⟩ := exists_join d hu
    rw [hjoin, represents_join] at h
    obtain ⟨-, -, -, hnear, -, hn, -⟩ := h
    by_cases hnil : near = .nil
    · refine ⟨[], u.root, u.color, far, by rw [plug_nil, ← hnil, ← hjoin], by simp, ?_⟩
      simp [descend, hnear, hnil]
    · have hsize : near.size ≤ fuel := by
        rw [hjoin, size_join] at hfuel
        omega
      obtain ⟨gs, y, c, s, rfl, hside, hrun⟩ := ih hn hnil hsize
      refine ⟨gs ++ [⟨d, u.root, u.color, far⟩], y, c, s, ?_, ?_, ?_⟩
      · rw [plug_append, plug_cons, plug_nil]
        exact hjoin
      all_goals grind [descend, hn.root_eq_zero_iff.not]

/-- The writes by which `node` takes over the parent, the color and the left child of `old`. -/
def adopt (m : TreeMem) (old node : ℕ) : TreeMem :=
  (((m.setParent node (m.parent old)).setColor node (m.color old)).setChild .left node
    (m.child .left old)).setParent (m.child .left old) node

theorem adopt_agree (hy : z ≠ y) (hl : z ≠ m.child .left x) : m.AgreeAt (adopt m x y) z := by
  refine ⟨?_, ?_, fun d ↦ ?_⟩
  · simp [adopt, hy]
  · simp [adopt, hy, hl]
  · simp [adopt, hy]

theorem adopt_represents {r : Tree} (hy : y ≠ 0) (hleft : m.child .left x = l.root)
    (hl : Represents m x l) (hne : l ≠ .nil) (hright : m.child .right y = r.root)
    (hr : Represents m y r) (hnodup : (l.inorder ++ y :: r.inorder).Nodup) :
    Represents (adopt m x y) (m.parent x) (.node l y (m.color x) r) := by
  have hyl : y ≠ l.root := ne_root_of_not_mem hy (by grind)
  have hroot := mem_root hne
  refine ⟨hy, by simp [adopt], by simp [adopt, hleft, hyl], by simp [adopt, hleft],
    by simp [adopt, hright], ?_, hr.congr fun z hz ↦ adopt_agree (by grind) ?_⟩
  · refine hl.rehang (by grind) (fun z hz hzl ↦ adopt_agree (by grind) (hleft ▸ hzl)) ?_ ?_ ?_
    · simp [adopt, hyl.symm]
    · intro d
      simp [adopt, hyl.symm]
    · intro _
      simp [adopt, hleft]
  · rw [hleft]
    grind

/-- The memory after the successor `node`, further down than the right child of `old`, has left its
place below `f` to its child `s` and taken over the right child of `old`. -/
def vacate (m : TreeMem) (old node s f : ℕ) : TreeMem :=
  (((reparent m s f).setChild .left f s).setChild .right node (m.child .right old)).setParent
    (m.child .right old) node

theorem deleteSplice_eq_adopt (s : ℕ) (hxy : x ≠ y) : deleteSplice m x y s x = adopt m x y := by
  simp [deleteSplice, adopt, hxy]

theorem deleteSplice_eq_adopt_vacate {s : ℕ} (hxy : x ≠ y) (hfx : f ≠ x) :
    deleteSplice m x y s f = adopt (vacate m x y s f) x y := by
  by_cases hs : s = 0 <;> simp [deleteSplice, adopt, vacate, reparent, hs, hxy, hfx]

theorem vacate_agree (hy : z ≠ y) (hf : z ≠ f) (hr : z ≠ m.child .right x) (hs : z ∉ s.inorder) :
    m.AgreeAt (vacate m x y s.root f) z := by
  obtain ⟨-, hparent, -⟩ := reparent_agree (m := m) (f := f) hs
  exact ⟨by simp [vacate], by simp [vacate, hr, hparent], fun d ↦ by simp [vacate, hy, hf]⟩

theorem vacate_represents {G : Frame} (h : Represents m x (plug (G :: gs) (.node .nil y cy s)))
    (hright : m.child .right x = (plug (G :: gs) (.node .nil y cy s)).root)
    (hnodup : (y :: s.inorder ++ around (G :: gs)).Nodup) (hside : G.side = .left) :
    Represents (vacate m x y s.root G.addr) y (plug (G :: gs) s) := by
  obtain ⟨-, -, -, -, -, -, hreps⟩ := h.of_plug
  obtain ⟨hys, hG, hdisjoint⟩ := List.nodup_append.mp hnodup
  have hGs : G.addr ∉ s.inorder := fun hmem ↦
    hdisjoint _ (mem_cons_of_mem _ hmem) G.addr (by simp) rfl
  -- first the position: `f` points at `s`, still below `old`
  have h₁ : Represents ((reparent m s.root G.addr).setChild .left G.addr s.root) x
      (plug (G :: gs) s) := by
    refine h.replug hG (fun z hz hzG ↦ ?_) (by simp) ?_ (by simp [hside]) (by simp [hside]) ?_
    · obtain ⟨hc, hp, hch⟩ := reparent_agree (m := m) (f := G.addr) (z := z) (s := s)
        fun hmem ↦ hdisjoint _ (mem_cons_of_mem _ hmem) z hz rfl
      exact ⟨hc, hp, fun d ↦ by simp [hzG]⟩
    · exact (reparent_agree hGs).2.1
    · refine (Represents.reparent hreps (List.nodup_cons.mp hys).2 G.addr).congr fun z hz ↦ ?_
      have hzG : z ≠ G.addr := fun heq ↦ hGs (heq ▸ hz)
      exact ⟨rfl, rfl, fun d ↦ by simp [hzG]⟩
  -- then its root gets the successor as its parent
  have hroot : m.child .right x = (plug (G :: gs) s).root :=
    hright.trans (root_plug_cons G gs _ _)
  have hy : ∀ z ∈ (plug (G :: gs) s).inorder, z ≠ y := by grind [mem_plug]
  have hne : plug (G :: gs) s ≠ .nil := by
    intro hnil
    have hmem : G.addr ∈ (plug (G :: gs) s).inorder := mem_plug.mpr (Or.inr (by simp))
    simp [hnil] at hmem
  refine h₁.rehang (nodup_plug.mpr ?_) (fun z hz hzr ↦ ⟨rfl, ?_, fun d ↦ ?_⟩) rfl (fun d ↦ ?_) ?_
  · exact (List.nodup_cons.mp hnodup).2
  · simp [vacate, hroot, hzr, -plug_cons]
  · simp [vacate, hy z hz]
  · simp [vacate, hy _ (mem_root hne), -plug_cons]
  · intro _
    simp [vacate, hroot]

theorem deleteSplice_represents (h : Represents m p (.node l x c (plug gs (.node .nil y cy s))))
    (hnodup : (l.inorder ++ x :: (y :: s.inorder ++ around gs)).Nodup) (hl : l ≠ .nil)
    (hgs : ∀ G ∈ gs, G.side = .left) :
    Represents (deleteSplice m x y s.root (hookBelow x gs)) p (.node l y c (plug gs s)) ∧
      ∀ z, z ∉ l.inorder ++ x :: (y :: s.inorder ++ around gs) →
        m.AgreeAt (deleteSplice m x y s.root (hookBelow x gs)) z := by
  obtain ⟨hx, rfl, rfl, hleft, hright, hrepl, hrepr⟩ := h
  obtain ⟨hy, -, -, -, hry, -, hreps⟩ := hrepr.of_plug
  have hxy : x ≠ y := by grind
  have hlmem := mem_root hl
  cases gs with
  | nil =>
    simp only [around_nil, append_nil] at hnodup
    simp only [hookBelow, plug_nil, around_nil, append_nil, deleteSplice_eq_adopt _ hxy]
    refine ⟨adopt_represents hy hleft hrepl hl hry hreps (by grind), fun z hz ↦ adopt_agree ?_ ?_⟩
    · grind
    · rw [hleft]
      grind
  | cons G gs =>
    have hside : G.side = .left := hgs G (by simp)
    have hxG : G.addr ≠ x := by
      simp only [around_cons] at hnodup
      grind
    simp only [hookBelow, deleteSplice_eq_adopt_vacate hxy hxG]
    have hrmem : m.child .right x ∈ around (G :: gs) := by
      rw [hright]
      exact root_plug_mem G gs _
    have hGmem : G.addr ∈ around (G :: gs) := by simp
    have hagree : ∀ z, z ≠ y → z ∉ s.inorder → z ∉ around (G :: gs) → m.AgreeAt (vacate m x y s.root G.addr) z := by
      intro z hzy hzs hzg
      exact vacate_agree hzy (by grind) (by grind) hzs
    obtain ⟨hcx, hpx, hchx⟩ := hagree x hxy (by grind) (by grind)
    have hrepr' := vacate_represents hrepr hright (by grind) hside
    have hrepl' : Represents (vacate m x y s.root G.addr) x l :=
      hrepl.congr fun z hz ↦ hagree z (by grind) (by grind) (by grind)
    have hright' : (vacate m x y s.root G.addr).child .right y = (plug (G :: gs) s).root := by
      simp only [vacate, TreeMem.setParent_child, TreeMem.setChild_child, and_self, ↓reduceIte, hright]
      exact root_plug_cons G gs _ _
    have hinorder : (l.inorder ++ y :: (plug (G :: gs) s).inorder).Nodup := by
      refine (List.Perm.nodup_iff (List.Perm.append_left _ (List.Perm.cons _
        (inorder_plug_perm (G :: gs) s)))).mpr ?_
      grind
    rw [← hcx, ← hpx]
    refine ⟨adopt_represents hy ((hchx _).trans hleft) hrepl' hl hright' hrepr' hinorder,
      fun z hz ↦ (hagree z (by grind) (by grind) (by grind)).trans (adopt_agree (by grind) ?_)⟩
    rw [hchx, hleft]
    grind

theorem adopt_setChild (m : TreeMem) (hx : p ≠ x) (hy : p ≠ y) :
    adopt (m.setChild d p v) x y = (adopt m x y).setChild d p v := by
  have hread : (m.setChild d p v).child .left x = m.child .left x := by simp [hx.symm]
  simp only [adopt, hread]
  change ((((m.setParent y (m.parent x)).setColor y (m.color x)).setChild d p v).setChild .left y
    (m.child .left x)).setParent (m.child .left x) y = _
  rw [TreeMem.setChild_comm _ hy]
  rfl

theorem vacate_setChild (m : TreeMem) {s : ℕ} (hx : p ≠ x) (hy : p ≠ y) (hf : p ≠ f) :
    vacate (m.setChild d p v) x y s f = (vacate m x y s f).setChild d p v := by
  have hread : (m.setChild d p v).child .right x = m.child .right x := by simp [hx.symm]
  have hreparent : reparent (m.setChild d p v) s f = (reparent m s f).setChild d p v := by
    unfold reparent
    split_ifs <;> rfl
  simp only [vacate, hread, hreparent]
  rw [TreeMem.setChild_comm _ hf, TreeMem.setChild_comm _ hy]
  rfl

theorem deleteSplice_setChild (m : TreeMem) {s : ℕ} (hx : p ≠ x) (hy : p ≠ y) (hf : p ≠ f) (hxy : x ≠ y) :
    deleteSplice (m.setChild d p v) x y s f = (deleteSplice m x y s f).setChild d p v := by
  by_cases hfx : f = x
  · subst hfx
    rw [deleteSplice_eq_adopt _ hxy, deleteSplice_eq_adopt _ hxy, adopt_setChild m hx hy]
  · rw [deleteSplice_eq_adopt_vacate hxy hfx, deleteSplice_eq_adopt_vacate hxy hfx,
      vacate_setChild m hx hy hf, adopt_setChild _ hx hy]

theorem replaceChild_deleteSplice {s : ℕ} (hpx : p ≠ x) (hpy : p ≠ y) (hpf : p ≠ f) (hxy : x ≠ y) :
    (⟨deleteSplice (replaceChild t p x y).mem x y s f, (replaceChild t p x y).root⟩ : Rbt) =
      replaceChild ⟨deleteSplice t.mem x y s f, t.root⟩ p x y := by
  have hread : (deleteSplice t.mem x y s f).child .left p = t.mem.child .left p := by
    by_cases hfx : f = x
    · subst hfx
      simp [deleteSplice_eq_adopt _ hxy, adopt, hpy]
    · simp [deleteSplice_eq_adopt_vacate hxy hfx, adopt, vacate, hpy, hpf]
  grind [replaceChild, deleteSplice_setChild]

theorem deleteTwo_run (h : Holds t (plug fs (.node l x c (plug gs (.node .nil y cy s)))))
    (hl : l ≠ .nil) (hgs : ∀ G ∈ gs, G.side = .left) : ∃ t₁, Holds t₁ (plug (gs ++ ⟨.right, y, c, l⟩ :: fs) s) ∧
      Frames t t₁ (plug fs (.node l x c (plug gs (.node .nil y cy s)))).inorder ∧
      deleteTwo t x y = if cy = .black then
        rbtDeleteColor t₁ s.root (hook (gs ++ ⟨.right, y, c, l⟩ :: fs)) else return t₁ := by
  have hnodup : ((l.inorder ++ x :: (y :: s.inorder ++ around gs)) ++ around fs).Nodup := by
    refine (List.Perm.nodup_iff (List.Perm.append_right _ ?_)).mp h.nodup_append
    exact List.Perm.append_left _ (List.Perm.cons _ (inorder_plug_perm gs _))
  have hmem : ∀ z, z ∈ (plug fs (.node l x c (plug gs (.node .nil y cy s)))).inorder ↔
      z ∈ l.inorder ++ x :: (y :: s.inorder ++ around gs) ∨ z ∈ around fs := by
    intro z
    simp [mem_plug]
    tauto
  obtain ⟨hcontext, hrep⟩ := h.represents
  obtain ⟨hrep', hagree⟩ := deleteSplice_represents hrep (List.nodup_append.mp hnodup).1 hl hgs
  obtain ⟨hx, hcx, hpx, -, -, -, hrepr⟩ := id hrep
  obtain ⟨hy, hcy, hpy, -, hry, -, -⟩ := hrepr.of_plug
  have hfmem : hookBelow x gs ∈ l.inorder ++ x :: (y :: s.inorder ++ around gs) := by cases gs <;> simp [hookBelow]
  have hinside : ∀ z ∈ l.inorder ++ x :: (y :: s.inorder ++ around gs), hook fs ≠ z := by
    grind [hook_eq_zero_or_mem, h.rep.ne_zero]
  have hxy : x ≠ y := by grind
  have hpx' : hook fs ≠ x := hinside x (by simp)
  have hpy' : hook fs ≠ y := hinside y (by simp)
  have hcontext' : RepresentsContext
      (deleteSplice t.mem x y s.root (hookBelow x gs)) fs x :=
    hcontext.congr fun z hz ↦ hagree z fun hz' ↦ (List.nodup_append.mp hnodup).2.2 z hz' z hz rfl
  have hroot : fs ≠ [] → t.root = (plug fs (.node l y c (plug gs s))).root := by
    intro hne
    rw [h.root_eq]
    cases fs with
    | nil => exact absurd rfl hne
    | cons F fs => exact root_plug_cons F fs _ _
  have hperm : (Library.Tree.node l y c (plug gs s)).inorder.Perm
      (l.inorder ++ (y :: s.inorder ++ around gs)) :=
    List.Perm.append_left _ (List.Perm.cons _ (inorder_plug_perm gs s))
  have hnodup' : ((Library.Tree.node l y c (plug gs s)).inorder ++ around fs).Nodup := by
    refine (List.Perm.nodup_iff (List.Perm.append_right _ hperm)).mpr ?_
    grind
  have hsub : (plug fs (.node l y c (plug gs s))).inorder ⊆
      (plug fs (.node l x c (plug gs (.node .nil y cy s)))).inorder := by
    intro z hz
    rw [mem_plug, hperm.mem_iff] at hz
    rw [hmem]
    grind
  obtain ⟨hholds, hframes⟩ := replaceChild_holds hcontext' hroot hrep' hnodup'
    (fun z hz ↦ h.word z (hsub hz)) hx fun hz ↦
      (List.nodup_append.mp hnodup).2.2 x (by simp) x hz rfl
  rw [root_node] at hholds hframes
  refine ⟨_, by simpa [plug_append, Frame.fill, join] using hholds, fun z hz ↦ ?_, ?_⟩
  · rw [hmem] at hz
    exact (hagree z (by tauto)).trans (hframes z (by tauto))
  · have hhook : (if hookBelow x gs = x then y else hookBelow x gs) =
        hook (gs ++ ⟨.right, y, c, l⟩ :: fs) := by
      cases gs with
      | nil => simp [hookBelow]
      | cons G gs =>
        have hGx : G.addr ≠ x := by
          simp only [around_cons] at hnodup
          grind
        simp [hookBelow, hGx]
    rw [deleteTwo, hpx]
    simp only [replaceChild_parent, replaceChild_color, replaceChild_child t x y .right hpy'.symm,
      hpy, hcy, hry, hhook,
      replaceChild_deleteSplice hpx' hpy' (hinside _ hfmem) hxy]

/-! ### `rbt_delete` -/

/-- The shapes before and after `rbt_delete` of a node `x`. -/
inductive DeleteShape (x : ℕ) : Tree → Tree → Prop
  | one (fs : List Frame) (d : Side) (c : Color) (s : Tree) :
    DeleteShape x (plug fs (join d x c .nil s)) (removeFix c fs s)
  | two (fs gs : List Frame) (c cy : Color) (y : ℕ) (l s : Tree) (hl : l ≠ .nil)
    (hgs : ∀ G ∈ gs, G.side = .left) :
    DeleteShape x (plug fs (.node l x c (plug gs (.node .nil y cy s))))
      (removeFix cy (gs ++ ⟨.right, y, c, l⟩ :: fs) s)

theorem plug_node_right (fs gs : List Frame) (x : ℕ) (c : Color) (l u : Tree) :
    plug fs (.node l x c (plug gs u)) = plug (gs ++ ⟨.right, x, c, l⟩ :: fs) u := by
  simp [plug_append, Frame.fill, join]

theorem DeleteShape.redBlack {T' : Tree} (h : DeleteShape x T T') (hT : RedBlack T) : RedBlack T' := by
  cases h with
  | one fs d c s => exact redBlack_removeFix hT
  | two fs gs c cy y l s hl hgs =>
    rw [plug_node_right] at hT
    exact redBlack_removeFix (d := .left) (redBlack_plug_addr hT)

theorem erase_middle {xs ys : List ℕ} (h : (xs ++ x :: ys).Nodup) : (xs ++ x :: ys).erase x = xs ++ ys := by
  have hx : x ∉ xs := by grind
  rw [erase_append_right _ hx, erase_cons_head]

theorem DeleteShape.inorder {T' : Tree} (h : DeleteShape x T T') (hnodup : T.inorder.Nodup) :
    T'.inorder = T.inorder.erase x := by
  cases h with
  | one fs d c s =>
    rw [inorder_removeFix]
    simp only [inorder_plug] at hnodup ⊢
    cases d with
    | left =>
      simp only [join, inorder_node, inorder_nil, nil_append, append_assoc, cons_append] at hnodup ⊢
      rw [erase_middle hnodup]
    | right =>
      simp only [join, inorder_node, inorder_nil, append_assoc, cons_append, nil_append] at hnodup ⊢
      rw [← append_assoc] at hnodup ⊢
      rw [← append_assoc, erase_middle hnodup]
  | two fs gs c cy y l s hl hgs =>
    rw [inorder_removeFix, ← plug_node_right]
    simp only [inorder_plug, inorder_node, before_eq_nil hgs, inorder_nil, nil_append,
      append_assoc, cons_append] at hnodup ⊢
    rw [← append_assoc] at hnodup ⊢
    rw [← append_assoc (before fs) l.inorder (x :: _), erase_middle hnodup]

theorem rbtDelete_shape (h : Holds t T) (hT : RedBlack T) (hx : x ∈ T.inorder) :
    ∃ t' T', rbtDelete t x = .ok t' ∧ DeleteShape x T T' ∧ Holds t' T' ∧ Frames t t' T.inorder := by
  obtain ⟨fs, l, c, r, rfl⟩ := exists_plug_of_mem hx
  obtain ⟨hx0, -, -, hleft, hright, hrepl, hrepr⟩ := h.represents.2
  by_cases hl : l = .nil
  · subst hl
    obtain ⟨t', hrun, hholds, hframes⟩ := deleteOne_holds (d := .left) h hT
    exact ⟨t', _, by simpa [rbtDelete, hleft, hright] using hrun, .one fs .left c r, hholds, hframes⟩
  have hl0 := hrepl.root_eq_zero_iff.not.mpr hl
  by_cases hr : r = .nil
  · subst hr
    obtain ⟨t', hrun, hholds, hframes⟩ := deleteOne_holds (d := .right) h hT
    exact ⟨t', _, by simpa [rbtDelete, hleft, hright, hl0] using hrun, .one fs .right c l, hholds,
      hframes⟩
  have hr0 := hrepr.root_eq_zero_iff.not.mpr hr
  have hfuel : r.size ≤ addressSpace := by
    have hsize := length_le_size_plug fs (.node l x c r)
    have hlt := h.size_lt
    rw [size_node] at hsize
    omega
  obtain ⟨gs, y, cy, s, rfl, hgs, hdescend⟩ := descend_eq (d := .left) hrepr hr hfuel
  obtain ⟨t₁, hholds₁, hframes₁, hrun⟩ := deleteTwo_run h hl hgs
  have hbefore := hT
  rw [join, plug_node_right] at hbefore
  obtain ⟨t', hrun', hmoves⟩ := deleteEnd_moves (d := .left) hholds₁ (redBlack_plug_addr hbefore)
  refine ⟨t', _, ?_, .two fs gs c cy y l s hl hgs, hmoves.holds, ?_⟩
  · rw [rbtDelete, hleft, hright, if_neg hl0, if_neg hr0, hdescend]
    exact hrun.trans hrun'
  · refine hframes₁.trans (hmoves.frames.mono fun z hz ↦ ?_)
    rw [← plug_node_right] at hz
    simp only [mem_plug, inorder_node, mem_append, mem_cons] at hz ⊢
    tauto

theorem rbtDelete_holds (h : Holds t T) (hT : RedBlack T) (hx : x ∈ T.inorder) :
    ∃ t' T', rbtDelete t x = .ok t' ∧ Holds t' T' ∧ RedBlack T' ∧
      T'.inorder = T.inorder.erase x ∧ Frames t t' T.inorder := by
  obtain ⟨t', T', hrun, hshape, hholds, hframes⟩ := rbtDelete_shape h hT hx
  exact ⟨t', T', hrun, hholds, hshape.redBlack hT, hshape.inorder h.nodup, hframes⟩

end Lanthorn.Rbt
