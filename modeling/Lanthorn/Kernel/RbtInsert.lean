import Lanthorn.Kernel.Rbt

/-!
# Rotations and `rbt_insert_color`

`Holds` relates a tree in memory to its shape: the root pointer is the root, the memory represents
the shape, and the addresses are distinct words. Each pointer operation is then one on shapes. A rotation
turns a node at any position (`rotate_moves`), painting changes one color (`setColor_moves`), and
`rb_link_node` puts a leaf into an empty position (`rbLinkNode_holds`). None of them writes outside
the tree.

`rbtInsertColor_moves` is the result: on a red-black tree with a new leaf linked at any empty
position, `rbt_insert_color` ends and leaves the shape `insertFix`, painted black at the root.
-/

namespace Lanthorn.Rbt

open Library Tree

/-- A tree in memory has a shape: its root pointer is the root, the memory represents the shape,
and the addresses are distinct words. -/
structure Holds (t : Rbt) (T : Tree) : Prop where
  root_eq : t.root = T.root
  rep : Represents t.mem 0 T
  nodup : T.inorder.Nodup
  word : ∀ x ∈ T.inorder, x < addressSpace

def Frames (t t' : Rbt) (xs : List ℕ) : Prop := ∀ z, z ∉ xs → t.mem.AgreeAt t'.mem z

theorem Frames.refl (t : Rbt) (xs : List ℕ) : Frames t t xs := fun _ _ ↦ .refl _ _

variable {t t' : Rbt} {T u : Tree} {m : TreeMem} {fs : List Frame} {F : Frame} {x y : ℕ} {d : Side}

theorem Frames.trans {t'' : Rbt} {xs : List ℕ} (h : Frames t t' xs) (h' : Frames t' t'' xs) :
    Frames t t'' xs := fun z hz ↦ (h z hz).trans (h' z hz)

theorem Frames.mono {xs ys : List ℕ} (h : Frames t t' xs) (hsub : xs ⊆ ys) :
    Frames t t' ys := fun z hz ↦ h z fun hx ↦ hz (hsub hx)

/-- An operation takes a tree of one shape to a tree of another with the same addresses in the same
order, and writes nowhere else. -/
structure Moves (t : Rbt) (T : Tree) (t' : Rbt) (T' : Tree) : Prop where
  holds : Holds t' T'
  inorder_eq : T'.inorder = T.inorder
  frames : Frames t t' T.inorder

theorem Moves.refl (h : Holds t T) : Moves t T t T :=
  ⟨h, rfl, .refl _ _⟩

theorem Moves.trans {t'' : Rbt} {T' T'' : Tree} (h : Moves t T t' T') (h' : Moves t' T' t'' T'') :
    Moves t T t'' T'' :=
  ⟨h'.holds, h'.inorder_eq.trans h.inorder_eq, h.frames.trans (h.inorder_eq ▸ h'.frames)⟩

theorem Holds.congr {m' : TreeMem} {root : ℕ} (h : Holds ⟨m, root⟩ T)
    (hagree : ∀ z ∈ T.inorder, m.AgreeAt m' z) : Holds ⟨m', root⟩ T :=
  ⟨h.root_eq, h.rep.congr hagree, h.nodup, h.word⟩

theorem Holds.represents (h : Holds t (plug fs u)) :
    RepresentsContext t.mem fs u.root ∧ Represents t.mem (hook fs) u :=
  (represents_plug _ _ _).mp h.rep

theorem Holds.nodup_append (h : Holds t (plug fs u)) : (u.inorder ++ around fs).Nodup := nodup_plug.mp h.nodup

/-! ### The pointer of the parent -/

theorem left_child_eq_iff (hcontext : RepresentsContext m (F :: fs) x) (hx : x ≠ F.sibling.root) :
    x = m.child .left F.addr ↔ F.side = .left := by
  obtain ⟨-, -, -, hnear, hfar, -, -⟩ := hcontext
  cases hside : F.side with
  | left => simpa [hside] using hnear.symm
  | right =>
    simp only [hside, Side.flip] at hfar
    simpa [hfar] using hx

@[simp] theorem replaceChild_color (t : Rbt) (f x y : ℕ) :
    (replaceChild t f x y).mem.color = t.mem.color := by
  unfold replaceChild
  split_ifs <;> rfl

@[simp] theorem replaceChild_parent (t : Rbt) (f x y : ℕ) :
    (replaceChild t f x y).mem.parent = t.mem.parent := by
  unfold replaceChild
  split_ifs <;> rfl

theorem replaceChild_child (t : Rbt) {f z : ℕ} (x y : ℕ) (d : Side) (hz : z ≠ f) :
    (replaceChild t f x y).mem.child d z = t.mem.child d z := by
  unfold replaceChild
  split_ifs <;> simp [hz]

/-- Pointing the parent, or the root pointer, at the root of another represented tree hangs that
tree at the position. Assumes: the surroundings of a position where the node `x` hangs, and a tree
represented below its innermost node, without common addresses. -/
theorem replaceChild_holds {root : ℕ} (hcontext : RepresentsContext m fs x)
    (hroot : fs ≠ [] → root = (plug fs u).root) (hu : Represents m (hook fs) u)
    (hnodup : (u.inorder ++ around fs).Nodup) (hword : ∀ z ∈ (plug fs u).inorder, z < addressSpace)
    (hx : x ≠ 0) (hxfs : x ∉ around fs) : Holds (replaceChild ⟨m, root⟩ (hook fs) x u.root) (plug fs u) ∧
      Frames ⟨m, root⟩ (replaceChild ⟨m, root⟩ (hook fs) x u.root) (around fs) := by
  cases fs with
  | nil =>
    simp only [replaceChild, hook_nil, ne_eq, not_true_eq_false, ↓reduceIte]
    exact ⟨⟨rfl, hu, by simpa using hnodup, hword⟩, fun z _ ↦ .refl _ _⟩
  | cons F fs =>
    have hF := hcontext.1
    have hxs : x ≠ F.sibling.root := ne_root_of_not_mem hx fun h ↦ hxfs (by simp [h])
    have hdisjoint : F.addr ∉ u.inorder := by
      intro h
      rw [List.nodup_append] at hnodup
      exact hnodup.2.2 _ h _ (by simp) rfl
    have hwrite : replaceChild ⟨m, root⟩ F.addr x u.root = ⟨m.setChild F.side F.addr u.root, root⟩ := by
      simp only [replaceChild, ne_eq, hF, not_false_eq_true, ↓reduceIte, left_child_eq_iff hcontext hxs]
      cases F.side <;> rfl
    simp only [hook_cons]
    rw [hwrite]
    have hagree : ∀ z, z ≠ F.addr → m.AgreeAt (m.setChild F.side F.addr u.root) z := by
      intro z hz
      exact ⟨rfl, rfl, fun d ↦ by simp [hz]⟩
    refine ⟨⟨hroot (by simp), ?_, nodup_plug.mpr hnodup, hword⟩, fun z hz ↦ hagree z fun h ↦ ?_⟩
    swap
    · exact hz (by simp [h])
    refine (represents_plug _ _ _).mpr ⟨?_, hu.congr fun z hz ↦ hagree z fun h ↦ hdisjoint (h ▸ hz)⟩
    exact hcontext.reattach (List.nodup_append.mp hnodup).2.1 (fun z _ hz ↦ hagree z hz) rfl rfl
      (by simp) (by simp)

/-! ### Rotations -/

def rotateMem (d : Side) (m : TreeMem) (x y inner f : ℕ) : TreeMem :=
  (((if inner ≠ 0 then (m.setChild d.flip x inner).setParent inner x
    else m.setChild d.flip x inner).setParent x y).setParent y f).setChild d y x

@[simp] theorem rotateMem_color (d : Side) (m : TreeMem) (x y inner f : ℕ) :
    (rotateMem d m x y inner f).color = m.color := by
  unfold rotateMem
  split_ifs <;> rfl

@[simp] theorem rotateMem_parent (d : Side) (m : TreeMem) (x y inner f z : ℕ) :
    (rotateMem d m x y inner f).parent z = if z = y then f else if z = x then y else if inner ≠ 0 ∧ z = inner then x
      else m.parent z := by
  unfold rotateMem
  by_cases hinner : inner = 0 <;> simp [hinner]

@[simp] theorem rotateMem_child (d : Side) (m : TreeMem) (x y inner f : ℕ) (e : Side) (z : ℕ) :
    (rotateMem d m x y inner f).child e z =
      if e = d ∧ z = y then x else if e = d.flip ∧ z = x then inner else m.child e z := by
  unfold rotateMem
  by_cases hinner : inner = 0 <;> simp [hinner]

theorem rotateMem_agree {inner f z : ℕ} (hx : z ≠ x) (hy : z ≠ y) (hinner : inner ≠ 0 → z ≠ inner) :
    m.AgreeAt (rotateMem d m x y inner f) z := by
  refine ⟨by simp, ?_, fun e ↦ by simp [hx, hy]⟩
  rw [rotateMem_parent, if_neg hy, if_neg hx, if_neg fun h ↦ hinner h.1 h.2]

theorem rotate_moves {cx cy : Color} {a b c : Tree} (h : Holds t (plug fs (join d x cx a (join d y cy b c)))) :
    ∃ t', rotate d t x = .ok t' ∧ Moves t (plug fs (join d x cx a (join d y cy b c)))
      t' (plug fs (join d y cy (join d x cx a b) c)) := by
  obtain ⟨hcontext, hrep⟩ := h.represents
  obtain ⟨hx, hcx, hpx, hchx, hcfx, ha, hrepy⟩ := (represents_join ..).mp hrep
  obtain ⟨hy, hcy, hpy, hchy, hcfy, hb, hc⟩ := (represents_join ..).mp hrepy
  have hnodup : (x :: (a.inorder ++ y :: (b.inorder ++ c.inorder)) ++ around fs).Nodup := by
    refine (List.Perm.nodup_iff (List.Perm.append_right _ ?_)).mp h.nodup_append
    grind [inorder_join_perm]
  have hrun : rotate d t x = .ok (replaceChild ⟨rotateMem d t.mem x y b.root (hook fs), t.root⟩ (hook fs) x y) := by
    simp [rotate, hcfx, hy, hchy, hpx, rotateMem]
  have hxy : x ≠ y := by grind
  have hagree : ∀ z, z ≠ x → z ≠ y → z ∉ b.inorder → t.mem.AgreeAt (rotateMem d t.mem x y b.root (hook fs)) z := by
    intro z hzx hzy hzb
    refine rotateMem_agree hzx hzy fun hb0 hzr ↦ hzb ?_
    exact hzr ▸ mem_root fun h ↦ hb0 (by rw [h]; rfl)
  have hxb : x ≠ b.root := ne_root_of_not_mem hx (by grind)
  have hyb : y ≠ b.root := ne_root_of_not_mem hy (by grind)
  have hcontext' : RepresentsContext (rotateMem d t.mem x y b.root (hook fs)) fs x := by
    rw [root_join] at hcontext
    refine hcontext.congr fun z hz ↦ hagree z ?_ ?_ ?_ <;> grind
  have ha' : Represents (rotateMem d t.mem x y b.root (hook fs)) x a := by
    refine ha.congr fun z hz ↦ hagree z ?_ ?_ ?_ <;> grind
  have hb' : Represents (rotateMem d t.mem x y b.root (hook fs)) x b := by
    refine hb.rehang (by grind) (fun z hz hzb ↦ rotateMem_agree ?_ ?_ fun _ ↦ hzb) (by simp) ?_ ?_
    · grind
    · grind
    · intro e
      simp [hxb.symm, hyb.symm]
    · intro hne
      have hzero : b.root ≠ 0 := fun h ↦ hne (hb.root_eq_zero_iff.mp h)
      simp [hzero, hxb.symm, hyb.symm]
  have hc' : Represents (rotateMem d t.mem x y b.root (hook fs)) y c := by
    refine hc.congr fun z hz ↦ hagree z ?_ ?_ ?_ <;> grind
  have hu : Represents (rotateMem d t.mem x y b.root (hook fs)) (hook fs)
      (join d y cy (join d x cx a b) c) := by
    rw [represents_join, represents_join]
    refine ⟨hy, by simp [hcy], by simp, by simp, by simp [hcfy, hxy.symm], ⟨hx, by simp [hcx],
      by simp [hxy], by simp [hchx, hxy], by simp, ha', hb'⟩, hc'⟩
  have hnodup' : ((join d y cy (join d x cx a b) c).inorder ++ around fs).Nodup := by
    rw [inorder_rotate d x y cx cy cx cy a b c]
    exact h.nodup_append
  have hroot : fs ≠ [] → t.root = (plug fs (join d y cy (join d x cx a b) c)).root := by
    intro hne
    rw [h.root_eq]
    cases fs with
    | nil => exact absurd rfl hne
    | cons F fs => exact root_plug_cons F fs _ _
  have hinorder := inorder_plug_congr fs (inorder_rotate d x y cx cy cx cy a b c)
  have hfinal := replaceChild_holds hcontext' hroot hu hnodup' (hinorder ▸ h.word) hx (by grind)
  rw [root_join] at hfinal
  refine ⟨_, hrun, hfinal.1, hinorder, fun z hz ↦ ?_⟩
  rw [mem_plug, mem_inorder_join, mem_inorder_join] at hz
  exact (hagree z (by tauto) (by tauto) (by tauto)).trans (hfinal.2 z (by tauto))

theorem rotate_flip_moves {cx cy : Color} {a b c : Tree} (h : Holds t (plug fs (join d x cx (join d y cy c b) a))) :
    ∃ t', rotate d.flip t x = .ok t' ∧ Moves t (plug fs (join d x cx (join d y cy c b) a))
      t' (plug fs (join d y cy c (join d x cx b a))) := by
  have h' : Holds t (plug fs (join d.flip x cx a (join d.flip y cy b c))) := by rwa [join_flip, join_flip]
  have hrotate := rotate_moves h'
  rwa [join_flip, join_flip, join_flip, join_flip] at hrotate

/-! ### Painting -/

theorem setColor_moves (c : Color) (h : Holds t (plug fs u)) (hu : u ≠ .nil) :
    Moves t (plug fs u) (t.setColor u.root c) (plug fs (paint c u)) := by
  obtain ⟨hcontext, hrep⟩ := h.represents
  have hnodup := h.nodup_append
  have hagree : ∀ z, z ≠ u.root → t.mem.AgreeAt (t.mem.setColor u.root c) z := by
    intro z hz
    exact ⟨by simp [hz], rfl, fun _ ↦ rfl⟩
  have hroot_mem := mem_root hu
  have hinorder := inorder_plug_congr fs (inorder_paint c u)
  refine ⟨⟨?_, ?_, hinorder ▸ h.nodup, hinorder ▸ h.word⟩, hinorder,
    fun z hz ↦ hagree z fun h' ↦ hz (h' ▸ mem_plug.mpr (Or.inl hroot_mem))⟩
  · change t.root = _
    rw [h.root_eq]
    cases fs with
    | nil => exact (root_paint c u).symm
    | cons F fs => exact root_plug_cons F fs _ _
  · refine (represents_plug _ _ _).mpr ⟨?_, ?_⟩
    · rw [root_paint]
      refine hcontext.congr fun z hz ↦ hagree z fun h' ↦ ?_
      exact (List.nodup_append.mp hnodup).2.2 _ hroot_mem _ hz h'.symm
    · cases u with
      | nil => exact absurd rfl hu
      | node l a c' r =>
        obtain ⟨ha, -, hp, hl, hr, hrl, hrr⟩ := hrep
        have hn : (l.inorder ++ a :: r.inorder).Nodup := (List.nodup_append.mp hnodup).1
        refine ⟨ha, by simp [setColor], hp, hl, hr, hrl.congr fun z hz ↦ hagree z ?_,
          hrr.congr fun z hz ↦ hagree z ?_⟩
        · simp only [root_node]
          grind
        · simp only [root_node]
          grind

@[simp] theorem setColor_root (t : Rbt) (x : ℕ) (c : Color) : (t.setColor x c).root = t.root := rfl

/-! ### Linking a new leaf -/

theorem rbLinkNode_holds (h : Holds t (plug fs .nil)) (hx : x ≠ 0) (hxword : x < addressSpace)
    (hfresh : x ∉ (plug fs .nil).inorder) : Holds (t.rbLinkNode x (hook fs) (innerSide fs))
      (plug fs (.node .nil x (t.mem.color x) .nil)) ∧ Frames t (t.rbLinkNode x (hook fs) (innerSide fs))
        (plug fs (.node .nil x (t.mem.color x) .nil)).inorder := by
  obtain ⟨hcontext, -⟩ := h.represents
  have haround : x ∉ around fs := fun hmem ↦ hfresh (mem_plug.mpr (Or.inr hmem))
  have hnodup : (around fs).Nodup := by simpa using h.nodup_append
  have hnodup' : ((Library.Tree.node .nil x (t.mem.color x) .nil).inorder ++ around fs).Nodup := by
    simpa using ⟨haround, hnodup⟩
  have hword : ∀ z ∈ (plug fs (.node .nil x (t.mem.color x) .nil)).inorder, z < addressSpace := by
    intro z hz
    rw [mem_plug] at hz
    rcases hz with hz | hz
    · obtain rfl : z = x := by simpa using hz
      exact hxword
    · exact h.word z (mem_plug.mpr (Or.inr hz))
  cases fs with
  | nil =>
    refine ⟨⟨by simp [rbLinkNode], ?_, by simp, hword⟩, fun z hz ↦ ?_⟩
    · exact ⟨hx, by simp [rbLinkNode], by simp [rbLinkNode], by simp [rbLinkNode],
        by simp [rbLinkNode], trivial, trivial⟩
    · have hzx : z ≠ x := by simpa using hz
      exact ⟨by simp [rbLinkNode], by simp [rbLinkNode, hzx], fun d ↦ by simp [rbLinkNode, hzx]⟩
  | cons F fs =>
    have hF := hcontext.1
    have hxF : x ≠ F.addr := fun h' ↦ haround (by simp [h'])
    simp only [rbLinkNode, hook_cons, hF, ↓reduceIte, innerSide]
    have hagree : ∀ z, z ≠ x → z ≠ F.addr → t.mem.AgreeAt
        ((((t.mem.setParent x F.addr).setChild .right x 0).setChild .left x 0).setChild F.side F.addr x) z := by
      intro z hzx hzF
      exact ⟨rfl, by simp [hzx], fun d ↦ by simp [hzx, hzF]⟩
    refine ⟨⟨?_, (represents_plug _ _ _).mpr ⟨?_, ?_⟩, nodup_plug.mpr hnodup', hword⟩, fun z hz ↦ ?_⟩
    · rw [h.root_eq]
      exact root_plug_cons F fs _ _
    · refine hcontext.reattach hnodup (fun z hz hzF ↦ hagree z (fun h' ↦ haround (h' ▸ hz)) hzF)
        rfl ?_ (by simp) ?_
      · simp [hxF.symm]
      · simp [hxF.symm]
    · refine ⟨hx, rfl, by simp, ?_, ?_, trivial, trivial⟩
      · simp [hxF]
      · simp [hxF]
    · rw [mem_plug] at hz
      refine hagree z (fun h' ↦ hz (Or.inl (by simp [h']))) fun h' ↦ hz (Or.inr (by simp [h']))

/-! ### The loop of `rbt_insert_color` -/

theorem Moves.paint {t₀ : Rbt} {T₀ : Tree} (h : Moves t₀ T₀ t T) (c : Color) (fs : List Frame)
    (hT : T = plug fs u) (hx : x = u.root) (hu : u ≠ .nil) :
    Moves t₀ T₀ (t.setColor x c) (plug fs (paint c u)) := by
  subst hT hx
  exact h.trans (setColor_moves c h.holds hu)

theorem Holds.color_parent (F : Frame) (fs : List Frame) (h : Holds t (plug (F :: fs) u)) (hu : u ≠ .nil) :
    t.mem.color (t.mem.parent u.root) = F.color := by
  obtain ⟨hcontext, hrep⟩ := h.represents
  rw [hrep.parent_root hu]
  exact hcontext.2.1

theorem insertColorRotate_moves {G : Frame} (h : Holds t (plug (F :: G :: fs) u)) (hu : u ≠ .nil)
    (hF : F.color = .red) : ∃ t' node', insertColorRotate G.side t u.root F.addr G.addr = .ok (t', node') ∧
      Moves t (plug (F :: G :: fs) u) t' (plug fs (insertRotate F G u)) ∧
      t'.mem.color (t'.mem.parent node') = .black := by
  obtain ⟨d, a, c, s⟩ := F
  obtain ⟨e, b, c', v⟩ := G
  obtain rfl : c = .red := hF
  obtain ⟨⟨-, -, -, hna, hfa, -, -⟩, hrep⟩ := h.represents
  have hu0 : u.root ≠ 0 := fun h' ↦ hu (hrep.root_eq_zero_iff.mp h')
  have hnodup := h.nodup_append
  have hmoves := Moves.refl h
  simp only at hna hfa
  by_cases hside : d = e
  · -- the node and its parent hang on one side: one rotation
    subst hside
    have hne : t.mem.child d.flip a ≠ u.root := by
      rw [hfa]
      refine (ne_root_of_not_mem hu0 fun h' ↦ ?_).symm
      exact (List.nodup_append.mp hnodup).2.2 _ (mem_root hu) _ (by simp [h']) rfl
    have h₁ := hmoves.paint .black (⟨d, b, c', v⟩ :: fs) (x := a) rfl (root_join ..).symm
      join_ne_nil
    have h₂ := h₁.paint .red fs (x := b) rfl (root_join ..).symm join_ne_nil
    simp only [Frame.fill, paint_join] at h₂
    obtain ⟨t₃, hrun, h₃⟩ := rotate_flip_moves h₂.holds
    refine ⟨t₃, u.root, ?_, ?_, ?_⟩
    · simp [insertColorRotate, hne, hrun]
    · simpa [insertRotate] using h₂.trans h₃
    · exact Holds.color_parent ⟨d, a, .black, join d b .red s v⟩ fs h₃.holds hu
  · -- the node hangs on the inner side: it is rotated above its parent first
    obtain rfl := side_eq_flip_of_ne hside
    rw [Side.flip_flip] at hfa
    have hu' := join_child e hu
    have hT : plug (⟨e.flip, a, .red, s⟩ :: ⟨e, b, c', v⟩ :: fs) u = plug (⟨e, b, c', v⟩ :: fs) (join e a .red s
          (join e u.root u.color (u.child e) (u.child e.flip))) := by rw [hu', plug_cons, Frame.fill, join_flip]
    rw [hT] at h hmoves
    obtain ⟨t₁, hrun₁, h₁⟩ := rotate_moves h
    have h₂ := (hmoves.trans h₁).paint .black (⟨e, b, c', v⟩ :: fs) (x := u.root) rfl
      (root_join ..).symm join_ne_nil
    have h₃ := h₂.paint .red fs (x := b) rfl (root_join ..).symm join_ne_nil
    simp only [Frame.fill, paint_join] at h₃
    obtain ⟨t₄, hrun₄, h₄⟩ := rotate_flip_moves h₃.holds
    refine ⟨t₄, a, ?_, ?_, ?_⟩
    · simp [insertColorRotate, hna, hrun₁, hrun₄]
    · rw [hT]
      simpa [insertRotate, hside] using h₃.trans h₄
    · have hcolor := Holds.color_parent
        ⟨e, u.root, .black, join e b .red (u.child e.flip) v⟩ fs
        (u := join e a .red s (u.child e)) h₄.holds join_ne_nil
      rwa [root_join] at hcolor

theorem red_iff_of_represents {up : ℕ} {t : Tree} (h : Represents m up t) :
    (t.root ≠ 0 ∧ m.color t.root = .red) ↔ t.color = .red := by
  cases t with
  | nil => simp
  | node l a c r => simp [h.1, h.2.1]

theorem insertColorLoop_succ {G : Frame} (fuel : ℕ) (h : Holds t (plug (F :: G :: fs) u))
    (hu : u ≠ .nil) (hF : F.color = .red) : insertColorLoop (fuel + 1) t u.root = if G.sibling.color = .red then
        insertColorLoop fuel
          (((t.setColor G.sibling.root .black).setColor F.addr .black).setColor G.addr .red) G.addr
      else insertColorRotate G.side t u.root F.addr G.addr >>= fun p ↦
        insertColorLoop fuel p.1 p.2 := by
  obtain ⟨hcontext, hrep⟩ := h.represents
  obtain ⟨hF0, hFc, hFp, -, -, -, hcontextG⟩ := hcontext
  obtain ⟨hG0, -, -, -, hGfar, hsibling, -⟩ := id hcontextG
  have hparent := hrep.parent_root hu
  simp only [hook_cons] at hparent hFp
  have hnodup := h.nodup_append
  have hside := left_child_eq_iff hcontextG (ne_root_of_not_mem hF0 (by
    rw [List.nodup_append, around_cons, List.cons_append, List.nodup_cons] at hnodup
    exact fun hmem ↦ hnodup.2.1.1 (by simp [hmem])))
  have hd : (if F.addr = t.mem.child .left G.addr then Side.left else .right) = G.side := by
    simp only [hside]
    cases G.side <;> simp
  grind [insertColorLoop, red_iff_of_represents]

theorem insertColorLoop_moves {n fuel : ℕ} (h : Holds t (plug fs u)) (hu : u.color = .red)
    (hfs : ContextBalanced fs n) (hfuel : fs.length < fuel) :
    ∃ t', insertColorLoop fuel t u.root = .ok t' ∧ Moves t (plug fs u) t' (insertFix fs u) := by
  -- induction along the climb; a round ends it, climbs two nodes, or rotates and ends it
  induction fs, u using insertFix.induct generalizing t n fuel with
  | case1 u =>
    obtain ⟨fuel, rfl⟩ := exists_succ hfuel
    have hparent : t.mem.parent u.root = 0 := h.represents.2.parent_root (ne_nil_of_red hu)
    exact ⟨t, by simp [insertColorLoop, hparent], .refl h⟩
  | case2 F u =>
    obtain ⟨fuel, rfl⟩ := exists_succ hfuel
    have hcolor := Holds.color_parent _ _ h (ne_nil_of_red hu)
    have hblack : F.color = .black :=
      color_eq_black_of_ne_red fun hred ↦ (hfs.2.1 hred).2.2 rfl
    exact ⟨t, by simp [insertColorLoop, hcolor, hblack], .refl h⟩
  | case3 F G fs u hblack =>
    obtain ⟨fuel, rfl⟩ := exists_succ hfuel
    have hcolor := Holds.color_parent _ _ h (ne_nil_of_red hu)
    refine ⟨t, by simp [insertColorLoop, hcolor, hblack], ?_⟩
    rw [insertFix, if_pos hblack]
    exact .refl h
  | case4 F G fs u hF huncle ih =>
    have hred := color_eq_red_of_ne_black hF
    obtain ⟨fuel, rfl⟩ := exists_succ hfuel
    rw [insertColorLoop_succ fuel h (ne_nil_of_red hu) hred, if_pos huncle, insertFix, if_neg hF, if_pos huncle]
    obtain ⟨-, hFcond, hG⟩ := hfs
    have hGblack : G.color = .black := (hFcond hred).2.1
    have hpaint : plug (F :: G :: fs) u = plug (⟨G.side.flip, G.addr, G.color, F.fill u⟩ :: fs) G.sibling := by
      simp [Frame.fill, join_flip]
    have h₁ := (Moves.refl h).paint .black _ hpaint rfl (ne_nil_of_red huncle)
    have h₂ := h₁.paint .black (⟨G.side, G.addr, G.color, paint .black G.sibling⟩ :: fs)
      (x := F.addr) (u := F.fill u) (by simp [Frame.fill, join_flip]) (root_join ..).symm
      join_ne_nil
    have h₃ := h₂.paint .red fs (x := G.addr) rfl (root_join ..).symm join_ne_nil
    simp only [Frame.fill, paint_join] at h₃
    have hrest : ContextBalanced fs (n + 1) := by simpa [hred, hGblack, ContextBalanced] using hG.2.2
    have hfuel' : fs.length < fuel := by
      simp only [List.length_cons] at hfuel
      omega
    obtain ⟨t', hrun, hmoves⟩ := ih h₃.holds (color_join ..) hrest hfuel'
    rw [root_join] at hrun
    exact ⟨t', hrun, h₃.trans hmoves⟩
  | case5 F G fs u hF huncle =>
    have hred := color_eq_red_of_ne_black hF
    obtain ⟨fuel, rfl⟩ : ∃ k, fuel = k + 2 :=
      ⟨fuel - 2, by simp only [List.length_cons] at hfuel; omega⟩
    obtain ⟨t', node', hrun, hmoves, hblack⟩ :=
      insertColorRotate_moves h (ne_nil_of_red hu) hred
    rw [insertColorLoop_succ (fuel + 1) h (ne_nil_of_red hu) hred, if_neg huncle, hrun, insertFix,
      if_neg hF, if_neg huncle]
    exact ⟨t', by simp [insertColorLoop, hblack], hmoves⟩

theorem Holds.size_lt (h : Holds t T) : T.size < addressSpace := by
  have hnodup : (0 :: T.inorder).Nodup :=
    List.nodup_cons.mpr ⟨fun hz ↦ h.rep.ne_zero hz rfl, h.nodup⟩
  have hword : ∀ x ∈ 0 :: T.inorder, x < addressSpace := by
    intro x hx
    rcases List.mem_cons.mp hx with rfl | hx
    · simp [addressSpace]
    · exact h.word x hx
  have hlength := length_le_of_nodup hnodup hword
  rw [List.length_cons, length_inorder] at hlength
  omega

theorem Holds.length_lt (h : Holds t (plug fs u)) : fs.length < addressSpace := by
  have hsize := length_le_size_plug fs u
  have hlt := h.size_lt
  omega

theorem rbtInsertColor_moves {c : Color} (h : Holds t (plug fs (.node .nil x c .nil)))
    (hfs : ContextBalanced fs 0) : ∃ t', rbtInsertColor t x = .ok t' ∧ Moves t (plug fs (.node .nil x c .nil)) t'
      (paint .black (insertFix fs (.node .nil x .red .nil))) := by
  have h₁ := (Moves.refl h).paint .red _ (x := x) rfl rfl (by simp)
  obtain ⟨t₂, hrun, h₂⟩ := insertColorLoop_moves h₁.holds rfl hfs h₁.holds.length_lt
  have hne : insertFix fs (.node .nil x .red .nil) ≠ .nil := by
    intro hnil
    have hinorder := inorder_insertFix fs (t := .node .nil x .red .nil) (by simp)
    rw [hnil, inorder_plug] at hinorder
    simp at hinorder
  have h₃ := (h₁.trans h₂).paint .black [] rfl h₂.holds.root_eq hne
  refine ⟨_, ?_, h₃⟩
  simp only [rbtInsertColor, pure_eq]
  exact congrArg (Except.map _) hrun

end Lanthorn.Rbt
