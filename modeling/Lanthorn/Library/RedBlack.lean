import Lanthorn.Library.AddressTree

/-!
# Red-black trees by positions

The colors of a tree are balanced when no red node has a red child and all ways down from the root meet the same
number of black nodes (`Balanced`). A position is balanced for a number of black nodes when a tree with that many
fits there (`ContextBalanced`), and `redBlack_plug_iff` says that a filled position is a red-black tree exactly
when its two parts are balanced and fit.

`insertFix` and `deleteFix` are the two repairs of bottom-up red-black trees, climbing from a position to the root.
`insertFix` starts from a red tree whose parent may be red, `deleteFix` from a tree that is one black node short.
Both keep the addresses in order (`inorder_insertFix`, `inorder_deleteFix`) and end in a red-black tree
(`redBlack_insertFix`, `redBlack_deleteFix`).
-/

namespace Lanthorn.Library

namespace Tree

/-- The subtree on a side, empty for the empty tree. -/
def child (d : Side) : Tree → Tree
  | nil => nil
  | node l _ _ r => match d with
    | .left => l
    | .right => r

@[simp] theorem child_join (d : Side) (a : ℕ) (c : Color) (near far : Tree) :
    (join d a c near far).child d = near := by cases d <;> rfl

@[simp] theorem child_flip_join (d : Side) (a : ℕ) (c : Color) (near far : Tree) :
    (join d a c near far).child d.flip = far := by cases d <;> rfl

@[simp] theorem child_nil (d : Side) : nil.child d = nil := rfl

theorem join_child (d : Side) {t : Tree} (ht : t ≠ nil) :
    join d t.root t.color (t.child d) (t.child d.flip) = t := by
  cases t with
  | nil => exact absurd rfl ht
  | node l a c r => cases d <;> rfl

theorem paint_eq_join (d : Side) (c : Color) {t : Tree} (ht : t ≠ nil) :
    paint c t = join d t.root c (t.child d) (t.child d.flip) := by
  cases t with
  | nil => exact absurd rfl ht
  | node l a c' r => cases d <;> rfl

end Tree

open Library.Tree

/-- No red node has a red child, and every way down meets `n` black nodes. -/
def Balanced : Tree → ℕ → Prop
  | .nil, n => n = 0
  | .node l _ .red r, n => l.color = .black ∧ r.color = .black ∧ Balanced l n ∧ Balanced r n
  | .node l _ .black r, n => ∃ k, n = k + 1 ∧ Balanced l k ∧ Balanced r k

/-- A red-black tree: balanced, with a black root. -/
def RedBlack (t : Tree) : Prop := t.color = .black ∧ ∃ n, Balanced t n

@[simp] theorem balanced_nil (n : ℕ) : Balanced .nil n ↔ n = 0 := Iff.rfl

variable {d : Side} {a n x : ℕ} {t s : Tree} {fs : List Frame} {c : Color}

theorem balanced_join_red {near far : Tree} : Balanced (join d a .red near far) n ↔
      near.color = .black ∧ far.color = .black ∧ Balanced near n ∧ Balanced far n := by
  cases d with
  | left => exact Iff.rfl
  | right =>
    simp only [join, Balanced]
    tauto

theorem balanced_join_black {near far : Tree} :
    Balanced (join d a .black near far) (n + 1) ↔ Balanced near n ∧ Balanced far n := by
  cases d with
  | left => simp [join, Balanced]
  | right => simp [join, Balanced, and_comm]

theorem Balanced.of_black (ht : Balanced t (n + 1)) (hc : t.color = .black) (d : Side) :
    t ≠ .nil ∧ Balanced (t.child d) n ∧ Balanced (t.child d.flip) n := by
  have hne : t ≠ .nil := by
    rintro rfl
    simp at ht
  refine ⟨hne, ?_⟩
  rw [← join_child d hne, hc, balanced_join_black] at ht
  exact ht

theorem Balanced.of_red (ht : Balanced t n) (hc : t.color = .red) (d : Side) :
    ((t.child d).color = .black ∧ (t.child d.flip).color = .black) ∧
      Balanced (t.child d) n ∧ Balanced (t.child d.flip) n := by
  rw [← join_child d (ne_nil_of_red hc), hc, balanced_join_red] at ht
  exact ⟨⟨ht.1, ht.2.1⟩, ht.2.2⟩

theorem Balanced.paint_black (ht : Balanced t n) : ∃ k, Balanced (paint .black t) k := by
  cases t with
  | nil => exact ⟨n, ht⟩
  | node l a c r =>
    cases c with
    | red => exact ⟨n + 1, n, rfl, ht.2.2⟩
    | black => exact ⟨n, ht⟩

theorem Balanced.paint_black_of_red (ht : Balanced t n) (hc : t.color = .red) :
    Balanced (paint .black t) (n + 1) := by
  rw [← join_child .left (ne_nil_of_red hc), paint_join, balanced_join_black]
  exact (ht.of_red hc .left).2

theorem Balanced.paint_red (ht : Balanced t (n + 1)) (hc : t.color = .black)
    (hnear : (t.child d).color = .black) (hfar : (t.child d.flip).color = .black) : Balanced (paint .red t) n := by
  obtain ⟨hne, hn, hf⟩ := ht.of_black hc d
  rw [← join_child d hne, paint_join, balanced_join_red]
  exact ⟨hnear, hfar, hn, hf⟩

theorem color_paint (c : Color) (ht : t ≠ .nil) : (paint c t).color = c := by
  cases t with
  | nil => exact absurd rfl ht
  | node l a c' r => rfl

theorem paint_black_of_black (hc : t.color = .black) : paint .black t = t := by rw [← hc, paint_color]

/-! ### Balanced positions -/

/-- The color of the innermost frame, black at the root. -/
def hookColor : List Frame → Color
  | [] => .black
  | F :: _ => F.color

@[simp] theorem hookColor_nil : hookColor [] = .black := rfl
@[simp] theorem hookColor_cons (F : Frame) (fs : List Frame) : hookColor (F :: fs) = F.color := rfl

/-- A position at which a tree with `n` black nodes on every way down fits. -/
def ContextBalanced : List Frame → ℕ → Prop
  | [], _ => True
  | F :: fs, n => Balanced F.sibling n ∧
      (F.color = .red → F.sibling.color = .black ∧ hookColor fs = .black ∧ fs ≠ []) ∧
      ContextBalanced fs (if F.color = .black then n + 1 else n)

theorem redBlack_plug_iff (fs : List Frame) (t : Tree) :
    RedBlack (plug fs t) ↔ ∃ n, Balanced t n ∧ ContextBalanced fs n ∧
      (hookColor fs = .red → t.color = .black) ∧ (fs = [] → t.color = .black) := by
  induction fs generalizing t with
  | nil => simp [RedBlack, ContextBalanced, and_comm]
  | cons F fs ih =>
    rw [plug_cons, ih]
    obtain ⟨d, a, c, s⟩ := F
    simp only [Frame.fill, color_join, ContextBalanced, hookColor_cons, reduceCtorEq, false_implies, and_true]
    cases c with
    | red =>
      simp only [balanced_join_red, reduceCtorEq, ↓reduceIte, imp_false, forall_const]
      constructor
      · rintro ⟨n, ⟨ht, hs, hbt, hbs⟩, hfs, hhook, hne⟩
        have hblack : hookColor fs = .black := by
          cases h : hookColor fs with
          | red => exact absurd h hhook
          | black => rfl
        exact ⟨n, hbt, ⟨hbs, ⟨hs, hblack, hne⟩, hfs⟩, ht⟩
      grind
    | black =>
      simp only [implies_true, and_true, reduceCtorEq, false_implies, ↓reduceIte, true_and]
      constructor
      · rintro ⟨n, hb, hfs⟩
        cases n with
        | zero => cases d <;> simp [join, Balanced] at hb
        | succ n =>
          rw [balanced_join_black] at hb
          exact ⟨n, hb.1, hb.2, hfs⟩
      grind [balanced_join_black]

theorem redBlack_paint_plug (ht : Balanced t n) (hfs : ContextBalanced fs n)
    (hhook : hookColor fs = .red → t.color = .black) : RedBlack (paint .black (plug fs t)) := by
  cases fs with
  | nil =>
    refine ⟨?_, ht.paint_black⟩
    cases t <;> rfl
  | cons F fs =>
    have h := (redBlack_plug_iff (F :: fs) t).mpr ⟨n, ht, hfs, hhook, by simp⟩
    rwa [paint_black_of_black h.1]

/-! ### The repair after an insertion -/

/-- The one or two rotations that end the repair after an insertion. -/
def insertRotate (F G : Frame) (t : Tree) : Tree :=
  if F.side = G.side then
    join G.side F.addr .black t (join G.side G.addr .red F.sibling G.sibling)
  else
    join G.side t.root .black
      (join G.side F.addr .red F.sibling (t.child G.side))
      (join G.side G.addr .red (t.child G.side.flip) G.sibling)

/-- The repair after an insertion: climb while the parent and the uncle are red. -/
def insertFix : List Frame → Tree → Tree
  | [], t => t
  | [F], t => plug [F] t
  | F :: G :: fs, t =>
    if F.color = .black then plug (F :: G :: fs) t
    else if G.sibling.color = .red then
      insertFix fs (join G.side G.addr .red (join F.side F.addr .black t F.sibling) (paint .black G.sibling))
    else plug fs (insertRotate F G t)

theorem side_eq_flip_of_ne {e : Side} (h : d ≠ e) : d = e.flip := by cases d <;> cases e <;> simp_all [Side.flip]

theorem inorder_insertRotate (F G : Frame) (ht : t ≠ .nil) :
    (insertRotate F G t).inorder = (G.fill (F.fill t)).inorder := by
  obtain ⟨d, a, c, s⟩ := F
  obtain ⟨e, b, c', u⟩ := G
  cases t with
  | nil => exact absurd rfl ht
  | node l x ct r => cases d <;> cases e <;> simp [insertRotate, Frame.fill, join, Tree.child,
      Side.flip]

theorem inorder_insertFix (fs : List Frame) (ht : t ≠ .nil) : (insertFix fs t).inorder = (plug fs t).inorder := by
  induction fs, t using insertFix.induct with
  | case1 t => rfl
  | case2 F t => rfl
  | case3 F G fs t hblack => simp [insertFix, hblack]
  | case4 F G fs t hred huncle ih =>
    rw [insertFix, if_neg hred, if_pos huncle, ih join_ne_nil, plug_cons, plug_cons]
    refine inorder_plug_congr fs ?_
    obtain ⟨d, a, c, s⟩ := F
    obtain ⟨e, b, c', u⟩ := G
    cases d <;> cases e <;> simp [Frame.fill, join]
  | case5 F G fs t hred huncle => grind [insertFix, plug_cons, inorder_plug_congr, inorder_insertRotate]

theorem color_eq_red_of_ne_black (h : c ≠ .black) : c = .red := by cases c <;> simp_all

theorem color_eq_black_of_ne_red (h : c ≠ .red) : c = .black := by cases c <;> simp_all

theorem balanced_insertRotate {F G : Frame} (ht : Balanced t n) (hred : t.color = .red)
    (hF : Balanced F.sibling n) (hFc : F.sibling.color = .black) (hG : Balanced G.sibling n)
    (hGc : G.sibling.color = .black) :
    Balanced (insertRotate F G t) (n + 1) ∧ (insertRotate F G t).color = .black := by
  unfold insertRotate
  obtain ⟨⟨hnc, hfc⟩, hnear, hfar⟩ := ht.of_red hred G.side
  split_ifs with hside
  · exact ⟨balanced_join_black.mpr ⟨ht, balanced_join_red.mpr ⟨hFc, hGc, hF, hG⟩⟩, color_join ..⟩
  · exact ⟨balanced_join_black.mpr ⟨balanced_join_red.mpr ⟨hFc, hnc, hF, hnear⟩,
      balanced_join_red.mpr ⟨hfc, hGc, hfar, hG⟩⟩, color_join ..⟩

theorem redBlack_insertFix (ht : Balanced t n) (hred : t.color = .red) (hfs : ContextBalanced fs n) :
    RedBlack (paint .black (insertFix fs t)) := by
  induction fs, t using insertFix.induct generalizing n with
  | case1 t => exact redBlack_paint_plug ht hfs (by simp)
  | case2 F t =>
    refine redBlack_paint_plug ht hfs fun h ↦ ?_
    exact absurd rfl (hfs.2.1 h).2.2
  | case3 F G fs t hblack =>
    rw [insertFix, if_pos hblack]
    exact redBlack_paint_plug ht hfs (by simp [hblack])
  | case4 F G fs t hF huncle ih =>
    rw [insertFix, if_neg hF, if_pos huncle]
    have hFred := color_eq_red_of_ne_black hF
    obtain ⟨hbF, hFcond, hrest⟩ := hfs
    obtain ⟨hFc, hGblack, -⟩ := hFcond hFred
    simp only [hFred, reduceCtorEq, ↓reduceIte] at hrest
    obtain ⟨hbG, -, hup⟩ := hrest
    simp only [hookColor_cons] at hGblack
    simp only [hGblack, ↓reduceIte] at hup
    refine ih (n := n + 1) (balanced_join_red.mpr ⟨color_join .., ?_, ?_, ?_⟩) (color_join ..) hup
    · exact color_paint _ (ne_nil_of_red huncle)
    · exact balanced_join_black.mpr ⟨ht, hbF⟩
    · exact hbG.paint_black_of_red huncle
  | case5 F G fs t hF huncle =>
    rw [insertFix, if_neg hF, if_neg huncle]
    have hFred := color_eq_red_of_ne_black hF
    obtain ⟨hbF, hFcond, hrest⟩ := hfs
    obtain ⟨hFc, hGblack, -⟩ := hFcond hFred
    simp only [hFred, reduceCtorEq, ↓reduceIte] at hrest
    obtain ⟨hbG, -, hup⟩ := hrest
    simp only [hookColor_cons] at hGblack
    simp only [hGblack, ↓reduceIte] at hup
    obtain ⟨hb, hc⟩ := balanced_insertRotate ht hred hbF hFc hbG (color_eq_black_of_ne_red huncle)
    exact redBlack_paint_plug hb hup fun _ ↦ hc

/-! ### The repair after a deletion -/

/-- The one or two rotations that end the repair after a deletion: the sibling `s` of the short
tree has a red child. -/
def deleteRotate (d : Side) (a : ℕ) (c : Color) (t s : Tree) : Tree :=
  if (s.child d.flip).color = .black then
    join d (s.child d).root c (join d a .black t ((s.child d).child d))
      (join d s.root .black ((s.child d).child d.flip) (s.child d.flip))
  else
    join d s.root c (join d a .black t (s.child d)) (paint .black (s.child d.flip))

def ChildrenBlack (d : Side) (s : Tree) : Prop :=
  (s.child d).color = .black ∧ (s.child d.flip).color = .black

instance (d : Side) (s : Tree) : Decidable (ChildrenBlack d s) := inferInstanceAs (Decidable (_ ∧ _))

/-- The frame of a red sibling after one rotation has put it above the position. -/
def Frame.lifted (F : Frame) : Frame :=
  ⟨F.side, F.sibling.root, .black, F.sibling.child F.side.flip⟩

/-- The repair after a deletion: climb while the sibling and its children are black. -/
def deleteFix : List Frame → Tree → Tree
  | [], t => paint .black t
  | F :: fs, t =>
    if t.color = .red then plug (F :: fs) (paint .black t)
    else if F.sibling.color = .red then
      -- one rotation makes the sibling's near child, which is black, the new sibling
      if ChildrenBlack F.side (F.sibling.child F.side) then
        plug (F.lifted :: fs)
          (join F.side F.addr .black t (paint .red (F.sibling.child F.side)))
      else
        paint .black (plug (F.lifted :: fs) (deleteRotate F.side F.addr .red t (F.sibling.child F.side)))
    else if ChildrenBlack F.side F.sibling then
      deleteFix fs (join F.side F.addr F.color t (paint .red F.sibling))
    else paint .black (plug fs (deleteRotate F.side F.addr F.color t F.sibling))

theorem ne_nil_of_not_childrenBlack (h : ¬ ChildrenBlack d s) : s ≠ .nil := by
  rintro rfl
  exact h ⟨rfl, rfl⟩

theorem inorder_deleteRotate (d : Side) (a : ℕ) (c c' : Color) (t : Tree) (hs : ¬ ChildrenBlack d s) :
    (deleteRotate d a c t s).inorder = (join d a c' t s).inorder := by
  have hne := ne_nil_of_not_childrenBlack hs
  conv_rhs => rw [← join_child d hne]
  unfold deleteRotate
  split_ifs with hfar
  · have hnear : s.child d ≠ .nil := by
      intro h
      exact hs ⟨by rw [h]; rfl, hfar⟩
    conv_rhs => rw [← join_child d hnear]
    cases d <;> simp [join]
  · cases d <;> simp [join]

theorem inorder_deleteFix (fs : List Frame) (t : Tree) : (deleteFix fs t).inorder = (plug fs t).inorder := by
  induction fs, t using deleteFix.induct with
  | case1 t => simp [deleteFix]
  | case2 F fs t hred =>
    rw [deleteFix, if_pos hred]
    exact inorder_plug_congr _ (inorder_paint _ _)
  | case3 F fs t hblack hsred hchildren =>
    rw [deleteFix, if_neg hblack, if_pos hsred, if_pos hchildren, plug_cons, plug_cons]
    refine inorder_plug_congr fs ?_
    have hs := join_child F.side (ne_nil_of_red hsred)
    simp only [Frame.fill, Frame.lifted]
    conv_rhs => rw [← hs]
    obtain ⟨d, a, c, s⟩ := F
    cases d <;> simp [join]
  | case4 F fs t hblack hsred hchildren =>
    rw [deleteFix, if_neg hblack, if_pos hsred, if_neg hchildren, inorder_paint, plug_cons, plug_cons]
    refine inorder_plug_congr fs ?_
    have hs := join_child F.side (ne_nil_of_red hsred)
    have hrotate := inorder_deleteRotate F.side F.addr .red .red t hchildren
    simp only [Frame.fill, Frame.lifted]
    conv_rhs => rw [← hs]
    clear hs
    obtain ⟨d, a, c, s⟩ := F
    cases d <;> simp_all [join]
  | case5 F fs t hblack hsblack hchildren ih =>
    rw [deleteFix, if_neg hblack, if_neg hsblack, if_pos hchildren, ih, plug_cons]
    refine inorder_plug_congr fs ?_
    obtain ⟨d, a, c, s⟩ := F
    cases d <;> simp [Frame.fill, join]
  | case6 F fs t hblack hsblack hchildren =>
    rw [deleteFix, if_neg hblack, if_neg hsblack, if_neg hchildren, inorder_paint, plug_cons]
    exact inorder_plug_congr fs (inorder_deleteRotate F.side F.addr F.color F.color t hchildren)

/-- A tree that is one black node short of `n + 1`, or red and repaired by painting it black. -/
def Short (t : Tree) (n : ℕ) : Prop :=
  (t.color = .red ∧ Balanced (paint .black t) (n + 1)) ∨ (t.color = .black ∧ Balanced t n)

theorem balanced_deleteRotate (ht : Balanced t n) (hs : Balanced s (n + 1)) (hsc : s.color = .black)
    (hchildren : ¬ ChildrenBlack d s) : Balanced (deleteRotate d a c t s) (if c = .black then n + 2 else n + 1) ∧
      (deleteRotate d a c t s).color = c := by
  obtain ⟨-, hnear, hfar⟩ := hs.of_black hsc d
  have hjoin : ∀ {x : ℕ} {u v : Tree}, Balanced u (n + 1) → Balanced v (n + 1) →
      u.color = .black → v.color = .black →
      Balanced (join d x c u v) (if c = .black then n + 2 else n + 1) := by
    intro x u v hu hv huc hvc
    cases c with
    | red => exact balanced_join_red.mpr ⟨huc, hvc, hu, hv⟩
    | black => exact balanced_join_black.mpr ⟨hu, hv⟩
  unfold deleteRotate
  by_cases hfarc : (s.child d.flip).color = .black
  · have hnred : (s.child d).color = .red :=
      color_eq_red_of_ne_black fun h ↦ hchildren ⟨h, hfarc⟩
    grind [hnear.of_red, balanced_join_black, color_join]
  · have hfred := color_eq_red_of_ne_black hfarc
    rw [if_neg hfarc]
    exact ⟨hjoin (balanced_join_black.mpr ⟨ht, hnear⟩) (hfar.paint_black_of_red hfred)
      (color_join ..) (color_paint _ (ne_nil_of_red hfred)), color_join ..⟩

theorem Short.balanced (ht : Short t n) (hblack : t.color ≠ .red) : Balanced t n := by
  rcases ht with ⟨h, -⟩ | ⟨-, h⟩
  · exact absurd h hblack
  · exact h

theorem Short.climb {F : Frame} (ht : Short t n) (hblack : t.color ≠ .red)
    (hfs : ContextBalanced (F :: fs) (n + 1)) (hsblack : F.sibling.color ≠ .red)
    (hchildren : ChildrenBlack F.side F.sibling) :
    ∃ k, Short (join F.side F.addr F.color t (paint .red F.sibling)) k ∧ ContextBalanced fs (k + 1) := by
  have htb := ht.balanced hblack
  obtain ⟨hbs, -, hup⟩ := hfs
  have hpaint := hbs.paint_red (color_eq_black_of_ne_red hsblack) hchildren.1 hchildren.2
  cases hF : F.color with
  | red =>
    simp only [hF, reduceCtorEq, ↓reduceIte] at hup
    refine ⟨n, Or.inl ⟨color_join .., ?_⟩, hup⟩
    rw [paint_join]
    exact balanced_join_black.mpr ⟨htb, hpaint⟩
  | black =>
    simp only [hF, ↓reduceIte] at hup
    exact ⟨n + 1, Or.inr ⟨color_join .., balanced_join_black.mpr ⟨htb, hpaint⟩⟩, hup⟩

theorem redBlack_deleteFix (ht : Short t n) (hfs : ContextBalanced fs (n + 1)) : RedBlack (deleteFix fs t) := by
  induction fs, t using deleteFix.induct generalizing n with
  | case1 t =>
    have hb : ∃ k, Balanced (paint .black t) k := by
      rcases ht with ⟨-, h⟩ | ⟨-, h⟩
      · exact ⟨_, h⟩
      · exact h.paint_black
    exact ⟨by cases t <;> rfl, hb⟩
  | case2 F fs t hred =>
    rw [deleteFix, if_pos hred]
    obtain ⟨-, hb⟩ | ⟨hblack, -⟩ := ht
    · refine (redBlack_plug_iff _ _).mpr ⟨n + 1, hb, hfs, fun _ ↦ ?_, by simp⟩
      exact color_paint _ (ne_nil_of_red hred)
    · rw [hred] at hblack
      cases hblack
  | case3 F fs t hblack hsred hchildren =>
    rw [deleteFix, if_neg hblack, if_pos hsred, if_pos hchildren]
    have htb := ht.balanced hblack
    obtain ⟨hbs, hFcond, hup⟩ := hfs
    have hFblack : F.color = .black := color_eq_black_of_ne_red fun h ↦ by
      rw [hsred] at hFcond
      exact absurd (hFcond h).1 (by simp)
    obtain ⟨⟨hnc, hfc⟩, hnear, hfar⟩ := hbs.of_red hsred F.side
    have hbody : Balanced (join F.side F.addr .black t (paint .red (F.sibling.child F.side)))
        (n + 1) :=
      balanced_join_black.mpr ⟨htb, hnear.paint_red hnc hchildren.1 hchildren.2⟩
    refine (redBlack_plug_iff _ _).mpr ⟨n + 1, hbody, ⟨hfar, by simp [Frame.lifted], ?_⟩, ?_,
      by simp⟩
    · simpa [Frame.lifted, hFblack] using hup
    · simp [Frame.lifted]
  | case4 F fs t hblack hsred hchildren =>
    rw [deleteFix, if_neg hblack, if_pos hsred, if_neg hchildren]
    have htb := ht.balanced hblack
    obtain ⟨hbs, hFcond, hup⟩ := hfs
    have hFblack : F.color = .black := color_eq_black_of_ne_red fun h ↦ by
      rw [hsred] at hFcond
      exact absurd (hFcond h).1 (by simp)
    obtain ⟨⟨hnc, hfc⟩, hnear, hfar⟩ := hbs.of_red hsred F.side
    have hbody := (balanced_deleteRotate (a := F.addr) (c := .red) htb hnear hnc hchildren).1
    refine redBlack_paint_plug hbody ⟨hfar, by simp [Frame.lifted], ?_⟩ (by simp [Frame.lifted])
    simpa [Frame.lifted, hFblack] using hup
  | case5 F fs t hblack hsblack hchildren ih =>
    rw [deleteFix, if_neg hblack, if_neg hsblack, if_pos hchildren]
    obtain ⟨k, hshort, hup⟩ := ht.climb hblack hfs hsblack hchildren
    exact ih hshort hup
  | case6 F fs t hblack hsblack hchildren =>
    rw [deleteFix, if_neg hblack, if_neg hsblack, if_neg hchildren]
    have htb := ht.balanced hblack
    obtain ⟨hbs, hFcond, hup⟩ := hfs
    obtain ⟨hbody, hcolor⟩ := balanced_deleteRotate (a := F.addr) (c := F.color) htb hbs
      (color_eq_black_of_ne_red hsblack) hchildren
    refine redBlack_paint_plug hbody hup fun hhook ↦ ?_
    rw [hcolor]
    refine color_eq_black_of_ne_red fun hF ↦ ?_
    rw [(hFcond hF).2.1] at hhook
    cases hhook

/-! ### Taking out a node with an empty subtree -/

/-- Take out a node of color `c` at a position and leave its only subtree there. -/
def removeFix (c : Color) (fs : List Frame) (s : Tree) : Tree :=
  if c = .black then deleteFix fs s else plug fs s

theorem inorder_removeFix (c : Color) (fs : List Frame) (s : Tree) :
    (removeFix c fs s).inorder = (plug fs s).inorder := by
  unfold removeFix
  split_ifs
  · exact inorder_deleteFix fs s
  · rfl

theorem Balanced.short (ht : Balanced t n) : Short t n := by
  cases hc : t.color with
  | red => exact Or.inl ⟨hc, ht.paint_black_of_red hc⟩
  | black => exact Or.inr ⟨hc, ht⟩

theorem exists_short_of_redBlack (h : RedBlack (plug fs (join d x .black .nil s))) :
    ∃ n, Short s n ∧ ContextBalanced fs (n + 1) := by
  obtain ⟨n, hb, hfs, -⟩ := (redBlack_plug_iff _ _).mp h
  cases n with
  | zero => cases d <;> simp [join, Balanced] at hb
  | succ n => exact ⟨n, (balanced_join_black.mp hb).2.short, hfs⟩

theorem redBlack_removeFix (h : RedBlack (plug fs (join d x c .nil s))) : RedBlack (removeFix c fs s) := by
  cases c with
  | black =>
    obtain ⟨n, hshort, hfs⟩ := exists_short_of_redBlack h
    exact redBlack_deleteFix hshort hfs
  | red =>
    obtain ⟨n, hb, hfs, -⟩ := (redBlack_plug_iff _ _).mp h
    obtain ⟨-, hs, -, hbs⟩ := balanced_join_red.mp hb
    exact (redBlack_plug_iff _ _).mpr ⟨n, hbs, hfs, fun _ ↦ hs, fun _ ↦ hs⟩

theorem contextBalanced_addr {gs : List Frame} {y : ℕ} (h : ContextBalanced (gs ++ ⟨d, x, c, s⟩ :: fs) n) :
    ContextBalanced (gs ++ ⟨d, y, c, s⟩ :: fs) n := by
  induction gs generalizing n with
  | nil => exact h
  | cons G gs ih =>
    obtain ⟨hG, hred, hrest⟩ := h
    refine ⟨hG, fun hc ↦ ⟨(hred hc).1, ?_, by simp⟩, ih hrest⟩
    cases gs with
    | nil => exact (hred hc).2.1
    | cons G' gs => exact (hred hc).2.1

theorem redBlack_plug_addr {gs : List Frame} {y : ℕ} (h : RedBlack (plug (gs ++ ⟨d, x, c, s⟩ :: fs) t)) :
    RedBlack (plug (gs ++ ⟨d, y, c, s⟩ :: fs) t) := by
  obtain ⟨n, ht, hcontext, hhook, -⟩ := (redBlack_plug_iff _ _).mp h
  refine (redBlack_plug_iff _ _).mpr ⟨n, ht, contextBalanced_addr hcontext, ?_, by simp⟩
  cases gs with
  | nil => exact hhook
  | cons G gs => exact hhook

end Lanthorn.Library
