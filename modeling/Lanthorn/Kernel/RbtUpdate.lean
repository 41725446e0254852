import Lanthorn.Kernel.RbtSearch
import Lanthorn.Library.Summary

/-!
# The summaries of `lib/rbt.c`

`rbt_update` calls an update function on every node from a node to the root, and on their siblings.
`Updates` says what an update function does: it makes the summary of a node right for the summaries
of its children, and touches no other. `rbtUpdate_summed` is then the effect of `rbt_update` from a
repairable node: every summary is right.

`insertUpdate_summed` and `deleteUpdate_summed` say that `rbt_insert_update` after an insertion, and
`rbt_delete_update_begin` and `rbt_delete_update_end` around a deletion, start at such a node.
-/

namespace Lanthorn.Rbt

open Library Tree

section Update

variable {β : Type*} {R : β → ℕ → ℕ → ℕ → Prop} {m : TreeMem} {func : β → ℕ → β} {b : β}

def Words (t : Tree) : Prop := ∀ x ∈ t.inorder, x < addressSpace

theorem words_join {d : Side} {a : ℕ} {c : Color} {near far : Tree} :
    Words (join d a c near far) ↔ a < addressSpace ∧ Words near ∧ Words far := by
  simp only [Words, mem_inorder_join, or_imp, forall_and, forall_eq]

theorem words_node {l r : Tree} {a : ℕ} {c : Color} :
    Words (.node l a c r) ↔ a < addressSpace ∧ Words l ∧ Words r :=
  words_join (d := .left)

variable {t T : Tree} {x : ℕ}

theorem Words.root_lt (h : Words t) : t.root < addressSpace := by
  cases t with
  | nil => exact Nat.zero_lt_succ _
  | node l a c r => exact h a (by simp)

/-- The function makes the summary of a node right for its children in the memory and touches no
other summary. Nodes are words. -/
structure Updates (R : β → ℕ → ℕ → ℕ → Prop) (m : TreeMem) (func : β → ℕ → β) : Prop where
  sets : ∀ b x l r, m.child .left x = l → m.child .right x = r → x < addressSpace →
    l < addressSpace → r < addressSpace → l ≠ x → r ≠ x → R (func b x) x l r
  keeps : ∀ b x a l r, x < addressSpace → a < addressSpace → l < addressSpace →
    r < addressSpace → a ≠ x → l ≠ x → r ≠ x → R b a l r → R (func b x) a l r

section

variable (h : Updates R m func) (hx : x ∉ t.inorder) (hx0 : x ≠ 0) (hword : x < addressSpace)
  (hwords : Words t)
include h hx hx0 hword hwords

theorem Updates.keeps_summed (ht : Summed (R b) t) : Summed (R (func b x)) t := by
  induction t with
  | nil => trivial
  | node l a c r ihl ihr =>
    obtain ⟨ha, hl, hr⟩ := ht
    obtain ⟨hwa, hwl, hwr⟩ := words_node.mp hwords
    simp only [inorder_node, List.mem_append, List.mem_cons, not_or] at hx
    refine ⟨h.keeps b x a _ _ hword hwa hwl.root_lt hwr.root_lt (Ne.symm hx.2.1) ?_ ?_ ha,
      ihl hx.1 hwl hl, ihr hx.2.2 hwr hr⟩
    · exact (ne_root_of_not_mem hx0 hx.1).symm
    · exact (ne_root_of_not_mem hx0 hx.2.2).symm

theorem Updates.keeps_below (ht : SummedBelow (R b) t) : SummedBelow (R (func b x)) t := by
  cases t with
  | nil => trivial
  | node l a c r =>
    obtain ⟨-, hwl, hwr⟩ := words_node.mp hwords
    simp only [inorder_node, List.mem_append, List.mem_cons, not_or] at hx
    exact ⟨h.keeps_summed hx.1 hx0 hword hwl ht.1, h.keeps_summed hx.2.2 hx0 hword hwr ht.2⟩

end

theorem Updates.refresh (h : Updates R m func) {up : ℕ} (hrep : Represents m up t)
    (hnodup : t.inorder.Nodup) (hwords : Words t) (ht : t ≠ .nil) (hbelow : SummedBelow (R b) t) :
    Summed (R (func b t.root)) t := by
  cases t with
  | nil => exact absurd rfl ht
  | node l a c r =>
    obtain ⟨ha, -, -, hleft, hright, -, -⟩ := hrep
    obtain ⟨hwa, hwl, hwr⟩ := words_node.mp hwords
    have hl : a ∉ l.inorder := by grind [inorder_node]
    have hr : a ∉ r.inorder := by grind [inorder_node]
    have hlroot := (ne_root_of_not_mem ha hl).symm
    have hrroot := (ne_root_of_not_mem ha hr).symm
    exact ⟨h.sets b a _ _ hleft hright hwa hwl.root_lt hwr.root_lt hlroot hrroot,
      h.keeps_summed hl ha hwa hwl hbelow.1, h.keeps_summed hr ha hwa hwr hbelow.2⟩

/-- What `rbt_update` does to the sibling of a node below `f`. -/
def updateSibling (m : TreeMem) (func : β → ℕ → β) (node f : ℕ) (b : β) : β :=
  if node = m.child .left f ∧ m.child .right f ≠ 0 then func b (m.child .right f)
  else if m.child .left f ≠ 0 then func b (m.child .left f)
  else b

theorem updateLoop_of_parent {fuel node : ℕ} (hf : m.parent node ≠ 0) : updateLoop m func (fuel + 1) node b =
      updateLoop m func fuel (m.parent node) (updateSibling m func node (m.parent node) (func b node)) := by
  rw [updateLoop, if_neg hf]
  rfl

theorem updateSibling_spec (h : Updates R m func) {F : Frame} {up : ℕ}
    (hrep : Represents m up (F.fill t)) (hnodup : (F.fill t).inorder.Nodup)
    (hwords : Words (F.fill t)) (ht : t ≠ .nil) (hsummed : Summed (R b) t) (hF : SummedBelow (R b) F.sibling) :
    SummedBelow (R (updateSibling m func t.root F.addr b)) (F.fill t) ∧
      ∀ u, (∀ x ∈ u.inorder, x ∉ (F.fill t).inorder) → Words u → SummedBelow (R b) u →
        SummedBelow (R (updateSibling m func t.root F.addr b)) u := by
  obtain ⟨d, a, c, s⟩ := F
  obtain ⟨ha, -, -, hchild, hsibling, hrept, hreps⟩ := (represents_join ..).mp hrep
  obtain ⟨-, hwt, hws⟩ := words_join.mp hwords
  simp only at ha hchild hsibling hrept hreps hF hwt hws
  have hmem : ∀ x, x ∈ (Frame.fill ⟨d, a, c, s⟩ t).inorder ↔
      x = a ∨ x ∈ t.inorder ∨ x ∈ s.inorder := fun x ↦ mem_inorder_join
  have hperm := (inorder_join_perm d a c t s).nodup_iff.mp hnodup
  have hts : ∀ x ∈ t.inorder, x ∉ s.inorder := by grind
  have hroot0 : t.root ≠ 0 := hrept.root_eq_zero_iff.not.mpr ht
  have htroot : t.root ∈ t.inorder := mem_root ht
  simp only [Frame.fill, summedBelow_join]
  have hrefresh := h.refresh hrept (by grind) hwt ht hsummed.below
  by_cases hs : s = .nil
  · -- there is no sibling, and the node is done again or not
    subst hs
    have hvalue : updateSibling m func t.root a b = func b t.root ∨ updateSibling m func t.root a b = b := by
      cases d with
      | left => simp [updateSibling, hchild, show m.child .right a = 0 from hsibling, hroot0]
      | right => simp [updateSibling, hchild, show m.child .left a = 0 from hsibling, hroot0]
    rcases hvalue with hvalue | hvalue
    · rw [hvalue]
      refine ⟨⟨hrefresh, trivial⟩, fun u hu hwu ↦ h.keeps_below (fun hmem' ↦ ?_) hroot0 hwt.root_lt hwu⟩
      exact hu _ hmem' ((hmem _).mpr (Or.inr (Or.inl htroot)))
    · rw [hvalue]
      exact ⟨⟨hsummed, trivial⟩, fun u _ _ hbelow ↦ hbelow⟩
  · have hsroot0 : s.root ≠ 0 := hreps.root_eq_zero_iff.not.mpr hs
    have hsroot : s.root ∈ s.inorder := mem_root hs
    have hvalue : updateSibling m func t.root a b = func b s.root := by
      cases d with
      | left => simp [updateSibling, hchild, show m.child .right a = s.root from hsibling, hsroot0]
      | right =>
        have hne : t.root ≠ s.root := fun heq ↦ hts _ htroot (heq ▸ hsroot)
        simp [updateSibling, hchild, show m.child .left a = s.root from hsibling, hsroot0, hne]
    rw [hvalue]
    refine ⟨⟨h.keeps_summed (fun hmem' ↦ hts _ hmem' hsroot) hsroot0 hws.root_lt hwt hsummed,
      h.refresh hreps (by grind) hws hs hF⟩,
      fun u hu hwu ↦ h.keeps_below (fun hmem' ↦ ?_) hsroot0 hws.root_lt hwu⟩
    exact hu _ hmem' ((hmem _).mpr (Or.inr (Or.inr hsroot)))

theorem updateLoop_summed (h : Updates R m func) {fs : List Frame} {fuel : ℕ}
    (hrep : Represents m 0 (plug fs t)) (hnodup : (plug fs t).inorder.Nodup)
    (hwords : Words (plug fs t)) (ht : t ≠ .nil) (hbelow : SummedBelow (R b) t)
    (hfs : SiblingsBelow (R b) fs) (hfuel : fs.length < fuel) :
    ∃ b', updateLoop m func fuel t.root b = .ok b' ∧ Summed (R b') (plug fs t) := by
  induction fs generalizing t fuel b with
  | nil =>
    obtain ⟨fuel, rfl⟩ := exists_succ hfuel
    rw [plug_nil] at hrep hnodup hwords
    refine ⟨func b t.root, ?_, h.refresh hrep hnodup hwords ht hbelow⟩
    simp [updateLoop, hrep.parent_root ht, pure, Except.pure]
  | cons F fs ih =>
    obtain ⟨fuel, rfl⟩ := exists_succ hfuel
    obtain ⟨hcontext, hrept⟩ := (represents_plug _ _ _).mp hrep
    have hF0 : F.addr ≠ 0 := hcontext.1
    have hparent : m.parent t.root = F.addr := hrept.parent_root ht
    obtain ⟨-, hrepfill⟩ := (represents_plug m fs (F.fill t)).mp hrep
    have hfill : ((F.fill t).inorder ++ around fs).Nodup := nodup_plug.mp hnodup
    obtain ⟨hfill_nodup, -, hapart⟩ := List.nodup_append.mp hfill
    have hperm := (inorder_join_perm F.side F.addr F.color t F.sibling).nodup_iff.mp hfill_nodup
    have hroot0 : t.root ≠ 0 := hrept.root_eq_zero_iff.not.mpr ht
    have htroot : t.root ∈ t.inorder := mem_root ht
    have hroot_mem : t.root ∈ (F.fill t).inorder := mem_inorder_join.mpr (Or.inr (Or.inl htroot))
    have hwfill : Words (F.fill t) := fun x hx ↦ hwords x ((@mem_plug fs _ _).mpr (Or.inl hx))
    obtain ⟨-, hwt, hwF⟩ := words_join.mp hwfill
    have hwfs : ∀ G ∈ fs, Words G.sibling := fun G hG x hx ↦
      hwords x (mem_plug.mpr (Or.inr (mem_around_of_sibling (List.mem_cons_of_mem _ hG) hx)))
    -- the node itself, then its sibling, then the rest of the way
    have hsummed₁ := h.refresh (b := b) hrept (by grind) hwt ht hbelow
    have hF₁ := h.keeps_below (x := t.root) (by grind) hroot0 hwt.root_lt hwF (hfs F (by simp))
    have hfs₁ : SiblingsBelow (R (func b t.root)) fs := fun G hG ↦
      h.keeps_below (fun hmem ↦ hapart _ hroot_mem _ (mem_around_of_sibling hG hmem) rfl) hroot0
        hwt.root_lt (hwfs G hG) (hfs G (by simp [hG]))
    obtain ⟨hbelow₂, hkept⟩ := updateSibling_spec h hrepfill hfill_nodup hwfill ht hsummed₁ hF₁
    have hfs₂ : SiblingsBelow (R (updateSibling m func t.root F.addr (func b t.root))) fs :=
      fun G hG ↦ hkept _ (fun x hx hmem ↦ hapart x hmem x (mem_around_of_sibling hG hx) rfl)
        (hwfs G hG) (hfs₁ G hG)
    rw [updateLoop_of_parent (hparent ▸ hF0), hparent, plug_cons]
    have hrest := ih hrep hnodup hwords join_ne_nil hbelow₂ hfs₂
      (show fs.length < fuel by simpa using hfuel)
    rwa [Frame.fill, root_join] at hrest

theorem rbtUpdate_summed {t : Rbt} (h : Updates R t.mem func) (hT : Holds t T) (hx : Repairable (R b) x T) :
    ∃ b', rbtUpdate t.mem func x b = .ok b' ∧ Summed (R b') T := by
  obtain ⟨fs, u, rfl, rfl, hu, hbelow, hfs⟩ := hx.exists_plug
  exact updateLoop_summed h hT.rep hT.nodup hT.word hu hbelow hfs hT.length_lt

/-! ### Insertion -/

theorem insertUpdate_summed {t : Rbt} {fs : List Frame} (h : Updates R t.mem func)
    (hT : Holds t (paint .black (insertFix fs (.node .nil x .red .nil)))) (hfs : SiblingsSummed (R b) fs) :
    ∃ b', rbtInsertUpdate t.mem func x b = .ok b' ∧
      Summed (R b') (paint .black (insertFix fs (.node .nil x .red .nil))) := by
  obtain ⟨gs, l, c, r, heq, hgs, hleaf⟩ := paint_insertFix_plug (x := x) hfs .black
  rw [heq] at hT ⊢
  obtain ⟨-, -, -, -, hleft, hright, hl, hr⟩ := hT.represents
  rcases hleaf with ⟨rfl, rfl⟩ | ⟨hne, hbelow, hsibling⟩
  · have hstart : rbtInsertUpdate t.mem func x b = rbtUpdate t.mem func x b := by
      simp [rbtInsertUpdate, hleft, hright]
    rw [hstart]
    exact rbtUpdate_summed h hT (repairable_plug (.here c trivial trivial) hgs)
  · have hl0 := hl.root_eq_zero_iff.not.mpr hne
    have hstart : rbtInsertUpdate t.mem func x b = rbtUpdate t.mem func l.root b := by
      simp [rbtInsertUpdate, hleft, hl0]
    have hrepair : Repairable (R b) l.root (plug gs (.node l x c r)) := by
      refine repairable_plug (.up .left x c ?_ hsibling) hgs
      cases l with
      | nil => exact absurd rfl hne
      | node ll a ca lr => exact .here ca hbelow.1 hbelow.2
    rw [hstart]
    exact rbtUpdate_summed h hT hrepair

theorem insertBy_summed {t : Rbt} {cmp : ℕ → Ordering} {func : TreeMem → β → ℕ → β}
    (hfunc : ∀ m, Updates R m (func m)) (h : Holds t T) (hT : RedBlack T) (hsummed : Summed (R b) T)
    (hcmp : Guides cmp T.inorder) (hne : ∀ y ∈ T.inorder, cmp y ≠ .eq) (hx : x ≠ 0)
    (hword : x < addressSpace) (hfresh : x ∉ T.inorder) : ∃ t' T' xs ys b', insertBy t cmp x = .ok (some t') ∧
      rbtInsertUpdate t'.mem (func t'.mem) x b = .ok b' ∧ Holds t' T' ∧ RedBlack T' ∧
      Summed (R b') T' ∧ T.inorder = xs ++ ys ∧ T'.inorder = xs ++ x :: ys ∧
      (∀ y ∈ xs, cmp y = .gt) ∧ (∀ y ∈ ys, cmp y = .lt) ∧ Frames t t' (x :: T.inorder) := by
  obtain ⟨t', fs, hrun, rfl, hholds, hframes, hbefore, hafter⟩ :=
    insertBy_shape h hT hcmp hne hx hword hfresh
  obtain ⟨b', hupdate, hsummed'⟩ := insertUpdate_summed (hfunc t'.mem) hholds hsummed.of_plug.2
  grind [insertShape_spec]

/-! ### Deletion -/

theorem rbtDeleteUpdateBegin_eq {t : Rbt} {T' : Tree} (h : Holds t T) (hshape : DeleteShape x T T') :
    ∃ c fs s, T' = removeFix c fs s ∧ rbtDeleteUpdateBegin t.mem x = .ok (if s = .nil then hook fs else s.root) ∧
      ∀ R, Summed R T → Summed R s ∧ SiblingsSummed R fs := by
  cases hshape with
  | one fs d c s =>
    refine ⟨c, fs, s, rfl, ?_, fun R hR ↦ ?_⟩
    · obtain ⟨-, hrep⟩ := h.represents
      obtain ⟨-, -, hparent, hnear, hfar, -, hs⟩ := (represents_join ..).mp hrep
      rw [root_nil] at hnear
      by_cases hnil : s = .nil
      · subst hnil
        cases d <;> simp_all [rbtDeleteUpdateBegin, Side.flip]
      · have hs0 := hs.root_eq_zero_iff.not.mpr hnil
        cases d <;> simp_all [rbtDeleteUpdateBegin, Side.flip]
    · obtain ⟨hjoin, hfs⟩ := hR.of_plug
      exact ⟨(summed_join hjoin).2, hfs⟩
  | two fs gs c cy y l s hl hgs =>
    refine ⟨cy, gs ++ ⟨.right, y, c, l⟩ :: fs, s, rfl, ?_, fun R hR ↦ ?_⟩
    · obtain ⟨-, -, -, -, hleft, hright, hrepl, hrepr⟩ := h.represents
      have hl0 := hrepl.root_eq_zero_iff.not.mpr hl
      have hr0 : (plug gs (.node .nil y cy s)).root ≠ 0 := by
        rw [Ne, hrepr.root_eq_zero_iff]
        intro hnil
        have hmem : y ∈ (plug gs (.node .nil y cy s)).inorder := mem_plug.mpr (by simp)
        simp [hnil] at hmem
      have hinorder : (plug fs (.node l x c (plug gs (.node .nil y cy s)))).inorder =
          (before fs ++ l.inorder) ++ x :: (y :: (s.inorder ++ after gs ++ after fs)) := by
        simp [inorder_plug, before_eq_nil hgs]
      have hnext : rbtNext t.mem x = .ok y := rbtNext_eq h hinorder
      obtain ⟨-, -, hparent, -, hys, -, hs⟩ := hrepr.of_plug
      have hbegin : rbtDeleteUpdateBegin t.mem x = .ok (if s.root ≠ 0 then s.root
          else if hookBelow x gs ≠ x then hookBelow x gs else y) := by
        simp [rbtDeleteUpdateBegin, hleft, hright, hl0, hr0, hnext, hparent, hys]
      rw [hbegin]
      by_cases hnil : s = .nil
      · subst hnil
        cases gs with
        | nil => simp [hookBelow]
        | cons G gs =>
          have hGx : G.addr ≠ x := by
            have hnodup := h.nodup_append
            have hmem : G.addr ∈ (plug (G :: gs) (.node .nil y cy .nil)).inorder :=
              mem_plug.mpr (by simp)
            rintro rfl
            grind [inorder_node]
          simp [hookBelow, hGx]
      · have hs0 := hs.root_eq_zero_iff.not.mpr hnil
        simp [hnil, hs0]
    · obtain ⟨hnode, hfs⟩ := hR.of_plug
      obtain ⟨hs, hgs'⟩ := hnode.2.2.of_plug
      have hfs' : SiblingsSummed R (⟨.right, y, c, l⟩ :: fs) := by simpa [SiblingsSummed] using ⟨hnode.2.1, hfs⟩
      exact ⟨hs.2.2, SiblingsSummed.append hgs' hfs'⟩

theorem rbtDelete_summed {t : Rbt} {func : TreeMem → β → ℕ → β} (hfunc : ∀ m, Updates R m (func m))
    (h : Holds t T) (hT : RedBlack T) (hsummed : Summed (R b) T) (hx : x ∈ T.inorder) :
    ∃ start t' T' b', rbtDeleteUpdateBegin t.mem x = .ok start ∧ rbtDelete t x = .ok t' ∧
      rbtDeleteUpdateEnd t'.mem (func t'.mem) start b = .ok b' ∧ Holds t' T' ∧ RedBlack T' ∧
      Summed (R b') T' ∧ T'.inorder = T.inorder.erase x ∧ Frames t t' T.inorder := by
  obtain ⟨t', T', hrun, hshape, hholds, hframes⟩ := rbtDelete_shape h hT hx
  obtain ⟨c, fs, s, rfl, hbegin, hright⟩ := rbtDeleteUpdateBegin_eq h hshape
  obtain ⟨hs, hfs⟩ := hright _ hsummed
  have hrb := hshape.redBlack hT
  have hinorder := hshape.inorder h.nodup
  by_cases hlast : s = .nil ∧ fs = []
  · -- the last node has been taken out
    obtain ⟨rfl, rfl⟩ := hlast
    have hempty : removeFix c [] .nil = .nil := by cases c <;> rfl
    refine ⟨0, t', _, b, by simpa using hbegin, hrun, by simp [rbtDeleteUpdateEnd, pure, Except.pure],
      hholds, hrb, ?_, hinorder, hframes⟩
    rw [hempty]
    trivial
  · have hspoilt : SpoiltAt (R b) (if s = .nil then hook fs else s.root) fs s := by
      split_ifs with hnil
      · exact Or.inr ⟨hnil, fun hfs' ↦ hlast ⟨hnil, hfs'⟩, rfl⟩
      · cases s with
        | nil => exact absurd rfl hnil
        | node l a ca r => exact Or.inl (.here ca hs.2.1 hs.2.2)
    have hrepair := repairable_removeFix (c := c) hspoilt hfs
    obtain ⟨b', hupdate, hsummed'⟩ := rbtUpdate_summed (hfunc t'.mem) hholds hrepair
    obtain ⟨gs, u, heq, hroot, hu, -⟩ := hrepair.exists_plug
    have hstart : (if s = .nil then hook fs else s.root) ≠ 0 := by
      rw [← hroot]
      rw [heq] at hholds
      exact hholds.represents.2.root_eq_zero_iff.not.mpr hu
    grind [rbtDeleteUpdateEnd]

end Update

end Lanthorn.Rbt
