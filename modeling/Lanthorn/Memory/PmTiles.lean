import Lanthorn.Memory.Pm

/-!
# Blocks and their buddies

`Tiles` is the invariant of the blocks behind a set of descriptors in use: every block has the size of its order, a
block that is half of another is paired with its buddy below a split block (`Paired`), no split block has other
children, and the blocks that are not split are disjoint and cover a given set of addresses. Of the state of a
block it looks only at whether the block is split, so moving a block between a free list and its user keeps it
(`Tiles.congr`).

`Tiles.add`, `Tiles.divide` and `Tiles.merge` are the three ways in which the allocator changes blocks.
-/

namespace Lanthorn

open Function

def BudPos.flip : BudPos → BudPos
  | .nobud => .nobud
  | .left => .right
  | .right => .left

theorem BudPos.flip_ne {pos : BudPos} (h : pos ≠ .nobud) : pos.flip ≠ pos := by
  cases pos with
  | nobud => exact absurd rfl h
  | left => simp [BudPos.flip]
  | right => simp [BudPos.flip]

namespace PageAlct

def Within (s : PageAlct) (p a : ℕ) : Prop := s.addr p ≤ a ∧ a < s.addr p + s.size p

structure Paired (s : PageAlct) (used : ℕ → Prop) (p : ℕ) : Prop where
  used_b : used (s.b p)
  b_b : s.b (s.b p) = p
  pos_b : s.pos (s.b p) = (s.pos p).flip
  f_b : s.f (s.b p) = s.f p
  used_f : used (s.f p)
  virt_f : s.state (s.f p) = .virt
  order_f : s.order (s.f p) = s.order p + 1
  order_b : s.order (s.b p) = s.order p
  addr_left : s.pos p = .left → s.addr p = s.addr (s.f p) ∧ s.addr (s.b p) = s.addr p + s.size p
  addr_right : s.pos p = .right → s.addr (s.b p) = s.addr (s.f p) ∧ s.addr p = s.addr (s.b p) + s.size p

/-- The blocks of the descriptors in use, and the addresses they cover. -/
structure Tiles (s : PageAlct) (used covered : ℕ → Prop) : Prop where
  order_lt : ∀ p, used p → s.order p < nrBuddyOrder
  size_eq : ∀ p, used p → s.size p = pageSize * 2 ^ s.order p
  aligned : ∀ p, used p → s.addr p % pageSize = 0
  bound : ∀ p, used p → s.addr p + s.size p ≤ addressSpace
  paired : ∀ p, used p → s.pos p ≠ .nobud → s.Paired used p
  only : ∀ p q, used p → used q → s.pos p ≠ .nobud → s.pos q ≠ .nobud → s.f q = s.f p → q = p ∨ q = s.b p
  disjoint : ∀ p q, used p → used q → s.state p ≠ .virt → s.state q ≠ .virt → p ≠ q →
    s.addr p + s.size p ≤ s.addr q ∨ s.addr q + s.size q ≤ s.addr p
  cover : ∀ a, covered a ↔ ∃ p, used p ∧ s.state p ≠ .virt ∧ s.Within p a

variable {s s' : PageAlct} {used covered : ℕ → Prop}

theorem blockSize_pos (order : ℕ) : 0 < pageSize * 2 ^ order :=
  Nat.mul_pos (by decide) (Nat.two_pow_pos order)

theorem Tiles.size_pos (h : s.Tiles used covered) {p : ℕ} (hp : used p) : 0 < s.size p := by
  rw [h.size_eq p hp]
  exact blockSize_pos _

/-- Memories that agree on the blocks in use, up to which state an undivided block has. -/
structure SameBlocks (s s' : PageAlct) (used : ℕ → Prop) : Prop where
  addr : ∀ p, used p → s'.addr p = s.addr p
  size : ∀ p, used p → s'.size p = s.size p
  order : ∀ p, used p → s'.order p = s.order p
  f : ∀ p, used p → s'.f p = s.f p
  b : ∀ p, used p → s'.b p = s.b p
  pos : ∀ p, used p → s'.pos p = s.pos p
  virt : ∀ p, used p → (s'.state p = .virt ↔ s.state p = .virt)

theorem Tiles.congr (h : s.Tiles used covered) (hsame : s.SameBlocks s' used) : s'.Tiles used covered := by
  obtain ⟨horder, hsize, haligned, hbound, hpaired, honly, hdisjoint, hcover⟩ := h
  obtain ⟨haddr', hsize', horder', hf', hb', hpos', hvirt'⟩ := hsame
  constructor
  case paired =>
    intro p hp hpos
    obtain ⟨h1, h2, h3, h4, h5, h6, h7, h8, h9, h10⟩ := hpaired p hp (hpos' p hp ▸ hpos)
    constructor <;> grind
  case cover =>
    grind [Within]
  all_goals grind

theorem Tiles.add (h : s.Tiles used covered) {page : ℕ}
    (hsame : s.SameBlocks s' used) (horder : s'.order page < nrBuddyOrder)
    (hsize : s'.size page = pageSize * 2 ^ s'.order page) (haligned : s'.addr page % pageSize = 0)
    (hbound : s'.addr page + s'.size page ≤ addressSpace) (hpos : s'.pos page = .nobud)
    (hstate : s'.state page ≠ .virt) (hnew : ∀ a, s'.Within page a → ¬ covered a) :
    s'.Tiles (fun p ↦ used p ∨ p = page) (fun a ↦ covered a ∨ s'.Within page a) := by
  have h' := h.congr hsame
  have happart : ∀ p, used p → s'.state p ≠ .virt →
      s'.addr p + s'.size p ≤ s'.addr page ∨ s'.addr page + s'.size page ≤ s'.addr p := by
    intro p hp hvirt
    by_contra hcon
    have hpos := h'.size_pos hp
    have hpos' : 0 < s'.size page := hsize ▸ blockSize_pos _
    -- the greater of the two starts lies in both blocks
    refine hnew (max (s'.addr p) (s'.addr page)) ⟨by omega, by omega⟩ ?_
    exact (h'.cover _).mpr ⟨p, hp, hvirt, by omega, by omega⟩
  obtain ⟨horder', hsize', haligned', hbound', hpaired', honly', hdisjoint', hcover'⟩ := h'
  constructor
  case paired =>
    rintro p (hp | rfl) hppos
    · obtain ⟨h1, h2, h3, h4, h5, h6, h7, h8, h9, h10⟩ := hpaired' p hp hppos
      exact ⟨Or.inl h1, h2, h3, h4, Or.inl h5, h6, h7, h8, h9, h10⟩
    · exact absurd hpos hppos
  all_goals grind

section Divide

variable {f l r : ℕ}

section

variable (horder : s.order f ≠ 0)
include horder

theorem dividePage_ok : (s.dividePage f l r).1 = .ok := by simp [dividePage, horder]

theorem dividePage_addr (x : ℕ) : (s.dividePage f l r).2.addr x =
      if x = r then wordAdd (s.addr f) (s.size f / 2) else if x = l then s.addr f else s.addr x := by
  simp [dividePage, horder, setState, update_apply]

theorem dividePage_size (x : ℕ) : (s.dividePage f l r).2.size x =
      if x = l ∨ x = r then s.size f / 2 else s.size x := by
  simp only [dividePage, horder, setState, update_apply]
  grind

theorem dividePage_order (x : ℕ) : (s.dividePage f l r).2.order x =
      if x = l ∨ x = r then s.order f - 1 else s.order x := by
  simp only [dividePage, horder, setState, update_apply]
  grind

theorem dividePage_f (x : ℕ) : (s.dividePage f l r).2.f x = if x = l ∨ x = r then f else s.f x := by
  simp only [dividePage, horder, setState, update_apply]
  grind

theorem dividePage_b (x : ℕ) : (s.dividePage f l r).2.b x = if x = r then l else if x = l then r else s.b x := by
  simp [dividePage, horder, setState, update_apply]

theorem dividePage_pos (x : ℕ) :
    (s.dividePage f l r).2.pos x = if x = r then .right else if x = l then .left else s.pos x := by
  simp [dividePage, horder, setState, update_apply]

theorem dividePage_state (x : ℕ) : (s.dividePage f l r).2.state x =
      if x = f then .virt else if x = l ∨ x = r then .alloced else s.state x := by
  simp only [dividePage, horder, setState, update_apply]
  grind

end

end Divide

theorem Tiles.divide (h : s.Tiles used covered) {f l r : ℕ} (hf : used f)
    (hstate : s.state f ≠ .virt) (horder : s.order f ≠ 0) (hl : ¬ used l) (hr : ¬ used r) (hlr : l ≠ r) :
    (s.dividePage f l r).2.Tiles (fun p ↦ used p ∨ p = l ∨ p = r) covered := by
  have haddr := dividePage_addr (l := l) (r := r) horder
  have hsize := dividePage_size (l := l) (r := r) horder
  have hord := dividePage_order (l := l) (r := r) horder
  have hff := dividePage_f (l := l) (r := r) horder
  have hb := dividePage_b (l := l) (r := r) horder
  have hpos := dividePage_pos (l := l) (r := r) horder
  have hst := dividePage_state (l := l) (r := r) horder
  generalize (s.dividePage f l r).2 = t at haddr hsize hord hff hb hpos hst ⊢
  have hfl : f ≠ l := fun heq ↦ hl (heq ▸ hf)
  have hfr : f ≠ r := fun heq ↦ hr (heq ▸ hf)
  have hsizef := h.size_eq f hf
  have hboundf := h.bound f hf
  have halign := h.aligned f hf
  obtain ⟨k, hk⟩ := Nat.exists_eq_add_one_of_ne_zero horder
  have hpow : pageSize * 2 ^ (k + 1) = 2 * (pageSize * 2 ^ k) := by rw [Nat.pow_succ, ← Nat.mul_assoc, Nat.mul_comm]
  have hhalf : s.size f / 2 = pageSize * 2 ^ k := by
    rw [hsizef, hk, hpow]
    omega
  have hhalf_pos := blockSize_pos k
  have hword : wordAdd (s.addr f) (pageSize * 2 ^ k) = s.addr f + pageSize * 2 ^ k := by
    refine wordAdd_of_lt ?_
    rw [hsizef, hk, hpow] at hboundf
    omega
  -- the other blocks are as they were, the two halves as they should be
  have hold : ∀ x, used x → t.addr x = s.addr x ∧ t.size x = s.size x ∧ t.order x = s.order x ∧
      t.f x = s.f x ∧ t.b x = s.b x ∧ t.pos x = s.pos x ∧
      (t.state x = .virt ↔ x = f ∨ s.state x = .virt) := by
    intro x hx
    have hxl : x ≠ l := fun heq ↦ hl (heq ▸ hx)
    have hxr : x ≠ r := fun heq ↦ hr (heq ▸ hx)
    grind
  have hhl : t.addr l = s.addr f ∧ t.size l = pageSize * 2 ^ k ∧ t.order l = k ∧ t.f l = f ∧
      t.b l = r ∧ t.pos l = .left ∧ t.state l = .alloced := by
    simp [haddr, hsize, hord, hff, hb, hpos, hst, hlr, hfl.symm, hhalf, hk]
  have hhr : t.addr r = s.addr f + pageSize * 2 ^ k ∧ t.size r = pageSize * 2 ^ k ∧
      t.order r = k ∧ t.f r = f ∧ t.b r = l ∧ t.pos r = .right ∧ t.state r = .alloced := by
    simp [haddr, hsize, hord, hff, hb, hpos, hst, hfr.symm, hhalf, hk, hword]
  obtain ⟨hal, hsl, hol, hfl', hbl, hpl, htl⟩ := hhl
  obtain ⟨har, hsr, hor, hfr', hbr, hpr, htr⟩ := hhr
  clear haddr hsize hord hff hb hpos hst
  rw [hsizef, hk, hpow] at hboundf
  have hordf := h.order_lt f hf
  have hnochild : ∀ x, used x → s.pos x ≠ .nobud → s.f x ≠ f := fun x hx hxpos heq ↦
    hstate (heq ▸ (h.paired x hx hxpos).virt_f)
  obtain ⟨haf, hsf, hof, -, -, -, htf⟩ := hold f hf
  have halign' : (s.addr f + pageSize * 2 ^ k) % pageSize = 0 := by
    rw [Nat.add_mul_mod_self_left]
    exact halign
  have hsize2 : s.size f = 2 * (pageSize * 2 ^ k) := by rw [hsizef, hk, hpow]
  have happart : ∀ p, used p → t.state p ≠ .virt → s.state p ≠ .virt ∧
      (t.addr p + t.size p ≤ s.addr f ∨ s.addr f + 2 * (pageSize * 2 ^ k) ≤ t.addr p) := by
    intro p hp hvp
    obtain ⟨hap, hsp, -, -, -, -, htp⟩ := hold p hp
    rw [ne_eq, htp, not_or] at hvp
    refine ⟨hvp.2, ?_⟩
    rw [hap, hsp, ← hsize2]
    exact h.disjoint p f hp hf hvp.2 hstate hvp.1
  obtain ⟨horder', hsize', haligned', hbound', hpaired', honly', hdisjoint', hcover'⟩ := h
  constructor
  case paired =>
    rintro p (hp | rfl | rfl) hppos
    · obtain ⟨hap, hsp, hop, hfp, hbp, hpp, -⟩ := hold p hp
      rw [hpp] at hppos
      obtain ⟨h1, h2, h3, h4, h5, h6, h7, h8, h9, h10⟩ := hpaired' p hp hppos
      constructor <;> grind
    · constructor <;> grind [BudPos.flip]
    · constructor <;> grind [BudPos.flip]
  case cover =>
    intro a
    rw [hcover']
    constructor
    · rintro ⟨p, hp, hvp, ha⟩
      by_cases hpf : p = f
      · subst hpf
        have hsplit : t.Within l a ∨ t.Within r a := by
          unfold Within at ha ⊢
          omega
        grind
      · exact ⟨p, by grind [Within]⟩
    · rintro ⟨p, hp | rfl | rfl, hvp, ha⟩
      · exact ⟨p, by grind [Within]⟩
      all_goals exact ⟨f, hf, hstate, by unfold Within at ha ⊢; omega⟩
  all_goals grind

theorem Tiles.merge (h : s.Tiles used covered) {p : ℕ} (hp : used p) (hpos : s.pos p ≠ .nobud)
    (hstate : s.state p ≠ .virt) (hstate' : s.state (s.b p) ≠ .virt) :
    (s.setState (s.f p) .alloced).Tiles (fun q ↦ used q ∧ q ≠ p ∧ q ≠ s.b p) covered := by
  have hpair := h.paired p hp hpos
  -- the two halves of the merged block, from left to right
  have hhalves : s.size (s.f p) = s.size p + s.size (s.b p) ∧
      ((s.addr p = s.addr (s.f p) ∧ s.addr (s.b p) = s.addr p + s.size p) ∨
        (s.addr (s.b p) = s.addr (s.f p) ∧ s.addr p = s.addr (s.b p) + s.size (s.b p))) := by
    have hsizeb : s.size (s.b p) = s.size p := by rw [h.size_eq _ hpair.used_b, h.size_eq p hp, hpair.order_b]
    refine ⟨?_, ?_⟩
    · grind [h.size_eq, hpair.used_f, hpair.order_f]
    · cases hcase : s.pos p with
      | nobud => exact absurd hcase hpos
      | left => exact Or.inl (hpair.addr_left hcase)
      | right => exact Or.inr (hsizeb ▸ hpair.addr_right hcase)
  obtain ⟨hsize, haddr⟩ := hhalves
  have hfp : s.f p ≠ p := fun heq ↦ hstate (heq ▸ hpair.virt_f)
  have hfb : s.f p ≠ s.b p := fun heq ↦ hstate' (heq ▸ hpair.virt_f)
  have hsizep := h.size_pos hp
  have hsizeb := h.size_pos hpair.used_b
  -- no other half lies below the merged block
  have hchild : ∀ q, used q → s.pos q ≠ .nobud → q ≠ p → q ≠ s.b p → s.f q ≠ s.f p := by
    intro q hq hqpos hqp hqb heq
    exact (h.only p q hp hq hpos hqpos heq).elim hqp hqb
  have hvirt : ∀ q, q ≠ s.f p → ((s.setState (s.f p) .alloced).state q = .virt ↔ s.state q = .virt) := by
    intro q hq
    simp [hq]
  have happart : ∀ q, used q → s.state q ≠ .virt → q ≠ p → q ≠ s.b p → s.addr q + s.size q ≤ s.addr (s.f p) ∨
        s.addr (s.f p) + s.size (s.f p) ≤ s.addr q := by
    intro q hq hqs hqp hqb
    have hdp := h.disjoint q p hq hp hqs hstate hqp
    have hdb := h.disjoint q (s.b p) hq hpair.used_b hqs hstate' hqb
    have hsizeq := h.size_pos hq
    omega
  obtain ⟨horder', hsize', haligned', hbound', hpaired', honly', hdisjoint', hcover'⟩ := h
  constructor
  case paired =>
    rintro q ⟨hq, hqp, hqb⟩ hqpos
    obtain ⟨h1, h2, h3, h4, h5, h6, h7, h8, h9, h10⟩ := hpaired' q hq hqpos
    have hqf := hchild q hq hqpos hqp hqb
    have hbb := hpair.b_b
    refine ⟨⟨h1, ?_, ?_⟩, h2, h3, h4, ⟨h5, ?_, ?_⟩, (hvirt _ hqf).mpr h6, h7, h8, h9, h10⟩ <;>
      simp only [setState_b, setState_f] <;> grind
  case cover =>
    intro a
    rw [hcover']
    constructor
    · rintro ⟨q, hq, hvq, ha⟩
      by_cases hin : q = p ∨ q = s.b p
      · refine ⟨s.f p, ⟨hpair.used_f, hfp, hfb⟩, by simp, ?_⟩
        unfold Within at ha ⊢
        simp only [setState_addr, setState_size]
        rcases hin with rfl | rfl <;> omega
      · have hqf : q ≠ s.f p := fun heq ↦ hvq (heq ▸ hpair.virt_f)
        exact ⟨q, ⟨hq, not_or.mp hin⟩, (hvirt q hqf).not.mpr hvq, ha⟩
    grind [Within, setState_addr, setState_size, hpair.used_b]
  all_goals
    simp only [setState_addr, setState_size, setState_order, setState_f, setState_b, setState_pos, setState_state]
    grind

end PageAlct

end Lanthorn
