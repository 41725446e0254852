import Lanthorn.Memory.PmCanonical

/-!
# A block that is allocated and freed at once

In a canonical state `pm_free` of the block that `pm_alloc` has just returned goes back over the same
splits (`Carves.unwind`): every block is as it was, and only the orders of the free lists and of the
pool may have changed (`pmFree_pmAlloc`).

`FreeAt` and `LiveAt` say what blocks there are in terms of the lists and the tree alone. `HasBlock` and
`OnlyBlock` are when `pm_alloc` finds a block, and when it then takes all the memory that is free.
-/

namespace Lanthorn

open Library

namespace PageAlct

/-- The same descriptors are in use, with the same blocks in the same states. -/
structure SameUse (s : PageAlct) (g : Contents) (s' : PageAlct) (g' : Contents) : Prop where
  used : ∀ q, g'.used q ↔ g.used q
  blocks : s.SameBlocks s' g.used
  state : ∀ q, g.used q → s'.state q = s.state q

section Unwind

variable {lay : Layout} {s s' : PageAlct} {g g' : Contents} {raw : List ℕ} {covered : ℕ → Prop}

theorem Carves.free {p k l : ℕ} (h : Buddy lay s g raw covered)
    (hc : Carves lay raw covered s g p k l s' g') : g.used p ∧ s.state p = .free := by
  induction hc with
  | take hfirst =>
    obtain ⟨hused, hstate, -⟩ := (h.free_iff (s.order p) p).mp (by simp [hfirst])
    exact ⟨hused, hstate⟩
  | halve _ _ _ ih => exact ih

theorem Merged.sameUse {f l r : ℕ} {t t' : PageAlct} {u u' : Contents} (hf : s.state f = .alloced)
    (hhalved : Halved s g f l r s' g') (hsame : SameUse s' g' t u) (hmerged : Merged t u l t' u') :
    SameUse s g t' u' := by
  obtain ⟨hl, hr, -⟩ := hhalved.fresh
  have hleft : g'.used l := (hhalved.used l).mpr (by simp)
  have hfl : t.f l = f := (hsame.blocks.f l hleft).trans hhalved.f.1
  have hbl : t.b l = r := (hsame.blocks.b l hleft).trans hhalved.b.1
  have hused : ∀ q, u'.used q ↔ g.used q := by grind [hmerged.used, hsame.used, hhalved.used]
  have hold : ∀ q, g.used q → g'.used q ∧ u'.used q := fun q hq ↦
    ⟨(hhalved.used q).mpr (Or.inl hq), (hused q).mpr hq⟩
  have hstate : ∀ q, g.used q → t'.state q = s.state q := by grind [hmerged.state, hsame.state, hhalved.state]
  have hframe := hhalved.frame
  have hback := hmerged.frame
  refine ⟨hused, ⟨fun q hq ↦ ?_, fun q hq ↦ ?_, fun q hq ↦ ?_, fun q hq ↦ ?_, fun q hq ↦ ?_,
    fun q hq ↦ ?_, fun q hq ↦ by rw [hstate q hq]⟩, hstate⟩
  all_goals obtain ⟨hq', hu⟩ := hold q hq
  · rw [hback.addr q hu, hsame.blocks.addr q hq', hframe.addr q hq]
  · rw [hback.size q hu, hsame.blocks.size q hq', hframe.size q hq]
  · rw [hback.order q hu, hsame.blocks.order q hq', hframe.order q hq]
  · rw [hback.f q hu, hsame.blocks.f q hq', hframe.f q hq]
  · rw [hback.b q hu, hsame.blocks.b q hq', hframe.b q hq]
  · rw [hback.pos q hu, hsame.blocks.pos q hq', hframe.pos q hq]

theorem Carves.unwind {p k l : ℕ} (h : Buddy lay s g raw covered)
    (hstop : s.pos p = .nobud ∨ s.state (s.b p) ≠ .free)
    (hc : Carves lay raw covered s g p k l s' g') {t : PageAlct} {u : Contents}
    (ht : Buddy lay t u raw covered) (hsame : SameUse s' g' t u) {fuel : ℕ} (hfuel : nrBuddyOrder ≤ k + fuel) :
    ∃ t' u', buddyPutLoop fuel t l = .ok (t', p) ∧ Buddy lay t' u' raw covered ∧
      SameOthers t u l t' u' p ∧ SameUse (s.setState p .alloced) g t' u' := by
  induction hc generalizing t u fuel with
  | @take rest list' hfirst =>
    obtain ⟨hused, -, -⟩ := (h.free_iff (s.order p) p).mp (by simp [hfirst])
    have horder := h.tiles.order_lt p hused
    obtain ⟨fuel, rfl⟩ := Nat.exists_eq_add_one_of_ne_zero (show fuel ≠ 0 by omega)
    have hsame' : SameUse (s.setState p .alloced) g t u := by
      obtain ⟨hu, ⟨haddr, hsize, horder', hf, hb, hpos, hvirt⟩, hstate⟩ := hsame
      exact ⟨hu, ⟨haddr, hsize, horder', hf, hb, hpos, hvirt⟩, hstate⟩
    refine ⟨t, u, buddyPutLoop_stop ?_ fuel, ht, .refl t u p, hsame'⟩
    have hpos : t.pos p = s.pos p := hsame'.blocks.pos p hused
    have hb : t.b p = s.b p := hsame'.blocks.b p hused
    by_cases hwhole : s.pos p = .nobud
    · exact Or.inl (hpos.trans hwhole)
    · have hpair := h.tiles.paired p hused hwhole
      grind [hsame'.state, hpair.used_b, setState_state]
  | @halve k f l r s₁ s' g₁ g' hlarger h₁ hhalved ih =>
    obtain ⟨hle, -, hlive, -⟩ := hlarger.spec h
    have hp := h.tiles.order_lt p (hlarger.free h).1
    obtain ⟨fuel, rfl⟩ := Nat.exists_eq_add_one_of_ne_zero (show fuel ≠ 0 by omega)
    have hleft : g'.used l := (hhalved.used l).mpr (by simp)
    have hright : g'.used r := (hhalved.used r).mpr (by simp)
    have hbl : t.b l = r := (hsame.blocks.b l hleft).trans hhalved.b.1
    have hm : Mergeable t u l := by
      refine ⟨(hsame.used l).mpr hleft, ?_, ?_, ?_⟩
      · rw [hsame.state l hleft, hhalved.live_left]
      · rw [hsame.blocks.pos l hleft, hhalved.pos.1]
        simp
      · rw [hbl, hsame.state r hright, hhalved.free_right]
    obtain ⟨t₁, u₁, hrun₁, ht₁, hmerged⟩ := buddyPutLoop_merge ht hm fuel
    obtain ⟨t', u', hrun', ht', hothers, hsame'⟩ :=
      ih ht₁ (Merged.sameUse hlive hhalved hsame hmerged) (show nrBuddyOrder ≤ k + 1 + fuel by omega)
    refine ⟨t', u', ?_, ht', ?_, hsame'⟩
    · rw [hrun₁, (hsame.blocks.f l hleft).trans hhalved.f.1, hrun']
    · have hfirst := (hmerged.spec ht hm).2.2.2
      rw [(hsame.blocks.f l hleft).trans hhalved.f.1] at hfirst
      exact hfirst.trans hothers

theorem Released.sameUse {p : ℕ} {t t' : PageAlct} {u u' : Contents} (hfree : s.state p = .free)
    (hsame : SameUse (s.setState p .alloced) g t u) (hreleased : Released t u p t' u') : SameUse s g t' u' := by
  obtain ⟨hused, ⟨haddr, hsize, horder, hf, hb, hpos, -⟩, hstate⟩ := hsame
  obtain ⟨rfl, hframe, hstate'⟩ := hreleased
  have hframe := hframe fun _ ↦ True
  have hst : ∀ q, g.used q → t'.state q = s.state q := by
    intro q hq
    rw [hstate', Function.update_apply, hstate q hq, setState_state]
    split_ifs with hqp
    · rw [hqp, hfree]
    · rfl
  exact ⟨hused, ⟨fun q hq ↦ (hframe.addr q trivial).trans (haddr q hq),
    fun q hq ↦ (hframe.size q trivial).trans (hsize q hq),
    fun q hq ↦ (hframe.order q trivial).trans (horder q hq),
    fun q hq ↦ (hframe.f q trivial).trans (hf q hq),
    fun q hq ↦ (hframe.b q trivial).trans (hb q hq),
    fun q hq ↦ (hframe.pos q trivial).trans (hpos q hq),
    fun q hq ↦ by rw [hst q hq]⟩, hst⟩

theorem SameUse.refl_setAllocedRbt (t : Rbt) : SameUse s g (s.setAllocedRbt t) g :=
  ⟨fun _ ↦ Iff.rfl, ⟨fun _ _ ↦ rfl, fun _ _ ↦ rfl, fun _ _ ↦ rfl, fun _ _ ↦ rfl, fun _ _ ↦ rfl,
    fun _ _ ↦ rfl, fun _ _ ↦ Iff.rfl⟩, fun _ _ ↦ rfl⟩

theorem SameUse.setAllocedRbt {t : PageAlct} {u : Contents} (h : SameUse s g t u) (rbt : Rbt) :
    SameUse s g (t.setAllocedRbt rbt) u := by
  obtain ⟨hused, ⟨haddr, hsize, horder, hf, hb, hpos, hvirt⟩, hstate⟩ := h
  exact ⟨hused, ⟨haddr, hsize, horder, hf, hb, hpos, hvirt⟩, hstate⟩

variable {live : List ℕ} {blocks : List (ℕ × ℕ)}

theorem pmFree_pmAlloc (h : Valid lay s g live covered) (hcanon : Canonical s g.used blocks)
    {size page : ℕ} (hrun : s.pmAlloc size = .ok (.ok, some page, s')) :
    ∃ s'' g'' live', s'.pmFree page = .ok s'' ∧ Valid lay s'' g'' live' covered ∧ SameUse s g s'' g'' := by
  by_cases hzero : size = 0
  · simp [pmAlloc, hzero] at hrun
  obtain ⟨-, hrun'⟩ | ⟨p, -, ⟨-, hrun'⟩ | ⟨page', s₁, t, g₁, live', hrun', hcarves, h₁, -, hperm⟩⟩ :=
    pmAlloc_spec h hzero
  · simp [hrun'] at hrun
  · simp [hrun'] at hrun
  obtain ⟨rfl, rfl⟩ : page' = page ∧ s₁.setAllocedRbt t = s' := by simpa [hrun'] using hrun
  obtain ⟨hused, hfree⟩ := hcarves.free h.buddy
  obtain ⟨-, hused₁, hstate₁, horder₁, -⟩ := hcarves.spec h.buddy
  have hstop : s.pos p = .nobud ∨ s.state (s.b p) ≠ .free :=
    or_iff_not_imp_left.mpr fun hpos ↦ hcanon.apart p hused hpos hfree
  obtain ⟨t', u', hloop, ht', hothers, hsame⟩ := hcarves.unwind h.buddy hstop h₁.buddy
    (SameUse.refl_setAllocedRbt t)
    (show nrBuddyOrder ≤ orderOf size + addressSpace by simp [nrBuddyOrder, addressSpace])
  have hlive : t'.state p = .alloced := by rw [hsame.state p hused]; simp
  obtain ⟨t'', u'', hput, ht'', hreleased⟩ := buddyPut_of_loop (h₁.buddy.tiles.order_lt page' hused₁)
    hstate₁ hloop ht' ((hsame.used p).mpr hused) hlive
  obtain ⟨rbt, hrun'', h''⟩ := pmFree_of_put h₁ (hperm.mem_iff.mpr (by simp)) hput ht''
    (hothers.trans (hreleased.sameOthers ht'))
  exact ⟨_, u'', _, hrun'', h'', (Released.sameUse hfree hsame hreleased).setAllocedRbt rbt⟩

end Unwind

/-! ### The blocks of a state -/

/-- There is a free block of `n` bytes at an address. -/
def FreeAt (s : PageAlct) (a n : ℕ) : Prop :=
  ∃ k < nrBuddyOrder, ∃ ps, IsRing s.list (s.headAt k) (listNodes ps) ∧ ∃ p ∈ ps, s.addr p = a ∧ s.size p = n

/-- There is a live block of `n` bytes at an address. -/
def LiveAt (s : PageAlct) (a n : ℕ) : Prop :=
  ∃ node ∈ s.allocedRbt.nodes, s.addr (containerOf node pageRbtNode) = a ∧ s.size (containerOf node pageRbtNode) = n

def HasBlock (s : PageAlct) (n : ℕ) : Prop := ∃ a m, s.FreeAt a m ∧ n ≤ m

def OnlyBlock (s : PageAlct) (n : ℕ) : Prop :=
  ∃ a m, m < 2 * n ∧ ∀ a' m', s.FreeAt a' m' ↔ a' = a ∧ m' = m

def FreeAddr (s : PageAlct) (x : ℕ) : Prop := ∃ a n, s.FreeAt a n ∧ a ≤ x ∧ x < a + n

structure SameMemory (s s' : PageAlct) : Prop where
  free : ∀ a n, s'.FreeAt a n ↔ s.FreeAt a n
  live : ∀ a n, s'.LiveAt a n ↔ s.LiveAt a n

section Blocks

variable {lay : Layout} {s s' : PageAlct} {g g' : Contents} {live live' : List ℕ} {covered : ℕ → Prop}

theorem Valid.freeAt_iff (h : Valid lay s g live covered) (a n : ℕ) :
    s.FreeAt a n ↔ ∃ p, g.used p ∧ s.state p = .free ∧ s.addr p = a ∧ s.size p = n := by
  have hring : ∀ k < nrBuddyOrder, IsRing s.list (s.headAt k) (listNodes (g.free k)) := fun k hk ↦ by
    rw [h.buddy.headAt_eq]
    exact h.buddy.rings.free_ring k hk
  constructor
  · rintro ⟨k, hk, ps, hps, p, hp, haddr, hsize⟩
    obtain rfl : ps = g.free k :=
      List.map_injective_iff.mpr (fun _ _ heq ↦ Nat.add_right_cancel heq) (hps.unique (hring k hk))
    grind [h.buddy.free_iff]
  · rintro ⟨p, hused, hstate, haddr, hsize⟩
    have hk := h.buddy.tiles.order_lt p hused
    exact ⟨_, hk, _, hring _ hk, p, (h.buddy.free_iff _ p).mpr ⟨hused, hstate, rfl⟩, haddr, hsize⟩

theorem Valid.liveAt_iff (h : Valid lay s g live covered) (a n : ℕ) :
    s.LiveAt a n ↔ ∃ p, g.used p ∧ s.state p = .alloced ∧ s.addr p = a ∧ s.size p = n := by
  obtain ⟨T, hT, -, hinorder⟩ := h.tree
  have hnodes : s.allocedRbt.nodes = rbtNodes live := hT.nodes_eq.trans hinorder
  rw [LiveAt, hnodes]
  constructor
  · rintro ⟨node, hnode, haddr, hsize⟩
    obtain ⟨p, hp, rfl⟩ := List.mem_map.mp hnode
    grind [containerOf_rbtNode, h.live_mem, h.live_iff]
  · rintro ⟨p, hused, hstate, haddr, hsize⟩
    have hp := (h.live_iff p).mpr ⟨hused, hstate⟩
    refine ⟨_, List.mem_map_of_mem hp, ?_⟩
    rw [containerOf_rbtNode (h.live_mem hp)]
    exact ⟨haddr, hsize⟩

theorem SameUse.sameMemory (hsame : SameUse s g s' g') (h : Valid lay s g live covered)
    (h' : Valid lay s' g' live' covered) : s.SameMemory s' := by
  have hblocks : ∀ state a n, (∃ p, g'.used p ∧ s'.state p = state ∧ s'.addr p = a ∧ s'.size p = n) ↔
      ∃ p, g.used p ∧ s.state p = state ∧ s.addr p = a ∧ s.size p = n := by
    intro state a n
    refine exists_congr fun p ↦ ?_
    grind [hsame.used, hsame.state, hsame.blocks.addr, hsame.blocks.size]
  refine ⟨fun a n ↦ ?_, fun a n ↦ ?_⟩
  · rw [h'.freeAt_iff, h.freeAt_iff, hblocks]
  · rw [h'.liveAt_iff, h.liveAt_iff, hblocks]

theorem Valid.freeAddr_iff (h : Valid lay s g live covered) (x : ℕ) :
    s.FreeAddr x ↔ ∃ p, g.used p ∧ s.state p = .free ∧ s.Within p x := by
  simp only [FreeAddr, h.freeAt_iff]
  constructor
  · rintro ⟨_, _, ⟨p, hused, hstate, rfl, rfl⟩, hx⟩
    exact ⟨p, hused, hstate, hx⟩
  · rintro ⟨p, hused, hstate, hx⟩
    exact ⟨_, _, ⟨p, hused, hstate, rfl, rfl⟩, hx⟩

theorem Valid.freeAddr_alloc (h : Valid lay s g live covered) (h' : Valid lay s' g' live' covered)
    {page : ℕ} (hpage : page ∈ live')
    (hkept : ∀ p ∈ live, p ∈ live' ∧ s'.addr p = s.addr p ∧ s'.size p = s.size p) {x : ℕ}
    (hx : s'.FreeAddr x) : s.FreeAddr x ∧ ¬ s'.Within page x := by
  obtain ⟨q, hq, hfree, hwithin⟩ := (h'.freeAddr_iff x).mp hx
  -- no address is in a free and in a live block
  have hout : ∀ p ∈ live', ¬ s'.Within p x := by
    intro p hp hpx
    obtain ⟨hused, hstate⟩ := (h'.live_iff p).mp hp
    have hne : p ≠ q := by
      rintro rfl
      rw [hstate] at hfree
      cases hfree
    have hapart := h'.buddy.tiles.disjoint p q hused hq (by simp [hstate]) (by simp [hfree]) hne
    unfold Within at hpx hwithin
    omega
  refine ⟨?_, hout page hpage⟩
  have hcovered := (h'.buddy.tiles.cover x).mpr ⟨q, hq, by simp [hfree], hwithin⟩
  obtain ⟨p, hused, hvirt, hpx⟩ := (h.buddy.tiles.cover x).mp hcovered
  refine (h.freeAddr_iff x).mpr ⟨p, hused, ?_, hpx⟩
  cases hstate : s.state p with
  | free => rfl
  | virt => exact absurd hstate hvirt
  | alloced => grind [h.live_iff, Within]

/-! ### What `pm_alloc` finds -/

section

variable (h : Valid lay s g live covered)
include h

theorem Valid.size_eq {k p : ℕ} (hp : p ∈ g.free k) : s.size p = pageSize * 2 ^ k := by
  grind [h.buddy.free_iff, h.buddy.tiles.size_eq]

theorem Valid.hasBlock_iff {n : ℕ} (hword : n ≤ addressSpace - pageSize) :
    s.HasBlock n ↔ ∃ i, orderOf n ≤ i ∧ i < nrBuddyOrder ∧ g.free i ≠ [] := by
  simp only [HasBlock, h.freeAt_iff]
  constructor
  · rintro ⟨_, _, ⟨p, hused, hstate, rfl, rfl⟩, hle⟩
    rw [h.buddy.tiles.size_eq p hused, size_le_iff hword] at hle
    refine ⟨_, hle, h.buddy.tiles.order_lt p hused, List.ne_nil_of_mem (a := p) ?_⟩
    exact (h.buddy.free_iff _ p).mpr ⟨hused, hstate, rfl⟩
  · rintro ⟨i, hle, -, hne⟩
    obtain ⟨p, hp⟩ := List.exists_mem_of_ne_nil _ hne
    obtain ⟨hused, hstate, -⟩ := (h.buddy.free_iff i p).mp hp
    refine ⟨_, _, ⟨p, hused, hstate, rfl, rfl⟩, ?_⟩
    rwa [h.size_eq hp, size_le_iff hword]

theorem Valid.exists_freeAt_iff : (∃ a m, s.FreeAt a m) ↔ ∃ i < nrBuddyOrder, g.free i ≠ [] := by
  simp only [h.freeAt_iff]
  constructor
  · rintro ⟨_, _, p, hused, hstate, rfl, rfl⟩
    refine ⟨_, h.buddy.tiles.order_lt p hused, List.ne_nil_of_mem (a := p) ?_⟩
    exact (h.buddy.free_iff _ p).mpr ⟨hused, hstate, rfl⟩
  · rintro ⟨i, -, hne⟩
    obtain ⟨p, hp⟩ := List.exists_mem_of_ne_nil _ hne
    grind [h.buddy.free_iff]

theorem Valid.hasBlock_page : s.HasBlock pageSize ↔ ∃ a m, s.FreeAt a m := by
  rw [h.hasBlock_iff (by decide), h.exists_freeAt_iff,
    show orderOf pageSize = 0 from Nat.clog_of_right_le_one (by decide) 2]
  simp

end

theorem blockSize_lt_double {n j : ℕ} (hpos : n ≠ 0) (hunit : n % pageSize = 0)
    (hword : n ≤ addressSpace - pageSize) (hle : orderOf n ≤ j) : pageSize * 2 ^ j < 2 * n ↔ j = orderOf n := by
  cases j with
  | zero =>
    refine iff_of_true ?_ (by omega)
    simp only [pageSize] at *
    omega
  | succ i =>
    have hhalf := size_le_iff hword i
    grind [pageSize]

theorem Carved.onlyBlock_iff {p n : ℕ} (hcarved : Carved s g p (orderOf n) s' g')
    (h : Valid lay s g live covered) (hpos : n ≠ 0) (hunit : n % pageSize = 0)
    (hword : n ≤ addressSpace - pageSize) (hle : orderOf n ≤ s.order p) (hlt : s.order p < nrBuddyOrder) :
    (∀ i < nrBuddyOrder, g'.free i = []) ↔ s.OnlyBlock n := by
  have hp : p ∈ g.free (s.order p) := by simp [hcarved.first]
  obtain ⟨hused, hstate, -⟩ := (h.buddy.free_iff _ p).mp hp
  have hdouble := blockSize_lt_double hpos hunit hword hle
  rw [← h.size_eq hp] at hdouble
  constructor
  · intro hempty
    have horder : s.order p = orderOf n := by
      by_contra hne
      obtain ⟨r, hr, -⟩ := hcarved.halves (orderOf n) le_rfl (by omega)
      simp [hempty (orderOf n) (by omega)] at hr
    have hfree : ∀ i < nrBuddyOrder, g.free i = if i = s.order p then [p] else [] := by
      grind [hcarved.first, hcarved.outside]
    refine ⟨s.addr p, s.size p, hdouble.mpr horder, fun a m ↦ ?_⟩
    rw [h.freeAt_iff]
    constructor
    · rintro ⟨q, hq, hqfree, rfl, rfl⟩
      have hmem := (h.buddy.free_iff _ q).mpr ⟨hq, hqfree, rfl⟩
      grind [h.buddy.tiles.order_lt]
    · rintro ⟨rfl, rfl⟩
      exact ⟨p, hused, hstate, rfl, rfl⟩
  · rintro ⟨a, m, hdbl, honly⟩ i hi
    -- every free block is the same
    have hsame : ∀ j, ∀ q ∈ g.free j, q = p := by
      intro j q hq
      obtain ⟨hqused, hqstate, -⟩ := (h.buddy.free_iff j q).mp hq
      obtain ⟨hqa, hqm⟩ := (honly _ _).mp ((h.freeAt_iff _ _).mpr ⟨q, hqused, hqstate, rfl, rfl⟩)
      obtain ⟨hpa, hpm⟩ := (honly _ _).mp ((h.freeAt_iff _ _).mpr ⟨p, hused, hstate, rfl, rfl⟩)
      by_contra hne
      have hapart := h.buddy.tiles.disjoint q p hqused hused (by simp [hqstate]) (by simp [hstate]) hne
      have hsize := h.buddy.tiles.size_pos hused
      omega
    obtain ⟨-, hpm⟩ := (honly _ _).mp ((h.freeAt_iff _ _).mpr ⟨p, hused, hstate, rfl, rfl⟩)
    have horder := hdouble.mp (by omega)
    by_cases hip : i = s.order p
    · subst hip
      have hnodup := h.free_nodup hlt
      rw [hcarved.first, List.nodup_cons] at hnodup
      refine List.eq_nil_iff_forall_not_mem.mpr fun q hq ↦ hnodup.1 ?_
      exact hsame (s.order p) q (by simp [hcarved.first, hq]) ▸ hq
    · rw [hcarved.outside i (by omega)]
      refine List.eq_nil_iff_forall_not_mem.mpr fun q hq ↦ hip ?_
      rw [← hsame i q hq, ((h.buddy.free_iff i q).mp hq).2.2]

theorem pmAlloc_block (h : Valid lay s g live covered) {n : ℕ} (hpos : n ≠ 0)
    (hunit : n % pageSize = 0) (hword : n ≤ addressSpace - pageSize) :
    (¬ s.HasBlock n ∧ s.pmAlloc n = .ok (.nomem, none, s)) ∨ s.HasBlock n ∧ (s.pmAlloc n = .error .unset ∨
        ∃ page s' g' live', s.pmAlloc n = .ok (.ok, some page, s') ∧ Valid lay s' g' live' covered ∧
          page ∈ live' ∧ n ≤ s'.size page ∧ s.FreeAddr (s'.addr page) ∧
          (∀ p ∈ live, p ∈ live' ∧ s'.addr p = s.addr p ∧ s'.size p = s.size p) ∧
          (∀ x, s'.FreeAddr x → s.FreeAddr x ∧ ¬ s'.Within page x) ∧
          ((∃ a m, s'.FreeAt a m) ↔ ¬ s.OnlyBlock n)) := by
  obtain ⟨hempty, hrun⟩ | ⟨p, hfit, hcases⟩ := pmAlloc_spec h hpos
  · grind [h.hasBlock_iff]
  obtain ⟨rest, hfirst⟩ := hfit.first
  refine Or.inr ⟨(h.hasBlock_iff hword).mpr ⟨_, hfit.le, hfit.lt, by simp [hfirst]⟩, ?_⟩
  obtain ⟨-, hrun⟩ | ⟨page, s₁, t, g', live', hrun, hcarves, h', hfresh, hperm⟩ := hcases
  · exact Or.inl hrun
  obtain ⟨hused, hfree⟩ := hcarves.free h.buddy
  obtain ⟨-, hused', hstate', horder', haddr', -, -, hothers⟩ := hcarves.spec h.buddy
  have hpage : page ∈ live' := hperm.mem_iff.mpr (by simp)
  have hkept : ∀ q ∈ live, q ∈ live' ∧ s₁.addr q = s.addr q ∧ s₁.size q = s.size q := by
    intro q hq
    obtain ⟨hq', hlive⟩ := (h.live_iff q).mp hq
    obtain ⟨haddr, hsize, -⟩ :=
      hothers.kept q ⟨hq', hlive, Layout.descs_ne_zero (h.buddy.used_mem q hq')⟩
    exact ⟨hperm.mem_iff.mpr (by simp [hq]), haddr, hsize⟩
  refine Or.inr ⟨page, _, g', live', hrun, h', hpage, ?_, ?_, hkept, fun x ↦ ?_, ?_⟩
  · rw [h'.buddy.tiles.size_eq page hused', size_le_iff hword]
    exact horder'.ge
  · refine (h.freeAddr_iff _).mpr ⟨p, hused, hfree, ?_⟩
    have hsize := h.buddy.tiles.size_pos hused
    change s.addr p ≤ s₁.addr page ∧ s₁.addr page < s.addr p + s.size p
    omega
  · exact h.freeAddr_alloc h' hpage hkept
  · rw [h'.exists_freeAt_iff, ← (hcarves.carved h.buddy).onlyBlock_iff h hpos hunit hword hfit.le hfit.lt]
    push Not
    rfl

end Blocks

end PageAlct

end Lanthorn
