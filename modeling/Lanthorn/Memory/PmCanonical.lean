import Lanthorn.Memory.PmExact

/-!
# The canonical state of the buddy system

`Canonical` says that no two buddies are both free, that every split block still has its halves, and that the
blocks that are no half of another are those that `pm_insert` made. Each step of the allocator keeps it.

A split block would have a split block among its halves, and so on down to a block of one page, unless a block is
live. So without live blocks every block is one of those that `pm_insert` made (`Canonical.whole`), and
`reachable_canonical` says what the free lists and the pool then hold, whatever was allocated and freed before.
-/

namespace Lanthorn

open Library List

namespace PageAlct

structure Siblings (s : PageAlct) (p q : ℕ) : Prop where
  ne : p ≠ q
  half_left : s.pos p ≠ .nobud
  half_right : s.pos q ≠ .nobud
  f_eq : s.f p = s.f q

/-- No two buddies are free, a split block has halves, and the blocks that are no halves are those of
a list, given by their starts and orders. -/
structure Canonical (s : PageAlct) (used : ℕ → Prop) (blocks : List (ℕ × ℕ)) : Prop where
  apart : ∀ p, used p → s.pos p ≠ .nobud → s.state p = .free → s.state (s.b p) ≠ .free
  child : ∀ q, used q → s.state q = .virt → ∃ p, used p ∧ s.pos p ≠ .nobud ∧ s.f p = q
  roots : ∃ roots : List ℕ, roots.Nodup ∧ (∀ p, p ∈ roots ↔ used p ∧ s.pos p = .nobud) ∧
    (roots.map fun p ↦ (s.addr p, s.order p)).Perm blocks

section Steps

variable {lay : Layout} {s s' : PageAlct} {g g' : Contents} {raw : List ℕ} {covered : ℕ → Prop}
  {blocks : List (ℕ × ℕ)} {page : ℕ}

theorem Canonical.keep_roots {used used' : ℕ → Prop} (h : Canonical s used blocks)
    (hkeep : ∀ p, used p → s.pos p = .nobud → used' p ∧ s'.pos p = .nobud ∧
      s'.addr p = s.addr p ∧ s'.order p = s.order p)
    (hback : ∀ p, used' p → s'.pos p = .nobud → used p ∧ s.pos p = .nobud) :
    ∃ roots : List ℕ, roots.Nodup ∧ (∀ p, p ∈ roots ↔ used' p ∧ s'.pos p = .nobud) ∧
      (roots.map fun p ↦ (s'.addr p, s'.order p)).Perm blocks := by grind [h.roots, map_congr_left]

theorem Paired.half_b {used : ℕ → Prop} (hpair : s.Paired used page) (hhalf : s.pos page ≠ .nobud) :
    s.pos (s.b page) ≠ .nobud := by
  rw [hpair.pos_b]
  cases hpos : s.pos page with
  | nobud => exact absurd hpos hhalf
  | left => simp [BudPos.flip]
  | right => simp [BudPos.flip]

theorem Canonical.merged (h : Canonical s g.used blocks) (hbuddy : Buddy lay s g raw covered)
    (hm : Mergeable s g page) (hmerged : Merged s g page s' g') : Canonical s' g'.used blocks := by
  have hpair := hbuddy.tiles.paired page hm.used hm.half
  have hframe := hmerged.frame
  have hold : ∀ q, g'.used q → s'.state q ≠ .alloced → q ≠ s.f page ∧ s'.state q = s.state q := by
    grind [hmerged.state]
  refine ⟨fun q hq hpos hfree ↦ ?_, fun q hq hvirt ↦ ?_, h.keep_roots (fun p hp hpos ↦ ?_)
    fun p hp hpos ↦ ⟨((hmerged.used p).mp hp).1, hframe.pos p hp ▸ hpos⟩⟩
  · obtain ⟨hused, hqp, hqb⟩ := (hmerged.used q).mp hq
    obtain ⟨-, hsame⟩ := hold q hq (by simp [hfree])
    rw [hframe.pos q hq] at hpos
    have hqpair := hbuddy.tiles.paired q hused hpos
    grind [hmerged.used, hqpair.used_b, hqpair.b_b, hpair.b_b, hframe.b, h.apart]
  · grind [h.child, hmerged.used, hpair.f_b, hframe.pos, hframe.f]
  grind [hmerged.used, hm.half, hpair.half_b, hframe.pos, hframe.addr, hframe.order]

theorem Canonical.released (h : Canonical s g.used blocks) (hbuddy : Buddy lay s g raw covered)
    (hstop : s.pos page = .nobud ∨ s.state (s.b page) ≠ .free)
    (hreleased : Released s g page s' g') : Canonical s' g'.used blocks := by
  obtain ⟨rfl, hframe, hstate⟩ := hreleased
  have hframe := hframe fun _ ↦ True
  have hst : ∀ q, s'.state q = if q = page then .free else s.state q := fun q ↦ by
    rw [hstate, Function.update_apply]
  refine ⟨fun q hq hpos hfree ↦ ?_, fun q hq hvirt ↦ ?_, h.keep_roots
    (fun p hp hpos ↦ ⟨hp, (hframe.pos p trivial).trans hpos, hframe.addr p trivial,
      hframe.order p trivial⟩) fun p hp hpos ↦ ⟨hp, hframe.pos p trivial ▸ hpos⟩⟩
  · rw [hframe.pos q trivial] at hpos
    rw [hframe.b q trivial, hst]
    have hqpair := hbuddy.tiles.paired q hq hpos
    by_cases hqp : q = page
    · grind [BudPos.flip_ne, hqpair.pos_b]
    · rw [hst, if_neg hqp] at hfree
      -- the buddy of a free block would have been merged with it
      grind [h.apart, hqpair.half_b, hqpair.b_b]
  grind [h.child, hframe.pos, hframe.f]

theorem Canonical.taken (h : Canonical s g.used blocks) {free' : ℕ → List ℕ} {list' : Links ℕ} :
    Canonical ({ s with list := list' }.setState page .alloced)
      ({ g with free := free' } : Contents).used blocks := by
  refine ⟨fun q hq hpos hfree ↦ ?_, fun q hq hvirt ↦ ?_, h.roots⟩
  · rw [setState_state] at hfree
    split_ifs at hfree
    change (setState _ page .alloced).state (s.b q) ≠ .free
    rw [setState_state]
    split_ifs
    · simp
    · exact h.apart q hq hpos hfree
  · rw [setState_state] at hvirt
    split_ifs at hvirt
    exact h.child q hq hvirt

theorem Canonical.halved {f l r : ℕ} (h : Canonical s g.used blocks)
    (hbuddy : Buddy lay s g raw covered) (hhalved : Halved s g f l r s' g') : Canonical s' g'.used blocks := by
  have hframe := hhalved.frame
  have hold : ∀ q, g.used q → g'.used q := fun q hq ↦ (hhalved.used q).mpr (Or.inl hq)
  refine ⟨fun q hq hpos hfree ↦ ?_, fun q hq hvirt ↦ ?_, h.keep_roots
    (fun p hp hpos ↦ ⟨hold p hp, (hframe.pos p hp).trans hpos, hframe.addr p hp, hframe.order p hp⟩)
    fun p hp hpos ↦ ?_⟩
  · obtain hq | rfl | rfl := (hhalved.used q).mp hq
    · rw [hframe.pos q hq] at hpos
      rw [hhalved.state q hq] at hfree
      split_ifs at hfree
      rw [hframe.b q hq, hhalved.state _ (hbuddy.tiles.paired q hq hpos).used_b]
      split_ifs
      · simp
      · exact h.apart q hq hpos hfree
    all_goals grind [hhalved.live_left, hhalved.b]
  · obtain hq | rfl | rfl := (hhalved.used q).mp hq
    · grind [hhalved.state, hhalved.used, hhalved.pos, hhalved.f, h.child, hframe.pos, hframe.f]
    all_goals grind [hhalved.live_left, hhalved.free_right]
  grind [hhalved.used, hframe.pos, hhalved.pos]

theorem Canonical.added {a i : ℕ} (h : Canonical s g.used blocks)
    (hbuddy : Buddy lay s g raw covered) (hadded : Added s g page a i s' g') :
    Canonical s' g'.used ((a, i) :: blocks) := by
  have hframe := hadded.frame
  refine ⟨fun q hq hpos hfree ↦ ?_, fun q hq hvirt ↦ ?_, ?_⟩
  · obtain hq | rfl := (hadded.used q).mp hq
    · rw [hframe.pos q hq] at hpos
      rw [hframe.b q hq, hadded.state _ (hbuddy.tiles.paired q hq hpos).used_b]
      exact h.apart q hq hpos (by rwa [← hadded.state q hq])
    · exact absurd hadded.pos hpos
  · obtain hq | rfl := (hadded.used q).mp hq
    · obtain ⟨p, hp, hpos, rfl⟩ := h.child q hq (by rwa [← hadded.state q hq])
      exact ⟨p, (hadded.used p).mpr (Or.inl hp), by rwa [hframe.pos p hp], hframe.f p hp⟩
    · rw [hadded.free] at hvirt
      cases hvirt
  · obtain ⟨roots, hnodup, hmem, hperm⟩ := h.roots
    refine ⟨page :: roots, List.nodup_cons.mpr ⟨fun hp ↦ ?_, hnodup⟩, fun p ↦ ?_, ?_⟩
    · exact hadded.fresh ((hmem page).mp hp).1
    · grind [hadded.used, hadded.pos, hframe.pos]
    grind [hadded.addr, hadded.order, map_congr_left, hframe.addr, hframe.order]

/-! ### The calls -/

theorem Canonical.setAllocedRbt {used : ℕ → Prop} (h : Canonical s used blocks) (t : Rbt) :
    Canonical (s.setAllocedRbt t) used blocks := ⟨h.apart, h.child, h.roots⟩

theorem Carves.canonical {p k l : ℕ} (h : Canonical s g.used blocks)
    (hc : Carves lay raw covered s g p k l s' g') : Canonical s' g'.used blocks := by
  induction hc with
  | take _ => exact h.taken
  | halve _ h₁ hhalved ih => exact ih.halved h₁ hhalved

variable {live : List ℕ}

theorem pmFree_canonical (hvalid : Valid lay s g live covered) (h : Canonical s g.used blocks)
    (hpage : page ∈ live) : ∃ s' g', s.pmFree page = .ok s' ∧ Valid lay s' g' (live.erase page) covered ∧
      Canonical s' g'.used blocks := by
  obtain ⟨hused, hstate⟩ := (hvalid.live_iff page).mp hpage
  obtain ⟨s₁, g₁, p₁, s', g', hrun, h', h₁, -, -, hstop₁, ⟨hothers, hcanon⟩, hreleased⟩ :=
    buddyPut_rule (P := fun s₁ g₁ p₁ ↦ SameOthers s g page s₁ g₁ p₁ ∧ Canonical s₁ g₁.used blocks)
      (fun hb hm hmerged hP ↦ ⟨hP.1.trans (hmerged.spec hb hm).2.2.2, hP.2.merged hb hm hmerged⟩)
      hvalid.buddy hused hstate ⟨.refl s g page, h⟩
  obtain ⟨t, hrun', hvalid'⟩ :=
    pmFree_of_put hvalid hpage hrun h' (hothers.trans (hreleased.sameOthers h₁))
  exact ⟨_, g', hrun', hvalid', (hcanon.released h₁ hstop₁ hreleased).setAllocedRbt t⟩

theorem pmInsert_canonical {addr size : ℕ} (hvalid : Valid lay s g live covered)
    (h : Canonical s g.used blocks) (haddr : addr % pageSize = 0) (hsize : size % pageSize = 0)
    (hpos : 0 < size) (hword : size < addressSpace) (hbound : addr + size ≤ addressSpace)
    (hnew : ∀ x, addr ≤ x → x < addr + size → ¬ covered x) (hrun : s.pmInsert addr size = .ok (.ok, s')) :
    ∃ g', Valid lay s' g' live (fun x ↦ covered x ∨ addr ≤ x ∧ x < addr + size) ∧
      Canonical s' g'.used (rangeBlocks addr size nrBuddyOrder ++ blocks) := by
  have hstart : Valid lay s g live fun x ↦ covered x ∨ CoveredBy [] x := by
    convert hvalid using 2 with x
    simp [CoveredBy]
  obtain ⟨err, s₁, hrun₁, ⟨rfl, -⟩ | ⟨rfl, g', hvalid', h'⟩⟩ := pmInsert_rule
    (P := fun s bs ↦ ∃ g, (Valid lay s g live fun x ↦ covered x ∨ CoveredBy bs x) ∧
      Canonical s g.used (bs ++ blocks)) (F := fun _ ↦ True)
    (fun {s bs a i} hkept hi haligned hbound hsmall hnew ↦ by
      obtain ⟨g, hvalid, h⟩ := hkept
      obtain hnone | ⟨page, s', g', hrun, hadded, hvalid'⟩ :=
        pmInsertBlock_valid hvalid hi haligned hbound hsmall hnew
      · exact Or.inl ⟨trivial, hnone.2⟩
      · refine Or.inr ⟨s', hrun, g', ?_, h.added hvalid.buddy hadded⟩
        convert hvalid' using 2 with x
        rw [coveredBy_cons, or_assoc, or_comm (a := CoveredBy bs x)])
    ⟨g, hstart, h⟩ haddr hsize hpos hword hbound hnew
  · simp [hrun] at hrun₁
  · obtain rfl : s' = s₁ := by simpa [hrun] using hrun₁
    refine ⟨g', ?_, h'⟩
    simpa only [coveredBy_range hsize hword] using hvalid'

/-! ### States without live blocks -/

section

variable (h : Canonical s g.used blocks) (hvalid : Valid lay s g [] covered) {q : ℕ} (hq : g.used q)
include h hvalid hq

theorem Canonical.not_virt : s.state q ≠ .virt := by
  have hidle : ∀ p, g.used p → s.state p ≠ .alloced := fun p hp hlive ↦ by
    simpa using (hvalid.live_iff p).mpr ⟨hp, hlive⟩
  induction horder : s.order q using Nat.strong_induction_on generalizing q with
  | _ n ih =>
    intro hvirt
    obtain ⟨p, hp, hpos, rfl⟩ := h.child q hq hvirt
    have hpair := hvalid.buddy.tiles.paired p hp hpos
    have hfree : ∀ r, g.used r → s.order r = s.order p → s.state r = .free := by
      intro r hr hrp
      have hsplit := ih (s.order r) (by rw [← horder, hpair.order_f, hrp]; omega) hr rfl
      cases hstate : s.state r with
      | free => rfl
      | alloced => exact absurd hstate (hidle r hr)
      | virt => exact absurd hstate hsplit
    exact h.apart p hp hpos (hfree p hp rfl) (hfree _ hpair.used_b hpair.order_b)

theorem Canonical.whole : s.state q = .free ∧ s.pos q = .nobud := by
  have hfree : ∀ p, g.used p → s.state p = .free := by
    intro p hp
    cases hstate : s.state p with
    | free => rfl
    | alloced => simpa using (hvalid.live_iff p).mpr ⟨hp, hstate⟩
    | virt => exact absurd hstate (h.not_virt hvalid hp)
  refine ⟨hfree q hq, by_contra fun hpos ↦ ?_⟩
  exact h.apart q hq hpos (hfree q hq) (hfree _ (hvalid.buddy.tiles.paired q hq hpos).used_b)

end

theorem Valid.free_nodup (hvalid : Valid lay s g live covered) {k : ℕ} (hk : k < nrBuddyOrder) : (g.free k).Nodup :=
  List.Nodup.of_map _ (List.nodup_cons.mp (hvalid.buddy.rings.free_ring k hk).nodup).2

theorem Canonical.free_perm (h : Canonical s g.used blocks) (hvalid : Valid lay s g [] covered)
    {k : ℕ} (hk : k < nrBuddyOrder) : ((g.free k).map s.addr).Perm ((blocks.filter (·.2 = k)).map (·.1)) := by
  obtain ⟨roots, hnodup, hmem, hperm⟩ := h.roots
  have hfree : (g.free k).Perm (roots.filter (s.order · = k)) := by
    grind [perm_ext_iff_of_nodup, hvalid.free_nodup, hvalid.buddy.free_iff, h.whole]
  refine (hfree.map s.addr).trans ?_
  have hblocks := ((hperm.filter (·.2 = k)).map (·.1))
  rwa [filter_map, map_map] at hblocks

theorem Canonical.descs_perm (h : Canonical s g.used blocks) (hvalid : Valid lay s g [] covered) :
    (g.slots ++ (List.range nrBuddyOrder).flatMap g.free).Perm lay.descs := by
  have hbuddy := hvalid.buddy
  have hdescs : lay.descs.Nodup := nodup_slotsFrom _ _ (by decide)
  have hpool : g.slots.Nodup := (List.nodup_cons.mp hbuddy.rings.pool_ring.nodup).2
  refine (perm_ext_iff_of_nodup ?_ hdescs).mpr fun p ↦ ?_
  · refine List.nodup_append.mpr ⟨hpool, List.nodup_flatMap.mpr ⟨fun k hk ↦ ?_, ?_⟩, ?_⟩
    · exact hvalid.free_nodup (List.mem_range.mp hk)
    · refine (nodup_range).imp fun {j k} hjk p hpj hpk ↦ hjk ?_
      exact hbuddy.rings.free_once j k p hpj hpk
    grind [hbuddy.slot_unused, hbuddy.free_iff]
  · rw [mem_append, mem_flatMap]
    constructor
    · grind [hbuddy.rings.pool_mem, hbuddy.rings.free_mem]
    · intro hp
      obtain hp | hp | hp := hbuddy.all p hp
      · exact Or.inl hp
      · refine Or.inr ⟨s.order p, List.mem_range.mpr (hbuddy.tiles.order_lt p hp), ?_⟩
        exact (hbuddy.free_iff _ p).mpr ⟨hp, (h.whole hvalid hp).1, rfl⟩
      · simp at hp

end Steps

end PageAlct

namespace PmState

open PageAlct

/-- The blocks that `pm_insert` made of the inserted ranges. -/
def created (inserted : List (ℕ × ℕ)) : List (ℕ × ℕ) :=
  inserted.flatMap fun range ↦ rangeBlocks range.1 range.2 nrBuddyOrder

/-- The starts of the blocks of an order that `pm_insert` made. -/
def createdAt (inserted : List (ℕ × ℕ)) (k : ℕ) : List ℕ :=
  ((created inserted).filter (·.2 = k)).map (·.1)

def CanonicalInv (st : PmState) : Prop :=
  ∃ lay g live, lay.descs = st.descs ∧ live.Perm st.live ∧ Valid lay st.alct g live st.Covered ∧
    Canonical st.alct g.used (created st.inserted)

theorem canonicalInv_init {st : PmState} (h : system.init st) : st.CanonicalInv := by
  obtain ⟨s, addr, size, hargs, hrun, hdescs, hinserted, hlive⟩ := h
  obtain ⟨s', g, hrun', hnone, hvalid⟩ := pmInit_valid hargs
  obtain rfl : st.alct = s' := by simpa [hrun] using hrun'
  refine ⟨hargs.layout, g, [], hdescs.symm, by simp [hlive], ?_, ?_⟩
  · convert hvalid using 2 with a
    simp [Covered, hinserted]
  · exact ⟨fun p hp ↦ absurd hp (hnone p), fun p hp ↦ absurd hp (hnone p), [], by simp,
      by simp [hnone], by simp [created, hinserted]⟩

theorem canonicalInv_step {st st' : PmState} {call : PmCall} (h : st.CanonicalInv)
    (hstep : system.step st call st') : st'.CanonicalInv := by
  obtain ⟨lay, g, live, hdescs, hperm, hvalid, hcanon⟩ := h
  cases call with
  | insert addr size =>
    obtain ⟨hins, alct, hrun, rfl⟩ := hstep
    obtain ⟨g', hvalid', hcanon'⟩ := pmInsert_canonical hvalid hcanon hins.addr_aligned
      hins.size_aligned hins.size_pos hins.size_word hins.bound hins.not_covered hrun
    refine ⟨lay, g', live, hdescs, hperm, ?_, hcanon'⟩
    convert hvalid' using 2 with a
    simp only [Covered, mem_cons, exists_eq_or_imp]
    exact or_comm
  | alloc size =>
    obtain ⟨err, page, alct, hrun, rfl⟩ := hstep
    by_cases hzero : size = 0
    · obtain ⟨-, rfl, rfl⟩ : .inval = err ∧ none = page ∧ st.alct = alct := by simpa [pmAlloc, hzero] using hrun
      exact ⟨lay, g, live, hdescs, hperm, hvalid, hcanon⟩
    rcases pmAlloc_spec hvalid hzero with
      ⟨-, hnone⟩ | ⟨p, -, ⟨-, herr⟩ | ⟨page', s₁, t, g', live', hsome, hcarves, hvalid', -, hperm'⟩⟩
    · obtain ⟨-, rfl, rfl⟩ : err = .nomem ∧ page = none ∧ alct = st.alct := by simpa [hrun] using hnone
      exact ⟨lay, g, live, hdescs, hperm, hvalid, hcanon⟩
    · simp [hrun] at herr
    · obtain ⟨-, rfl, rfl⟩ : err = .ok ∧ page = some page' ∧ alct = s₁.setAllocedRbt t := by
        simpa [hrun] using hsome
      exact ⟨lay, g', live', hdescs, hperm'.trans (hperm.cons page'), hvalid',
        (hcarves.canonical hcanon).setAllocedRbt t⟩
  | free page =>
    obtain ⟨hpage, alct, hrun, rfl⟩ := hstep
    obtain ⟨s', g', hrun', hvalid', hcanon'⟩ :=
      pmFree_canonical hvalid hcanon (hperm.mem_iff.mpr hpage)
    obtain rfl : alct = s' := by simpa [hrun] using hrun'
    exact ⟨lay, g', live.erase page, hdescs, hperm.erase page, hvalid', hcanon'⟩

/-- In every state that can be reached no two halves of a split block are both free. Where no block is
live, the free lists hold, order by order, the blocks that `pm_insert` made, and the pool every other
descriptor. -/
theorem reachable_canonical {st : PmState} {slots : List ℕ} {free : ℕ → List ℕ}
    (h : system.Reachable st) (hlists : st.Lists slots free) :
    (∀ p q, st.FreeBlock slots p → st.FreeBlock slots q → ¬ st.alct.Siblings p q) ∧ (st.live = [] →
        (∀ k < nrBuddyOrder, ((free k).map st.alct.addr).Perm (createdAt st.inserted k)) ∧
          (slots ++ (List.range nrBuddyOrder).flatMap free).Perm st.descs) := by
  obtain ⟨lay, g, live, hdescs, hperm, hvalid, hcanon⟩ :=
    h.invariant (fun _ ↦ canonicalInv_init) fun _ _ _ ↦ canonicalInv_step
  obtain ⟨rfl, hfree⟩ := hlists.eq hvalid
  refine ⟨fun p q hp hq hsib ↦ ?_, fun hidle ↦ ?_⟩
  · obtain ⟨hpused, hpfree⟩ := (freeBlock_iff hdescs hvalid p).mp hp
    obtain ⟨hqused, hqfree⟩ := (freeBlock_iff hdescs hvalid q).mp hq
    obtain rfl | rfl := hvalid.buddy.tiles.only p q hpused hqused hsib.half_left hsib.half_right
      hsib.f_eq.symm
    · exact hsib.ne rfl
    · exact hcanon.apart p hpused hsib.half_left hpfree hqfree
  · obtain rfl : live = [] := List.Perm.eq_nil (hidle ▸ hperm)
    refine ⟨fun k hk ↦ ?_, ?_⟩
    · rw [hfree k hk]
      exact hcanon.free_perm hvalid hk
    · grind [flatMap_congr, hcanon.descs_perm]

/-- Eight descriptors and four pages, of which two are allocated one after the other and freed in the
same order. -/
def exampleIdle : Result (List Errno × List (Option ℕ)) := do
  let (err₁, s) ← (blank 4096).pmInit 0x100000 712
  let (err₂, s) ← s.pmInsert 0x200000 0x4000
  let (err₃, page₃, s) ← s.pmAlloc 100
  let (err₄, page₄, s) ← s.pmAlloc 4096
  let s ← s.pmFree 0x100174
  let _ ← s.pmFree 0x1001b8
  return ([err₁, err₂, err₃, err₄], [page₃, page₄])

theorem exampleIdle_eq :
    exampleIdle = .ok ([.ok, .ok, .ok, .ok], [some 0x100174, some 0x1001b8]) := by decide +kernel

/-- After the two blocks are freed, the four pages are one block again. -/
theorem reachable_canonical_example : ∃ (st : PmState) (slots : List ℕ) (free : ℕ → List ℕ),
    system.Reachable st ∧ st.Lists slots free ∧ st.inserted = [(0x200000, 0x4000)] ∧
      ((free 2).map st.alct.addr).Perm [0x200000] ∧
      (slots ++ (List.range nrBuddyOrder).flatMap free).Perm st.descs := by
  obtain ⟨⟨err₁, s₁⟩, hinit, hrest⟩ := bind_eq_ok.mp exampleIdle_eq
  obtain ⟨⟨err₂, s₂⟩, hinsert, hrest⟩ := bind_eq_ok.mp hrest
  obtain ⟨⟨err₃, page₃, s₃⟩, halloc, hrest⟩ := bind_eq_ok.mp hrest
  obtain ⟨⟨err₄, page₄, s₄⟩, halloc', hrest⟩ := bind_eq_ok.mp hrest
  obtain ⟨s₅, hfree, hrest⟩ := bind_eq_ok.mp hrest
  obtain ⟨s₆, hfree', hrest⟩ := bind_eq_ok.mp hrest
  obtain ⟨⟨rfl, rfl, rfl, rfl⟩, rfl, rfl⟩ : (err₁ = .ok ∧ err₂ = .ok ∧ err₃ = .ok ∧ err₄ = .ok) ∧
      page₃ = some 0x100174 ∧ page₄ = some 0x1001b8 := by simpa using hrest
  have halloced : system.Reachable
      ⟨s₄, initDescs 0x100000 712, [(0x200000, 0x4000)], [0x1001b8, 0x100174]⟩ :=
    .step (.step (reachable_inserted hinit hinsert) trivial (a := .alloc 100)
      ⟨.ok, some 0x100174, s₃, halloc, rfl⟩) trivial
      (a := .alloc 4096) ⟨.ok, some 0x1001b8, s₄, halloc', rfl⟩
  have hreach : system.Reachable ⟨s₆, initDescs 0x100000 712, [(0x200000, 0x4000)], []⟩ :=
    .step (.step halloced trivial (a := .free 0x100174) ⟨by simp, s₅, hfree, rfl⟩) trivial
      (a := .free 0x1001b8) ⟨by simp, s₆, hfree', by simp⟩
  have hinv := hreach.invariant (fun _ ↦ inv_init) fun _ _ _ ↦ inv_step
  obtain ⟨slots, free, hlists⟩ := hinv.exists_lists
  obtain ⟨-, hidle⟩ := reachable_canonical hreach hlists
  exact ⟨_, slots, free, hreach, hlists, rfl, (hidle rfl).1 2 (by decide), (hidle rfl).2⟩

end PmState

end Lanthorn
