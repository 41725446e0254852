import Mathlib.Data.Nat.Log
import Lanthorn.Library.Run
import Lanthorn.Memory.PmBuddy

/-!
# The contract of the physical allocator

`Valid` joins the buddy system with the tree of live blocks: the tree is a red-black tree whose nodes are those of
the live blocks, ordered by address. Each call keeps it: `pmInsert_valid`, `pmAlloc_valid`, `pmFree_valid`, from
the state that `pm_init` leaves (`pmInit_valid`).

`system` is the allocator together with what its users know. `reachable_contract` is the contract in every
reachable state.
-/

namespace Lanthorn

open Library List

namespace PageAlct

def rbtNodes (ps : List ℕ) : List ℕ := ps.map (· + pageRbtNode)

theorem containerOf_rbtNode {lay : Layout} {p : ℕ} (hp : p ∈ lay.descs) :
    containerOf (p + pageRbtNode) pageRbtNode = p := by
  have := (Layout.descs_bounds hp).2
  exact containerOf_add (by simp only [pageRbtNode]; omega)

/-- The state of the allocator between two calls, with the live blocks in the order of their
addresses. -/
structure Valid (lay : Layout) (s : PageAlct) (g : Contents) (live : List ℕ) (covered : ℕ → Prop) : Prop where
  buddy : Buddy lay s g [] covered
  tree : ∃ T, s.allocedRbt.Holds T ∧ RedBlack T ∧ T.inorder = rbtNodes live
  ordered : live.Pairwise fun p q ↦ s.addr p < s.addr q
  live_iff : ∀ p, p ∈ live ↔ g.used p ∧ s.state p = .alloced

section Calls

variable {lay : Layout} {s : PageAlct} {g : Contents} {live : List ℕ} {covered : ℕ → Prop}

variable {p a pages i page size addr : ℕ}

theorem Valid.live_mem (h : Valid lay s g live covered) (hp : p ∈ live) : p ∈ lay.descs :=
  h.buddy.used_mem p ((h.live_iff p).mp hp).1

theorem Valid.live_nodup (h : Valid lay s g live covered) : live.Nodup :=
  h.ordered.imp fun {p q} hlt heq ↦ by simp [heq] at hlt

theorem Valid.addr_inj (h : Valid lay s g live covered) {q : ℕ} (hp : p ∈ live) (hq : q ∈ live)
    (heq : s.addr p = s.addr q) : p = q := by
  by_contra hne
  obtain ⟨hpu, hps⟩ := (h.live_iff p).mp hp
  obtain ⟨hqu, hqs⟩ := (h.live_iff q).mp hq
  have hapart := h.buddy.tiles.disjoint p q hpu hqu (by simp [hps]) (by simp [hqs]) hne
  have hpsize := h.buddy.tiles.size_pos hpu
  have hqsize := h.buddy.tiles.size_pos hqu
  omega

theorem compareAddr_rbtNode (hp : p ∈ lay.descs) (a : ℕ) :
    s.compareAddr a (p + pageRbtNode) = Rbt.compareKeys a (s.addr p) := by rw [compareAddr, containerOf_rbtNode hp]

theorem guides_compareAddr {live : List ℕ} (hmem : ∀ p ∈ live, p ∈ lay.descs)
    (hordered : live.Pairwise fun p q ↦ s.addr p < s.addr q) (a : ℕ) :
    Rbt.Guides (s.compareAddr a) (rbtNodes live) := by
  refine Rbt.guides_compareKeys (fun n ↦ s.addr (containerOf n pageRbtNode)) a ?_
  grind [rbtNodes, hordered.imp_of_mem, containerOf_rbtNode]

theorem pmGetPage_spec (h : Valid lay s g live covered) (haligned : a % pageSize = 0) :
    (∃ p ∈ live, s.addr p = a ∧ s.pmGetPage a = .ok (some p)) ∨
      (∀ p ∈ live, s.addr p ≠ a) ∧ s.pmGetPage a = .ok none := by
  obtain ⟨T, hT, -, hinorder⟩ := h.tree
  have hguides := guides_compareAddr (fun q hq ↦ h.live_mem hq) h.ordered a
  rw [← hinorder] at hguides
  have hrun : s.pmGetPage a = (s.allocedRbt.search (s.compareAddr a)).bind fun n ↦
      .ok (if n = 0 then none else some (containerOf n pageRbtNode)) := by
    simp [pmGetPage, rbtFind, haligned, bind, pure, Except.bind, Except.pure]
  obtain ⟨n, hn, heq, hsearch⟩ | ⟨hnone, hsearch⟩ := Rbt.search_spec hT hguides
  · rw [hinorder] at hn
    obtain ⟨p, hp, rfl⟩ := List.mem_map.mp hn
    rw [compareAddr_rbtNode (h.live_mem hp), Rbt.compareKeys_eq_eq] at heq
    grind [pageRbtNode, Except.bind, containerOf_rbtNode, h.live_mem]
  · refine Or.inr ⟨fun p hp hpa ↦ hnone (p + pageRbtNode) ?_ ?_, by simp [hrun, hsearch, Except.bind]⟩
    · rw [hinorder]
      exact List.mem_map.mpr ⟨p, hp, rfl⟩
    · rw [compareAddr_rbtNode (h.live_mem hp), Rbt.compareKeys_eq_eq, hpa]

theorem pmGetPage_iff (h : Valid lay s g live covered) (a p : ℕ) :
    s.pmGetPage a = .ok (some p) ↔ p ∈ live ∧ s.addr p = a := by
  by_cases haligned : a % pageSize = 0
  · grind [pmGetPage_spec, h.addr_inj]
  · refine iff_of_false (by simp [pmGetPage, assert, haligned]) ?_
    rintro ⟨hp, rfl⟩
    exact haligned (h.buddy.tiles.aligned p ((h.live_iff p).mp hp).1)

/-! ### `pm_alloc` -/

/-- The order that `pm_alloc` looks for: the least whose blocks have as many pages as the size is
rounded to. -/
def orderOf (size : ℕ) : ℕ := Nat.clog 2 (roundUp size pageSize / pageSize)

theorem orderLoop_some (hfit : pages ≤ 2 ^ i) : orderLoop pages i (some i) = some (Nat.clog 2 pages) := by
  induction i with
  | zero => rw [orderLoop, Nat.clog_of_right_le_one (by simpa using hfit)]
  | succ i ih =>
    rw [orderLoop]
    split_ifs with hless
    · exact ih hless
    · have hle : Nat.clog 2 pages ≤ i + 1 := Nat.clog_le_of_le_pow hfit
      have hlt : i < Nat.clog 2 pages := by
        by_contra hge
        exact hless ((Nat.clog_le_iff_le_pow Nat.one_lt_two).mp (by omega))
      rw [show Nat.clog 2 pages = i + 1 by omega]

theorem orderLoop_eq (size : ℕ) :
    orderLoop (roundUp size pageSize / pageSize) nrBuddyOrder none = some (orderOf size) := by
  have hfit : roundUp size pageSize / pageSize ≤ 2 ^ 20 := by
    simp only [roundUp, pageSize, addressSpace]
    omega
  rw [nrBuddyOrder, orderLoop, if_pos hfit]
  exact orderLoop_some hfit

theorem Buddy.setAllocedRbt {raw : List ℕ} (h : Buddy lay s g raw covered) (t : Rbt) :
    Buddy lay (s.setAllocedRbt t) g raw covered :=
  ⟨h.head_eq, h.slot_eq, h.rings, h.tiles.congr ⟨fun _ _ ↦ rfl, fun _ _ ↦ rfl, fun _ _ ↦ rfl,
    fun _ _ ↦ rfl, fun _ _ ↦ rfl, fun _ _ ↦ rfl, fun _ _ ↦ Iff.rfl⟩, h.used_mem, h.slot_unused,
    h.free_iff, h.all, h.raw_mem, h.raw_nodup⟩

theorem rbtInsert_valid (hbuddy : Buddy lay s g [] covered)
    (htree : ∃ T, s.allocedRbt.Holds T ∧ RedBlack T ∧ T.inorder = rbtNodes live)
    (hordered : live.Pairwise fun p q ↦ s.addr p < s.addr q)
    (hlive : ∀ p, p ∈ live ↔ LiveExcept s g page p) (hused : g.used page) (hstate : s.state page = .alloced) :
    ∃ t' live', s.rbtInsert page = .ok (.ok, s.setAllocedRbt t') ∧
      Valid lay (s.setAllocedRbt t') g live' covered ∧ live'.Perm (page :: live) := by
  obtain ⟨T, hT, hrb, hinorder⟩ := htree
  have hmem : ∀ p ∈ live, p ∈ lay.descs := fun p hp ↦ hbuddy.used_mem p ((hlive p).mp hp).1
  have hpage := hbuddy.used_mem page hused
  have hguides := guides_compareAddr (s := s) hmem hordered (s.addr page)
  -- the block is disjoint from the other live blocks, so its start is none of theirs
  have hne : ∀ n ∈ T.inorder, s.compareAddr (s.addr page) n ≠ .eq := by
    intro n hn heq
    rw [hinorder] at hn
    obtain ⟨q, hq, rfl⟩ := List.mem_map.mp hn
    rw [compareAddr_rbtNode (hmem q hq), Rbt.compareKeys_eq_eq] at heq
    obtain ⟨hqu, hqs, hqp⟩ := (hlive q).mp hq
    have hapart := hbuddy.tiles.disjoint q page hqu hused (by simp [hqs]) (by simp [hstate]) hqp
    have hqsize := hbuddy.tiles.size_pos hqu
    have hpsize := hbuddy.tiles.size_pos hused
    omega
  have hbounds := Layout.descs_bounds hpage
  have hfresh : page + pageRbtNode ∉ T.inorder := by
    rw [hinorder]
    intro hn
    obtain ⟨q, hq, heq⟩ := List.mem_map.mp hn
    exact ((hlive q).mp hq).2.2 (by omega)
  rw [← hinorder] at hguides
  obtain ⟨t', T', xs, ys, hrun, hT', hrb', hsplit, hinorder', hgt, hlt, -⟩ :=
    Rbt.insertBy_holds hT hrb hguides hne (x := page + pageRbtNode) (by simp [pageRbtNode])
      (by simp only [pageRbtNode]; omega) hfresh
  obtain ⟨before, after, hparts, rfl, rfl⟩ := List.map_eq_append_iff.mp (hinorder.symm.trans hsplit)
  have hperm : (before ++ page :: after).Perm (page :: live) := hparts ▸ perm_middle
  refine ⟨t', before ++ page :: after, ?_, ⟨hbuddy.setAllocedRbt t', ⟨T', hT', hrb', ?_⟩, ?_, fun p ↦ ?_⟩, hperm⟩
  · simp [rbtInsert, hrun]
  · rw [hinorder']
    simp [rbtNodes]
  · refine Rbt.pairwise_insert (hparts ▸ hordered) (fun q hq ↦ ?_) (fun q hq ↦ ?_)
    · have hcmp := hgt _ (mem_map_of_mem hq)
      rwa [compareAddr_rbtNode (hmem q (by simp [hparts, hq])), Rbt.compareKeys_eq_gt] at hcmp
    · have hcmp := hlt _ (mem_map_of_mem hq)
      rwa [compareAddr_rbtNode (hmem q (by simp [hparts, hq])), Rbt.compareKeys_eq_lt] at hcmp
  grind [setAllocedRbt, LiveExcept]

/-- `pm_alloc` of some bytes: there is no block of the order or above it, and nothing changes; or it
carves a block from the first that fits and makes it live; or the pool has not two descriptors for
every split. -/
theorem pmAlloc_spec (h : Valid lay s g live covered) (hsize : size ≠ 0) :
    ((∀ i, orderOf size ≤ i → i < nrBuddyOrder → g.free i = []) ∧ s.pmAlloc size = .ok (.nomem, none, s)) ∨
      ∃ p, FirstFit s g.free (orderOf size) p ∧
        ((g.slots.length < 2 * (s.order p - orderOf size) ∧ s.pmAlloc size = .error .unset) ∨
          ∃ page s₁ t g' live', s.pmAlloc size = .ok (.ok, some page, s₁.setAllocedRbt t) ∧
            Carves lay [] covered s g p (orderOf size) page s₁ g' ∧
            Valid lay (s₁.setAllocedRbt t) g' live' covered ∧ page ∉ live ∧ live'.Perm (page :: live)) := by
  have horder := orderLoop_eq size
  rcases buddyAlloc_spec h.buddy (orderOf size) (nrBuddyOrder + 1) (by simp) (by omega) with
    ⟨hempty, hrun⟩ | ⟨p, hfit, ⟨hfew, hrun⟩ | ⟨page, s₁, g₁, hrun₁, h₁, hcarves⟩⟩
  · refine Or.inl ⟨hempty, ?_⟩
    simp [pmAlloc, hsize, horder, hrun]
  · refine Or.inr ⟨p, hfit, Or.inl ⟨hfew, ?_⟩⟩
    simp [pmAlloc, hsize, horder, hrun]
  obtain ⟨-, hused₁, hstate₁, -, -, -, -, hothers₁⟩ := hcarves.spec h.buddy
  have hlive₁ : ∀ p, p ∈ live ↔ LiveExcept s₁ g₁ page p := by
    intro p
    rw [hothers₁.live, h.live_iff, LiveExcept]
    refine ⟨fun hp ↦ ⟨hp.1, hp.2, ?_⟩, fun hp ↦ ⟨hp.1, hp.2.1⟩⟩
    exact Layout.descs_ne_zero (h.buddy.used_mem p hp.1)
  have hordered₁ : live.Pairwise fun p q ↦ s₁.addr p < s₁.addr q := by
    grind [h.ordered.imp_of_mem, hothers₁.kept, hothers₁.live]
  obtain ⟨t, live', hrun', h', hperm⟩ :=
    rbtInsert_valid h₁ (hothers₁.tree ▸ h.tree) hordered₁ hlive₁ hused₁ hstate₁
  refine Or.inr ⟨p, hfit, Or.inr ⟨page, s₁, t, g₁, live', ?_, hcarves, h', fun hmem ↦ ?_, hperm⟩⟩
  · simp [pmAlloc, hsize, horder, hrun₁, hrun']
  · exact ((hlive₁ page).mp hmem).2.2 rfl

theorem pmAlloc_valid (h : Valid lay s g live covered) (size : ℕ) :
    s.pmAlloc size = .error .unset ∨ (∃ err, err ≠ .ok ∧ s.pmAlloc size = .ok (err, none, s)) ∨
      ∃ page s' g' live', s.pmAlloc size = .ok (.ok, some page, s') ∧
        Valid lay s' g' live' covered ∧ page ∉ live ∧ live'.Perm (page :: live) := by
  by_cases hzero : size = 0
  · exact Or.inr (Or.inl ⟨.inval, by simp, by simp [pmAlloc, hzero]⟩)
  grind [pmAlloc_spec]

/-! ### `pm_free` -/

theorem pmFree_of_put {s₁ : PageAlct} {g₁ : Contents} (h : Valid lay s g live covered)
    (hpage : page ∈ live) (hrun₁ : s.buddyPut page = .ok s₁) (h₁ : Buddy lay s₁ g₁ [] covered)
    (hothers₁ : SameOthers s g page s₁ g₁ 0) : ∃ t, s.pmFree page = .ok (s₁.setAllocedRbt t) ∧
      Valid lay (s₁.setAllocedRbt t) g₁ (live.erase page) covered := by
  obtain ⟨T, hT, hrb, hinorder⟩ := h.tree
  rw [← hothers₁.tree] at hT
  have hmem : page + pageRbtNode ∈ T.inorder := hinorder ▸ mem_map_of_mem hpage
  obtain ⟨t', T', hrun', hT', hrb', hinorder', -⟩ := Rbt.rbtDelete_holds hT hrb hmem
  have hlive₁ : ∀ p, p ∈ live.erase page ↔ LiveExcept s g page p := by
    intro p
    rw [h.live_nodup.mem_erase_iff, h.live_iff, LiveExcept]
    tauto
  refine ⟨t', ?_, h₁.setAllocedRbt t', ⟨T', hT', hrb', ?_⟩, ?_, fun p ↦ ?_⟩
  · simp [pmFree, hrun₁, hrun']
  · rw [hinorder', hinorder, rbtNodes, rbtNodes]
    exact (map_erase (fun _ _ heq ↦ Nat.add_right_cancel heq) live).symm
  · refine (h.ordered.sublist erase_sublist).imp_of_mem fun {p q} hp hq hlt ↦ ?_
    have haddr : ∀ r ∈ live.erase page, s₁.addr r = s.addr r := fun r hr ↦
      (hothers₁.kept r ((hlive₁ r).mp hr)).1
    change s₁.addr p < s₁.addr q
    rwa [haddr p hp, haddr q hq]
  · rw [hlive₁, ← hothers₁.live, LiveExcept]
    change _ ↔ g₁.used p ∧ s₁.state p = .alloced
    refine ⟨fun hp ↦ ⟨hp.1, hp.2.1⟩, fun hp ↦ ⟨hp.1, hp.2, ?_⟩⟩
    exact Layout.descs_ne_zero (h₁.used_mem p hp.1)

theorem pmFree_valid (h : Valid lay s g live covered) (hpage : page ∈ live) :
    ∃ s' g', s.pmFree page = .ok s' ∧ Valid lay s' g' (live.erase page) covered := by
  grind [h.live_iff, buddyPut_spec, h.buddy, pmFree_of_put]

/-! ### `pm_insert` -/

theorem Valid.of_sameOthers (h : Valid lay s g live covered) {s' : PageAlct} {g' : Contents}
    {covered' : ℕ → Prop} (hbuddy : Buddy lay s' g' [] covered') (hsame : SameOthers s g 0 s' g' 0) :
    Valid lay s' g' live covered' := by
  have hlive : ∀ p, p ∈ live ↔ LiveExcept s g 0 p := by
    intro p
    rw [h.live_iff, LiveExcept]
    refine ⟨fun hp ↦ ⟨hp.1, hp.2, ?_⟩, fun hp ↦ ⟨hp.1, hp.2.1⟩⟩
    exact Layout.descs_ne_zero (h.buddy.used_mem p hp.1)
  refine ⟨hbuddy, hsame.tree ▸ h.tree, ?_, fun p ↦ ?_⟩
  · grind [h.ordered.imp_of_mem, hsame.kept]
  · rw [hlive, ← hsame.live, LiveExcept]
    refine ⟨fun hp ↦ ⟨hp.1, hp.2.1⟩, fun hp ↦ ⟨hp.1, hp.2, ?_⟩⟩
    exact Layout.descs_ne_zero (hbuddy.used_mem p hp.1)

theorem setBlock_spec {raw : List ℕ} (h : Buddy lay s g (page :: raw) covered)
    (hi : i < nrBuddyOrder) (haligned : a % pageSize = 0)
    (hbound : a + 2 ^ i * pageSize ≤ addressSpace) (hsmall : 2 ^ i * pageSize < addressSpace)
    (hnew : ∀ x, a ≤ x → x < a + 2 ^ i * pageSize → ¬ covered x) :
    Buddy lay (s.setBlock page a i) { g with used := fun p ↦ g.used p ∨ p = page } raw
        (fun x ↦ covered x ∨ a ≤ x ∧ x < a + 2 ^ i * pageSize) ∧
      SameOthers s g 0 (s.setBlock page a i) { g with used := fun p ↦ g.used p ∨ p = page } page := by
  obtain ⟨hdesc, hslot, hunused⟩ := h.raw_mem page (by simp)
  obtain ⟨hfresh, hnodup⟩ := List.nodup_cons.mp h.raw_nodup
  have hne : ∀ p, g.used p → p ≠ page := fun p hp heq ↦ hunused (heq ▸ hp)
  have hsame : s.SameBlocks (s.setBlock page a i) g.used := by
    constructor
    all_goals intro p hp; simp [setBlock, hne p hp]
  have hwithin : ∀ x, (s.setBlock page a i).Within page x ↔ a ≤ x ∧ x < a + 2 ^ i * pageSize := by
    intro x
    simp [Within, setBlock, Nat.mod_eq_of_lt hsmall]
  have htiles : (s.setBlock page a i).Tiles (fun p ↦ g.used p ∨ p = page)
      (fun x ↦ covered x ∨ (s.setBlock page a i).Within page x) := by
    refine h.tiles.add hsame ?_ ?_ ?_ ?_ ?_ ?_ fun x hx ↦ ?_
    · simpa [setBlock] using hi
    · simp only [setBlock, Function.update_self, Nat.mod_eq_of_lt hsmall]
      exact Nat.mul_comm _ _
    · simpa [setBlock] using haligned
    · simpa only [setBlock, Function.update_self, Nat.mod_eq_of_lt hsmall] using hbound
    · simp [setBlock]
    · simp [setBlock]
    · exact hnew x ((hwithin x).mp hx).1 ((hwithin x).mp hx).2
  simp only [hwithin] at htiles
  refine ⟨⟨h.head_eq, h.slot_eq, ?_, htiles, ?_, ?_, ?_, fun p hp ↦ ?_, fun p hp ↦ ?_, hnodup⟩,
    rfl, fun p ↦ ?_, fun p hp ↦ ?_⟩
  · obtain ⟨hring, hmem, hfree, hfree_mem, honce⟩ := h.rings
    refine ⟨hring.congr fun y hy ↦ ?_, hmem, hfree, hfree_mem, honce⟩
    have hy : y ≠ page := by grind [Layout.descs_ne_slotHead]
    simp [Links.AgreeAt, slots, setBlock, hy]
  · rintro p (hp | rfl)
    exacts [h.used_mem p hp, hdesc]
  · rintro p hp (hused | rfl)
    exacts [h.slot_unused p hp hused, hslot hp]
  · intro k p
    by_cases hp : p = page
    · simp [hp, setBlock, h.free_iff, hunused]
    · simp [hp, setBlock, h.free_iff]
  · have hall := h.all p hp
    simp only [mem_cons] at hall
    tauto
  · grind [h.raw_mem]
  · have hzero : g.used p → p ≠ 0 := fun hp ↦ Layout.descs_ne_zero (h.used_mem p hp)
    by_cases hp : p = page
    · simp [LiveExcept, hp, hunused]
    · simp only [LiveExcept, setBlock, hp, or_false, ne_eq, not_false_eq_true, Function.update_of_ne]
      tauto
  · have hp := hne p hp.1
    simp [setBlock, hp]

/-- A round of `pm_insert`: the first descriptor of the pool gets a block, which is free. -/
structure Added (s : PageAlct) (g : Contents) (page a i : ℕ) (s' : PageAlct) (g' : Contents) : Prop where
  slots : g.slots = page :: g'.slots
  used : ∀ q, g'.used q ↔ g.used q ∨ q = page
  frame : Frame s s' g.used
  state : ∀ q, g.used q → s'.state q = s.state q
  fresh : ¬ g.used page
  addr : s'.addr page = a
  order : s'.order page = i
  pos : s'.pos page = .nobud
  free : s'.state page = .free

theorem pmInsertBlock_valid (h : Valid lay s g live covered) (hi : i < nrBuddyOrder)
    (haligned : a % pageSize = 0) (hbound : a + 2 ^ i * pageSize ≤ addressSpace)
    (hsmall : 2 ^ i * pageSize < addressSpace) (hnew : ∀ x, a ≤ x → x < a + 2 ^ i * pageSize → ¬ covered x) :
    g.slots = [] ∧ s.pmInsertBlock a i = .ok (.noslot, s) ∨
      ∃ page s' g', s.pmInsertBlock a i = .ok (.ok, s') ∧ Added s g page a i s' g' ∧
        Valid lay s' g' live fun x ↦ covered x ∨ a ≤ x ∧ x < a + 2 ^ i * pageSize := by
  obtain ⟨hempty, hnone⟩ | ⟨page, rest, s₁, hslots, hrun₁, h₁, hframe₁, hstate₁⟩ := newPage_spec h.buddy
  · refine .inl ⟨hempty, ?_⟩
    simp [pmInsertBlock, hnone]
  right
  have hfresh : ¬ g.used page := (h₁.raw_mem page (by simp)).2.2
  have hne : ∀ q, g.used q → q ≠ page := fun q hq heq ↦ hfresh (heq ▸ hq)
  obtain ⟨h₂, hothers₂⟩ := setBlock_spec h₁ hi haligned hbound hsmall hnew
  have hstate₂ : (s₁.setBlock page a i).state page = .alloced := by simp [setBlock]
  -- the new block is no half of another, so nothing is merged
  obtain ⟨s', g', hrun', h', hreleased⟩ := buddyPut_of_loop (h₂.tiles.order_lt page (by simp)) hstate₂
    (buddyPutLoop_stop (Or.inl (by simp [setBlock])) (addressSpace - 1)) h₂ (by simp) hstate₂
  have hothers := ((hframe₁.sameOthers_newPage hstate₁ 0).trans hothers₂).trans
    (hreleased.sameOthers h₂)
  obtain ⟨rfl, hframe', hstate'⟩ := hreleased
  refine ⟨page, s', _, ?_, ⟨hslots, fun _ ↦ Iff.rfl, ?_, fun q hq ↦ ?_, hfresh, ?_, ?_, ?_, ?_⟩,
    h.of_sameOthers h' hothers⟩
  · simp [pmInsertBlock, hrun₁, hrun']
  · have hframe₂ : Frame s₁ (s₁.setBlock page a i) g.used := by
      refine ⟨rfl, fun q hq ↦ ?_, fun q hq ↦ ?_, fun q hq ↦ ?_, fun _ _ ↦ rfl, fun _ _ ↦ rfl, fun q hq ↦ ?_⟩
      all_goals simp [setBlock, hne q hq]
    exact (hframe₁.trans hframe₂ fun _ hp ↦ hp).trans (hframe' g.used) fun _ hp ↦ hp
  · simp [hstate', setBlock, hne q hq, hstate₁]
  · simp [(hframe' fun _ ↦ True).addr _ trivial, setBlock]
  · simp [(hframe' fun _ ↦ True).order _ trivial, setBlock]
  · simp [(hframe' fun _ ↦ True).pos _ trivial, setBlock]
  · simp [hstate']

/-- The blocks, each with its order, that `pm_insert` makes of a range in the orders below `i`: one
for every bit of the number of pages, the smaller ones first. -/
def rangeBlocks (addr size : ℕ) : ℕ → List (ℕ × ℕ)
  | 0 => []
  | i + 1 =>
    if (size / pageSize).testBit i then
      (addr + size / pageSize % 2 ^ i * pageSize, i) :: rangeBlocks addr size i
    else rangeBlocks addr size i

def CoveredBy (blocks : List (ℕ × ℕ)) (x : ℕ) : Prop :=
  ∃ b ∈ blocks, b.1 ≤ x ∧ x < b.1 + 2 ^ b.2 * pageSize

theorem coveredBy_cons (b : ℕ × ℕ) (bs : List (ℕ × ℕ)) (x : ℕ) :
    CoveredBy (b :: bs) x ↔ (b.1 ≤ x ∧ x < b.1 + 2 ^ b.2 * pageSize) ∨ CoveredBy bs x := by
  simp only [CoveredBy, mem_cons, exists_eq_or_imp]

theorem mod_succ_of_testBit (hbit : pages.testBit i = true) : pages % 2 ^ (i + 1) = pages % 2 ^ i + 2 ^ i := by
  grind [Nat.mod_pow_succ]

theorem mod_succ_of_not_testBit (hbit : ¬ pages.testBit i = true) : pages % 2 ^ (i + 1) = pages % 2 ^ i := by
  rw [Nat.testBit_eq_decide_div_mod_eq, decide_eq_true_eq] at hbit
  rw [Nat.mod_pow_succ, show pages / 2 ^ i % 2 = 0 by omega, Nat.mul_zero, Nat.add_zero]

theorem coveredBy_rangeBlocks (addr size i x : ℕ) : CoveredBy (rangeBlocks addr size i) x ↔
      addr ≤ x ∧ x < addr + size / pageSize % 2 ^ i * pageSize := by
  induction i with
  | zero => grind [rangeBlocks, CoveredBy]
  | succ i ih =>
    rw [rangeBlocks]
    split_ifs with hbit
    · rw [coveredBy_cons, ih, mod_succ_of_testBit hbit, Nat.add_mul]
      dsimp only
      omega
    · rw [ih, mod_succ_of_not_testBit hbit]

section

variable {P : PageAlct → List (ℕ × ℕ) → Prop} {F : PageAlct → Prop}
  (hblock : ∀ {s bs a i}, P s bs → i < nrBuddyOrder → a % pageSize = 0 → a + 2 ^ i * pageSize ≤ addressSpace →
    2 ^ i * pageSize < addressSpace → (∀ x, a ≤ x → x < a + 2 ^ i * pageSize → ¬ (covered x ∨ CoveredBy bs x)) →
    F s ∧ s.pmInsertBlock a i = .ok (.noslot, s) ∨ ∃ s', s.pmInsertBlock a i = .ok (.ok, s') ∧ P s' ((a, i) :: bs))
include hblock

/-- The loop of `pm_insert` from the order `i` on, with the blocks of the lower orders in place:
whatever every round keeps holds with the blocks that were added. Assumes: the range is inside the
address space and outside what is covered. `F` is what a round without a descriptor tells. -/
theorem pmInsertLoop_rule (haligned : addr % pageSize = 0) (hsize : size / pageSize < 2 ^ 20)
    (hbound : addr + size / pageSize * pageSize ≤ addressSpace)
    (hnew : ∀ x, addr ≤ x → x < addr + size / pageSize * pageSize → ¬ covered x) (count i cur : ℕ)
    (h : P s (rangeBlocks addr size i)) (hcount : i + count = nrBuddyOrder)
    (hcur : cur = (addr + size / pageSize % 2 ^ i * pageSize) % addressSpace) :
    ∃ err s', pmInsertLoop size count i s cur = .ok (err, s') ∧
      ((err = .noslot ∧ F s' ∧ ∃ k, P s' (rangeBlocks addr size k)) ∨
        err = .ok ∧ P s' (rangeBlocks addr size nrBuddyOrder)) := by
  induction count generalizing s cur i with
  | zero => exact ⟨.ok, s, rfl, Or.inr ⟨rfl, hcount ▸ h⟩⟩
  | succ count ih =>
    set pages := size / pageSize with hpages
    by_cases hbit : pages.testBit i
    · have hsucc := mod_succ_of_testBit hbit
      have hle : pages % 2 ^ (i + 1) ≤ pages := Nat.mod_le _ _
      have hpow : 2 ^ i * pageSize + pages % 2 ^ i * pageSize = pages % 2 ^ (i + 1) * pageSize := by
        rw [hsucc, Nat.add_mul, Nat.add_comm]
      have hfit : pages % 2 ^ (i + 1) * pageSize ≤ pages * pageSize := Nat.mul_le_mul_right _ hle
      have hpos := blockSize_pos i
      rw [Nat.mul_comm] at hpos
      have hpages_bound : pages * pageSize < addressSpace := by
        simp only [pageSize, addressSpace]
        omega
      have hcur' : cur = addr + pages % 2 ^ i * pageSize :=
        hcur.trans (Nat.mod_eq_of_lt (by omega))
      have hcur_aligned : cur % pageSize = 0 := by rw [hcur', Nat.add_mul_mod_self_right, haligned]
      rw [pmInsertLoop, if_pos hbit]
      obtain ⟨hfull, hnone⟩ | ⟨s₁, hrun₁, h₁⟩ := hblock h (show i < nrBuddyOrder by omega) hcur_aligned
        (by omega) (by omega) fun x hx hx' ↦ by grind [coveredBy_rangeBlocks]
      · exact ⟨.noslot, s, by rw [hnone]; rfl, Or.inl ⟨rfl, hfull, i, h⟩⟩
      rw [hrun₁]
      refine ih (i + 1) (wordAdd cur (2 ^ i * pageSize % addressSpace)) ?_ (by omega) ?_
      · rw [rangeBlocks, if_pos hbit, ← hpages, ← hcur']
        exact h₁
      · rw [wordAdd, Nat.add_mod_mod, hcur', ← hpow]
        congr 1
        omega
    · have hsucc := mod_succ_of_not_testBit hbit
      rw [pmInsertLoop, if_neg hbit]
      refine ih (i + 1) cur ?_ (by omega) (by rw [hsucc, hcur])
      rwa [rangeBlocks, if_neg hbit]

/-- `pm_insert` of a range outside what is covered: whatever every round keeps holds with the blocks
that were added, all those of the range unless the pool is exhausted. Assumes: the range is not
empty, consists of pages, and is inside the address space. -/
theorem pmInsert_rule (h : P s []) (haddr : addr % pageSize = 0) (hsize : size % pageSize = 0)
    (hpos : 0 < size) (hword : size < addressSpace) (hbound : addr + size ≤ addressSpace)
    (hnew : ∀ x, addr ≤ x → x < addr + size → ¬ covered x) : ∃ err s', s.pmInsert addr size = .ok (err, s') ∧
      ((err = .noslot ∧ F s' ∧ ∃ k, P s' (rangeBlocks addr size k)) ∨
        err = .ok ∧ P s' (rangeBlocks addr size nrBuddyOrder)) := by
  have hpages : size / pageSize * pageSize = size := Nat.div_mul_cancel (Nat.dvd_of_mod_eq_zero hsize)
  have hlt : size / pageSize < 2 ^ 20 := by
    simp only [pageSize, addressSpace] at *
    omega
  rw [pmInsert, assert_of_true ⟨hsize, hpos, haddr⟩]
  refine pmInsertLoop_rule hblock haddr hlt (by rwa [hpages]) (by rwa [hpages]) nrBuddyOrder 0 addr h
    (Nat.zero_add _) ?_
  rw [pow_zero, Nat.mod_one, Nat.zero_mul, Nat.add_zero, Nat.mod_eq_of_lt (by omega)]

end

theorem coveredBy_range (hsize : size % pageSize = 0) (hword : size < addressSpace) (x : ℕ) :
    CoveredBy (rangeBlocks addr size nrBuddyOrder) x ↔ addr ≤ x ∧ x < addr + size := by
  grind [pageSize, nrBuddyOrder, addressSpace, coveredBy_rangeBlocks]

/-- `pm_insert` of a range outside what is covered: the start of the range is added until the pool is
exhausted, or the range is added. Assumes: the range is not empty, consists of pages, and is inside
the address space. -/
theorem pmInsert_valid (h : Valid lay s g live covered) (haddr : addr % pageSize = 0)
    (hsize : size % pageSize = 0) (hpos : 0 < size) (hword : size < addressSpace)
    (hbound : addr + size ≤ addressSpace) (hnew : ∀ x, addr ≤ x → x < addr + size → ¬ covered x) :
    ∃ err s' part g', s.pmInsert addr size = .ok (err, s') ∧
      (err = .noslot ∧ part ≤ size ∨ err = .ok ∧ part = size) ∧
      Valid lay s' g' live fun x ↦ covered x ∨ addr ≤ x ∧ x < addr + part := by
  have hpages : size / pageSize * pageSize = size := Nat.div_mul_cancel (Nat.dvd_of_mod_eq_zero hsize)
  have hstart : Valid lay s g live fun x ↦ covered x ∨ CoveredBy [] x := by
    convert h using 2 with x
    simp [CoveredBy]
  obtain ⟨err, s', hrun, ⟨rfl, -, k, g', h'⟩ | ⟨rfl, g', h'⟩⟩ := pmInsert_rule
    (P := fun s bs ↦ ∃ g, Valid lay s g live fun x ↦ covered x ∨ CoveredBy bs x) (F := fun _ ↦ True)
    (fun {s bs a i} ⟨g, h⟩ hi haligned hbound hsmall hnew ↦ by
      obtain hnone | ⟨page, s', g', hrun, -, h'⟩ :=
        pmInsertBlock_valid h hi haligned hbound hsmall hnew
      · exact Or.inl ⟨trivial, hnone.2⟩
      · refine Or.inr ⟨s', hrun, g', ?_⟩
        convert h' using 2 with x
        rw [coveredBy_cons, or_assoc, or_comm (a := CoveredBy bs x)])
    ⟨g, hstart⟩ haddr hsize hpos hword hbound hnew
  · refine ⟨.noslot, s', size / pageSize % 2 ^ k * pageSize, g', hrun, Or.inl ⟨rfl, ?_⟩, ?_⟩
    · exact (Nat.mul_le_mul_right _ (Nat.mod_le _ _)).trans hpages.le
    · simpa only [coveredBy_rangeBlocks] using h'
  · refine ⟨.ok, s', size, g', hrun, Or.inr ⟨rfl, rfl⟩, ?_⟩
    simpa only [coveredBy_range hsize hword] using h'

end Calls

/-! ### `pm_init` -/

theorem initHeads_ring (L : Links ℕ) (head : ℕ) {count k : ℕ} (hk : k < count) :
    IsRing (initHeads L head count) (head + k * listNodeSize) [] := by
  induction count with
  | zero => omega
  | succ count ih =>
    by_cases hlast : k = count
    · subst hlast
      exact isRing_initHead _ _
    · refine (ih (by omega)).congr fun y hy ↦ initHead_eq_of_ne _ ?_
      grind [listNodeSize]

/-- What `pm_init` expects: the memory it is given is not null, has room for the list heads, ends more
than a descriptor below the end of the address space, and does not hold the allocator itself, so that
the head of the pool is outside it. -/
structure InitArgs (s : PageAlct) (addr size : ℕ) : Prop where
  addr_ne : addr ≠ 0
  heads_fit : nrBuddyOrder * listNodeSize ≤ size
  bound : addr + size + pageTSize < addressSpace
  slotHead_ne : s.slotAlct.freeSlotHead ≠ 0
  slotHead_outside : s.slotAlct.freeSlotHead < addr ∨ addr + size ≤ s.slotAlct.freeSlotHead

/-- The descriptors in the memory given to `pm_init`. -/
def initDescs (addr size : ℕ) : List ℕ :=
  slotsFrom (addr + nrBuddyOrder * listNodeSize) pageTSize
    ((size - nrBuddyOrder * listNodeSize) / pageTSize)

variable {addr size : ℕ} {s : PageAlct}

theorem initDescs_bounds {p : ℕ} (hfit : nrBuddyOrder * listNodeSize ≤ size)
    (hp : p ∈ initDescs addr size) : addr ≤ p ∧ p < addr + size := by
  obtain ⟨i, hi, rfl⟩ := mem_slotsFrom.mp hp
  simp only [nrBuddyOrder, listNodeSize, pageTSize] at *
  omega

theorem InitArgs.layout_bound (hargs : InitArgs s addr size) : addr + nrBuddyOrder * listNodeSize +
      (size - nrBuddyOrder * listNodeSize) / pageTSize * pageTSize ≤ addressSpace := by
  grind [hargs.heads_fit, hargs.bound, pageTSize]

theorem InitArgs.slotHead_not_mem (hargs : InitArgs s addr size) :
    s.slotAlct.freeSlotHead ∉ slotsFrom (addr + nrBuddyOrder * listNodeSize) pageTSize
      ((size - nrBuddyOrder * listNodeSize) / pageTSize) := by
  intro hmem
  have hinside := initDescs_bounds hargs.heads_fit hmem
  have houtside := hargs.slotHead_outside
  omega

/-- The layout that `pm_init` makes. -/
def InitArgs.layout {s : PageAlct} {addr size : ℕ} (hargs : InitArgs s addr size) : Layout where
  head := addr
  slotHead := s.slotAlct.freeSlotHead
  count := (size - nrBuddyOrder * listNodeSize) / pageTSize
  head_ne := hargs.addr_ne
  slotHead_ne := hargs.slotHead_ne
  bound := hargs.layout_bound
  slotHead_not_mem := hargs.slotHead_not_mem

theorem pmInit_valid (hargs : InitArgs s addr size) :
    ∃ s' g, s.pmInit addr size = .ok (.ok, s') ∧ (∀ p, ¬ g.used p) ∧ Valid hargs.layout s' g [] fun _ ↦ False := by
  obtain ⟨haddr, hfit, hbound, hslot, houtside⟩ := id hargs
  have hheads : nrBuddyOrder * listNodeSize = 168 := rfl
  have hstart : wordAdd addr (nrBuddyOrder * listNodeSize) = addr + nrBuddyOrder * listNodeSize :=
    wordAdd_of_lt (by omega)
  have hend : wordAdd addr size = addr + size := wordAdd_of_lt (by omega)
  have hlength : (wordAdd addr size + addressSpace - (addr + nrBuddyOrder * listNodeSize)) %
      addressSpace = size - nrBuddyOrder * listNodeSize := by grind [addressSpace]
  have hpool : IsRing (listInit s.slots s.slotAlct.freeSlotHead) s.slotAlct.freeSlotHead [] :=
    isRing_initHead _ _
  obtain ⟨L, hrun, hring⟩ := slotInsert_ring ⟨pageTSize, s.slotAlct.freeSlotHead⟩
    (addr + nrBuddyOrder * listNodeSize) (size - nrBuddyOrder * listNodeSize) hpool
    (by simpa using hslot.symm) (by simp [pageTSize]) (by omega) (by simp only [pageTSize] at hbound ⊢; omega)
    (fun x hx hmem ↦ by
      obtain rfl : x = s.slotAlct.freeSlotHead := by simpa using hmem
      exact hargs.layout.slotHead_not_mem hx)
  rw [nil_append] at hring
  refine ⟨{ s.setSlots L with
      head := addr, slotAlct := ⟨pageTSize, s.slotAlct.freeSlotHead⟩, allocedRoot := 0
      list := initHeads s.list addr nrBuddyOrder },
    ⟨fun _ ↦ False, initDescs addr size, fun _ ↦ []⟩, ?_, fun _ hp ↦ hp,
    ⟨⟨rfl, rfl, ?_, ?_, ?_, ?_, ?_, ?_, ?_, ?_⟩, ?_, ?_, ?_⟩⟩
  · simp only [pmInit, hstart]
    rw [if_neg (by omega), hlength]
    change (slotInsert (listInit s.slots s.slotAlct.freeSlotHead) ⟨pageTSize, _⟩ _ _).bind _ = _
    rw [hrun]
    rfl
  · refine ⟨hring, fun p hp ↦ hp, fun k hk ↦ initHeads_ring _ _ hk, ?_, ?_⟩
    · simp
    · simp
  · constructor
    all_goals simp
  · simp
  · simp
  · simp
  · exact fun p hp ↦ Or.inl hp
  · simp
  · simp
  · exact ⟨.nil, ⟨rfl, trivial, by simp, by simp⟩, ⟨rfl, 0, rfl⟩, rfl⟩
  · simp
  · simp

end PageAlct

/-! ### Runs -/

/-- The allocator with what its users know: the descriptors it was given, the ranges that were
inserted and the blocks that are live. -/
structure PmState where
  alct : PageAlct
  descs : List ℕ
  inserted : List (ℕ × ℕ)
  live : List ℕ

inductive PmCall
  | insert (addr size : ℕ)
  | alloc (size : ℕ)
  | free (page : ℕ)

namespace PmState

def Covered (st : PmState) (a : ℕ) : Prop := ∃ r ∈ st.inserted, r.1 ≤ a ∧ a < r.1 + r.2

/-- A range that may be inserted: whole pages inside the address space, at least one, and disjoint
from every range that was inserted. -/
structure Insertable (st : PmState) (addr size : ℕ) : Prop where
  addr_aligned : addr % pageSize = 0
  size_aligned : size % pageSize = 0
  size_pos : 0 < size
  size_word : size < addressSpace
  bound : addr + size ≤ addressSpace
  disjoint : ∀ r ∈ st.inserted, addr + size ≤ r.1 ∨ r.1 + r.2 ≤ addr

/-- A block in no use: a descriptor outside the pool in the state `BUD_FREE`. -/
def FreeBlock (st : PmState) (slots : List ℕ) (p : ℕ) : Prop :=
  p ∈ st.descs ∧ p ∉ slots ∧ st.alct.state p = .free

/-- The allocator after `pm_init` and any calls that return: insertions of new ranges that find
enough descriptors, allocations of any size, and frees of live blocks. -/
def system : System PmState PmCall where
  init st := ∃ s addr size, PageAlct.InitArgs s addr size ∧
    s.pmInit addr size = .ok (.ok, st.alct) ∧ st.descs = PageAlct.initDescs addr size ∧
    st.inserted = [] ∧ st.live = []
  step st call st' :=
    match call with
    | .insert addr size => st.Insertable addr size ∧ ∃ alct,
        st.alct.pmInsert addr size = .ok (.ok, alct) ∧
        st' = { st with alct := alct, inserted := (addr, size) :: st.inserted }
    | .alloc size => ∃ err page alct, st.alct.pmAlloc size = .ok (err, page, alct) ∧
        st' = { st with alct := alct, live := page.toList ++ st.live }
    | .free page => page ∈ st.live ∧ ∃ alct, st.alct.pmFree page = .ok alct ∧
        st' = { st with alct := alct, live := st.live.erase page }

def Inv (st : PmState) : Prop :=
  ∃ lay g live, lay.descs = st.descs ∧ live.Perm st.live ∧ PageAlct.Valid lay st.alct g live st.Covered

theorem inv_init {st : PmState} (h : system.init st) : st.Inv := by
  obtain ⟨s, addr, size, hargs, hrun, hdescs, hinserted, hlive⟩ := h
  obtain ⟨s', g, hrun', -, hvalid⟩ := PageAlct.pmInit_valid hargs
  obtain rfl : st.alct = s' := by simpa [hrun] using hrun'
  refine ⟨hargs.layout, g, [], hdescs.symm, by simp [hlive], ?_⟩
  convert hvalid using 2 with a
  simp [Covered, hinserted]

theorem Insertable.not_covered {st : PmState} {addr size : ℕ} (h : st.Insertable addr size) (x : ℕ)
    (hx : addr ≤ x) (hx' : x < addr + size) : ¬ st.Covered x := by
  rintro ⟨r, hr, hle, hlt⟩
  have := h.disjoint r hr
  omega

theorem inv_step {st st' : PmState} {call : PmCall} (h : st.Inv) (hstep : system.step st call st') : st'.Inv := by
  obtain ⟨lay, g, live, hdescs, hperm, hvalid⟩ := h
  cases call with
  | insert addr size =>
    obtain ⟨hins, alct, hrun, rfl⟩ := hstep
    obtain ⟨err, s', part, g', hrun', hpart, hvalid'⟩ := PageAlct.pmInsert_valid hvalid
      hins.addr_aligned hins.size_aligned hins.size_pos hins.size_word hins.bound hins.not_covered
    obtain ⟨rfl, rfl⟩ : err = .ok ∧ s' = alct := by simpa [hrun, eq_comm] using hrun'
    obtain rfl : part = size := by simpa using hpart
    refine ⟨lay, g', live, hdescs, hperm, ?_⟩
    convert hvalid' using 2 with a
    simp only [Covered, mem_cons, exists_eq_or_imp]
    exact or_comm
  | alloc size =>
    obtain ⟨err, page, alct, hrun, rfl⟩ := hstep
    rcases PageAlct.pmAlloc_valid hvalid size with
      herr | ⟨err', -, hnone⟩ | ⟨page', s', g', live', hsome, hvalid', -, hperm'⟩
    · simp [hrun] at herr
    · obtain ⟨-, rfl, rfl⟩ : err = err' ∧ page = none ∧ alct = st.alct := by simpa [hrun] using hnone
      exact ⟨lay, g, live, hdescs, hperm, hvalid⟩
    · obtain ⟨-, rfl, rfl⟩ : err = .ok ∧ page = some page' ∧ alct = s' := by simpa [hrun] using hsome
      exact ⟨lay, g', live', hdescs, hperm'.trans (hperm.cons page'), hvalid'⟩
  | free page =>
    obtain ⟨hpage, alct, hrun, rfl⟩ := hstep
    obtain ⟨s', g', hrun', hvalid'⟩ := PageAlct.pmFree_valid hvalid (hperm.mem_iff.mpr hpage)
    obtain rfl : alct = s' := by simpa [hrun] using hrun'
    exact ⟨lay, g', live.erase page, hdescs, hperm.erase page, hvalid'⟩

/-- The contract of the allocator in a state, with the contents of the pool and of the free lists.

The live blocks and the free ones are disjoint and tile the inserted ranges (`apart`, `tile`). A free
block has the size of its order and is in the free list of its order once and in no other
(`free_size`, `free_once`), and the lists hold nothing else (`listed_free`). The tree holds the nodes
of the live blocks (`tree`), so that `pm_get_page` finds them by their starts and nothing else
(`found`, `not_found`). The next call returns, whatever it is: no assertion fails (`insert_returns`,
`alloc_returns`, `free_returns`); `pm_alloc` alone may use a pointer that was not set, when
`buddy_alloc` finds no descriptor for a half. -/
structure Contract (st : PmState) (slots : List ℕ) (free : ℕ → List ℕ) : Prop where
  pool : IsRing st.alct.slots st.alct.slotAlct.freeSlotHead slots
  lists : ∀ k < nrBuddyOrder, IsRing st.alct.list (st.alct.headAt k) (PageAlct.listNodes (free k))
  live_nodup : st.live.Nodup
  live_not_free : ∀ p ∈ st.live, ¬ st.FreeBlock slots p
  apart : ∀ p q, (p ∈ st.live ∨ st.FreeBlock slots p) → (q ∈ st.live ∨ st.FreeBlock slots q) →
    p ≠ q → st.alct.addr p + st.alct.size p ≤ st.alct.addr q ∨ st.alct.addr q + st.alct.size q ≤ st.alct.addr p
  tile : ∀ a, st.Covered a ↔ ∃ p, (p ∈ st.live ∨ st.FreeBlock slots p) ∧ st.alct.Within p a
  free_size : ∀ p, st.FreeBlock slots p → st.alct.order p < nrBuddyOrder ∧
    st.alct.size p = pageSize * 2 ^ st.alct.order p
  free_once : ∀ p, st.FreeBlock slots p → ∀ k < nrBuddyOrder,
    (free k).count p = if k = st.alct.order p then 1 else 0
  listed_free : ∀ k < nrBuddyOrder, ∀ p ∈ free k, st.FreeBlock slots p
  tree : ∃ T, st.alct.allocedRbt.Holds T ∧ T.inorder.Perm (PageAlct.rbtNodes st.live)
  found : ∀ a p, st.alct.pmGetPage a = .ok (some p) ↔ p ∈ st.live ∧ st.alct.addr p = a
  not_found : ∀ a, a % pageSize = 0 → (∀ p ∈ st.live, st.alct.addr p ≠ a) → st.alct.pmGetPage a = .ok none
  insert_returns : ∀ addr size, st.Insertable addr size → ∃ result, st.alct.pmInsert addr size = .ok result
  alloc_returns : ∀ size, st.alct.pmAlloc size = .error .unset ∨ ∃ result, st.alct.pmAlloc size = .ok result
  free_returns : ∀ p ∈ st.live, ∃ alct, st.alct.pmFree p = .ok alct

section Contents

variable {st : PmState} {lay : Layout} {g : PageAlct.Contents} {live : List ℕ} {covered : ℕ → Prop}

theorem freeBlock_iff (hdescs : lay.descs = st.descs) (hvalid : PageAlct.Valid lay st.alct g live covered) (p : ℕ) :
    st.FreeBlock g.slots p ↔ g.used p ∧ st.alct.state p = .free := by
  have hbuddy := hvalid.buddy
  grind [FreeBlock, hbuddy.all, hbuddy.used_mem, hbuddy.slot_unused]

theorem contract_of_valid (hdescs : lay.descs = st.descs) (hperm : live.Perm st.live)
    (hvalid : PageAlct.Valid lay st.alct g live st.Covered) : st.Contract g.slots g.free := by
  have hbuddy := hvalid.buddy
  have hfree := freeBlock_iff hdescs hvalid
  have hlive : ∀ p, p ∈ st.live ↔ g.used p ∧ st.alct.state p = .alloced := fun p ↦
    hperm.mem_iff.symm.trans (hvalid.live_iff p)
  -- the blocks that are not divided are the live and the free ones
  have hblock : ∀ p, p ∈ st.live ∨ st.FreeBlock g.slots p ↔ g.used p ∧ st.alct.state p ≠ .virt := by
    intro p
    rw [hfree, hlive]
    cases st.alct.state p <;> simp
  have htiles := hbuddy.tiles
  exact {
    pool := by simpa [hbuddy.slot_eq] using hbuddy.rings.pool_ring
    lists := fun k hk ↦ by
      rw [hbuddy.headAt_eq]
      exact hbuddy.rings.free_ring k hk
    live_nodup := hperm.nodup_iff.mp hvalid.live_nodup
    live_not_free := fun p hp hfp ↦ by simpa [((hlive p).mp hp).2] using ((hfree p).mp hfp).2
    apart := fun p q hp hq ↦ htiles.disjoint p q ((hblock p).mp hp).1 ((hblock q).mp hq).1
      ((hblock p).mp hp).2 ((hblock q).mp hq).2
    tile := fun a ↦ by simp only [htiles.cover, hblock, and_assoc]
    free_size := fun p hp ↦
      ⟨htiles.order_lt p ((hfree p).mp hp).1, htiles.size_eq p ((hfree p).mp hp).1⟩
    free_once := fun p hp k hk ↦ by
      obtain ⟨hused, hstate⟩ := (hfree p).mp hp
      split_ifs with heq
      · refine count_eq_one_of_mem ?_ ((hbuddy.free_iff k p).mpr ⟨hused, hstate, heq.symm⟩)
        exact List.Nodup.of_map _ (List.nodup_cons.mp (hbuddy.rings.free_ring k hk).nodup).2
      grind [count_eq_zero_of_not_mem, hbuddy.free_iff]
    listed_free := fun k _ p hp ↦
      have hin := (hbuddy.free_iff k p).mp hp
      (hfree p).mpr ⟨hin.1, hin.2.1⟩
    tree := by
      obtain ⟨T, hT, -, hinorder⟩ := hvalid.tree
      exact ⟨T, hT, hinorder ▸ hperm.map _⟩
    found := fun a p ↦ by rw [PageAlct.pmGetPage_iff hvalid, hperm.mem_iff]
    not_found := fun a ha hnone ↦ by grind [PageAlct.pmGetPage_spec]
    insert_returns := fun addr size hins ↦ by
      obtain ⟨err, s', -, -, hrun, -⟩ := PageAlct.pmInsert_valid hvalid hins.addr_aligned
        hins.size_aligned hins.size_pos hins.size_word hins.bound hins.not_covered
      exact ⟨_, hrun⟩
    alloc_returns := fun size ↦ by grind [PageAlct.pmAlloc_valid]
    free_returns := fun p hp ↦ by grind [PageAlct.pmFree_valid]}

end Contents

/-- The contract holds in every reachable state. -/
theorem reachable_contract {st : PmState} (h : system.Reachable st) : ∃ slots free, st.Contract slots free := by
  obtain ⟨lay, g, live, hdescs, hperm, hvalid⟩ := h.invariant (fun _ ↦ inv_init) fun _ _ _ ↦ inv_step
  exact ⟨g.slots, g.free, contract_of_valid hdescs hperm hvalid⟩

/-- An allocator before `pm_init`, with its pool head at an address. -/
def blank (slotHead : ℕ) : PageAlct where
  slotAlct := ⟨0, slotHead⟩
  head := 0
  allocedRoot := 0
  addr _ := 0
  size _ := 0
  cnt _ := 0
  tree := ⟨fun _ ↦ .red, fun _ ↦ 0, fun _ _ ↦ 0⟩
  order _ := 0
  f _ := 0
  b _ := 0
  list := ⟨fun _ ↦ 0, fun _ ↦ 0⟩
  pos _ := .nobud
  state _ := .free

/-- Eight descriptors at `0x100000`, four pages at `0x200000`, and one of the pages allocated. -/
def exampleRun : Result (List Errno × Option ℕ) := do
  let (err₁, s) ← (blank 4096).pmInit 0x100000 712
  let (err₂, s) ← s.pmInsert 0x200000 0x4000
  let (err₃, page, _) ← s.pmAlloc 100
  return ([err₁, err₂, err₃], page)

theorem exampleRun_eq : exampleRun = .ok ([.ok, .ok, .ok], some 0x100174) := by decide +kernel

theorem exampleRun_calls : ∃ s₁ s₂ s₃, (blank 4096).pmInit 0x100000 712 = .ok (.ok, s₁) ∧
    s₁.pmInsert 0x200000 0x4000 = .ok (.ok, s₂) ∧ s₂.pmAlloc 100 = .ok (.ok, some 0x100174, s₃) := by
  obtain ⟨⟨err₁, s₁⟩, hinit, hrest⟩ := bind_eq_ok.mp exampleRun_eq
  obtain ⟨⟨err₂, s₂⟩, hinsert, hrest⟩ := bind_eq_ok.mp hrest
  obtain ⟨⟨err₃, page, s₃⟩, halloc, hrest⟩ := bind_eq_ok.mp hrest
  obtain ⟨⟨rfl, rfl, rfl⟩, rfl⟩ : (err₁ = .ok ∧ err₂ = .ok ∧ err₃ = .ok) ∧ page = some 0x100174 := by
    simpa using hrest
  exact ⟨s₁, s₂, s₃, hinit, hinsert, halloc⟩

theorem reachable_inserted {s₁ s₂ : PageAlct} (hinit : (blank 4096).pmInit 0x100000 712 = .ok (.ok, s₁))
    (hinsert : s₁.pmInsert 0x200000 0x4000 = .ok (.ok, s₂)) :
    system.Reachable ⟨s₂, PageAlct.initDescs 0x100000 712, [(0x200000, 0x4000)], []⟩ := by
  refine .step (.init (s := ⟨s₁, PageAlct.initDescs 0x100000 712, [], []⟩)
    ⟨blank 4096, 0x100000, 712, ?_, hinit, rfl, rfl, rfl⟩) trivial
    (a := .insert 0x200000 0x4000) ⟨?_, s₂, hinsert, rfl⟩
  · constructor <;> decide
  · exact ⟨by decide, by decide, by decide, by decide, by decide, by simp⟩

/-- The contract at a state with a live block, after two splits. -/
theorem reachable_contract_example : ∃ st : PmState, st.live = [0x100174] ∧ system.Reachable st ∧
      ∃ slots free, st.Contract slots free := by
  obtain ⟨s₁, s₂, s₃, hinit, hinsert, halloc⟩ := exampleRun_calls
  have hreach : system.Reachable ⟨s₃, PageAlct.initDescs 0x100000 712, [(0x200000, 0x4000)], [0x100174]⟩ :=
    .step (reachable_inserted hinit hinsert) trivial (a := .alloc 100) ⟨.ok, some 0x100174, s₃, halloc, rfl⟩
  exact ⟨_, rfl, hreach, reachable_contract hreach⟩

end PmState

end Lanthorn
