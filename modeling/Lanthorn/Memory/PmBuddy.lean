import Lanthorn.Memory.PmTiles

/-!
# The buddy lists

`Layout` is what `pm_init` fixes: the array of list heads, the pool head and the descriptors that follow the array.
`Rings` says that the pool and the 21 free lists are rings of descriptors, and its lemmas say what each list
operation does to it. `Buddy` adds the blocks: the descriptors in use form `Tiles`, the free lists hold exactly the
free ones by their order, and the pool holds only descriptors in no use.

A block is live when its descriptor is in use and its state is `BUD_ALLOCED`. `SameOthers` says that an operation
on one live block leaves the other live blocks and the tree alone, and `buddyPut_spec` and `buddyAlloc_spec` are
the contracts of the two recursions.
-/

namespace Lanthorn

open Function Library List

/-- What `pm_init` fixes: the array of list heads, the head of the pool, and the number of
descriptors, which follow the array. -/
structure Layout where
  head : ℕ
  slotHead : ℕ
  count : ℕ
  head_ne : head ≠ 0
  slotHead_ne : slotHead ≠ 0
  bound : head + nrBuddyOrder * listNodeSize + count * pageTSize ≤ addressSpace
  slotHead_not_mem : slotHead ∉ slotsFrom (head + nrBuddyOrder * listNodeSize) pageTSize count

namespace Layout

variable (lay : Layout)

def descs : List ℕ := slotsFrom (lay.head + nrBuddyOrder * listNodeSize) pageTSize lay.count

/-- The address of `head[order]`. -/
def headAt (order : ℕ) : ℕ := lay.head + order * listNodeSize

variable {lay} {p q j k : ℕ}

theorem descs_bounds (hp : p ∈ lay.descs) : lay.head + 168 ≤ p ∧ p + 68 ≤ addressSpace := by
  obtain ⟨i, hi, rfl⟩ := mem_slotsFrom.mp hp
  grind [lay.bound, nrBuddyOrder, listNodeSize, pageTSize]

theorem descs_ne_zero (hp : p ∈ lay.descs) : p ≠ 0 := by
  have := (descs_bounds hp).1
  omega

theorem descs_ne_slotHead (hp : p ∈ lay.descs) : p ≠ lay.slotHead := fun h ↦
  lay.slotHead_not_mem (h ▸ hp)

theorem headAt_ne (hp : p ∈ lay.descs) (hk : k < nrBuddyOrder) : lay.headAt k ≠ p + pageListNode := by
  have := (descs_bounds hp).1
  simp only [headAt, listNodeSize, pageListNode, nrBuddyOrder] at *
  omega

theorem headAt_injective (h : lay.headAt j = lay.headAt k) : j = k := by
  simp only [headAt, listNodeSize] at h
  omega

theorem headAt_ne_zero : lay.headAt k ≠ 0 := by
  have := lay.head_ne
  simp only [headAt]
  omega

theorem containerOf_listNode (hp : p ∈ lay.descs) : containerOf (p + pageListNode) pageListNode = p := by
  have := (descs_bounds hp).2
  exact containerOf_add (by simp only [pageListNode]; omega)

end Layout

namespace PageAlct

/-! ### The rings -/

def listNodes (ps : List ℕ) : List ℕ := ps.map (· + pageListNode)

@[simp] theorem mem_listNodes {ps : List ℕ} {p : ℕ} : p + pageListNode ∈ listNodes ps ↔ p ∈ ps := by
  simp [listNodes]

/-- The pool and the free lists are rings of descriptors, no descriptor in two free lists. -/
structure Rings (lay : Layout) (list pool : Links ℕ) (slots : List ℕ) (free : ℕ → List ℕ) : Prop where
  pool_ring : IsRing pool lay.slotHead slots
  pool_mem : ∀ p ∈ slots, p ∈ lay.descs
  free_ring : ∀ k < nrBuddyOrder, IsRing list (lay.headAt k) (listNodes (free k))
  free_mem : ∀ k, ∀ p ∈ free k, p ∈ lay.descs
  free_once : ∀ j k p, p ∈ free j → p ∈ free k → j = k

section Rings

variable {lay : Layout} {list pool : Links ℕ} {slots : List ℕ} {free : ℕ → List ℕ} {p k : ℕ}

theorem Rings.pool_zero (h : Rings lay list pool slots free) : 0 ∉ lay.slotHead :: slots := by
  have hzero : 0 ∉ slots := fun hmem ↦ Layout.descs_ne_zero (h.pool_mem 0 hmem) rfl
  simp [hzero, lay.slotHead_ne.symm]

theorem zero_not_mem_listNodes (ps : List ℕ) : 0 ∉ lay.headAt k :: listNodes ps := by
  simp [listNodes, pageListNode, Layout.headAt_ne_zero.symm]

section

variable (h : Rings lay list pool slots free)
include h

theorem Rings.other_ring {list' : Links ℕ} {j : ℕ} (hj : j < nrBuddyOrder) (hk : k < nrBuddyOrder)
    (hjk : j ≠ k) (hp : p ∈ lay.descs) (hpj : p ∉ free j)
    (hagree : ∀ y, y ∉ (p + pageListNode) :: lay.headAt k :: listNodes (free k) → list.AgreeAt list' y) :
    IsRing list' (lay.headAt j) (listNodes (free j)) := by
  refine (h.free_ring j hj).congr fun y hy ↦ hagree y ?_
  rcases List.mem_cons.mp hy with rfl | hy
  · simp only [mem_cons, not_or]
    refine ⟨Layout.headAt_ne hp hj, fun heq ↦ hjk (Layout.headAt_injective heq), fun hmem ↦ ?_⟩
    obtain ⟨q, hq, heq⟩ := List.mem_map.mp hmem
    exact Layout.headAt_ne (h.free_mem k q hq) hj heq.symm
  · obtain ⟨q, hq, rfl⟩ := List.mem_map.mp hy
    simp only [mem_cons, mem_listNodes, Nat.add_right_cancel_iff, not_or]
    refine ⟨fun heq ↦ hpj (heq ▸ hq), fun heq ↦ ?_, fun hmem ↦ hjk (h.free_once j k q hq hmem)⟩
    exact Layout.headAt_ne (h.free_mem j q hq) hk heq.symm

theorem Rings.push (hk : k < nrBuddyOrder) (hp : p ∈ lay.descs) (hfree : ∀ j, p ∉ free j) :
    ∃ list', listPushBack list (lay.headAt k) (p + pageListNode) = .ok list' ∧
      Rings lay list' pool slots (update free k (free k ++ [p])) := by
  have hnode : p + pageListNode ∉ lay.headAt k :: listNodes (free k) := by grind [mem_listNodes, Layout.headAt_ne]
  obtain ⟨list', hrun, hring, hagree⟩ := listPushBack_ring (h.free_ring k hk)
    (zero_not_mem_listNodes _) hnode
  have hmem := h.free_mem
  have honce := h.free_once
  refine ⟨list', hrun, h.pool_ring, h.pool_mem, fun j hj ↦ ?_, ?_, ?_⟩
  · grind [listNodes, h.other_ring]
  all_goals grind [update_apply]

theorem Rings.shrink {list' : Links ℕ} {xs ys : List ℕ} (hk : k < nrBuddyOrder)
    (hsplit : free k = xs ++ p :: ys) (hring : IsRing list' (lay.headAt k) (listNodes (xs ++ ys)))
    (hagree : ∀ y, y ∉ lay.headAt k :: listNodes (free k) → list.AgreeAt list' y) :
    Rings lay list' pool slots (update free k (xs ++ ys)) := by
  have hsub : ∀ j, update free k (xs ++ ys) j ⊆ free j := by
    intro j q
    grind [update_apply]
  have hpk : p ∈ free k := by simp [hsplit]
  refine ⟨h.pool_ring, h.pool_mem, fun j hj ↦ ?_, fun j q hq ↦ h.free_mem j q (hsub j hq),
    fun i j q hi hj ↦ h.free_once i j q (hsub i hi) (hsub j hj)⟩
  by_cases hjk : j = k
  · subst hjk
    rwa [update_self]
  · rw [update_of_ne hjk]
    refine h.other_ring (p := p) hj hk hjk (h.free_mem k p hpk)
      (fun hpj ↦ hjk (h.free_once j k p hpj hpk)) fun y hy ↦ hagree y fun hmem ↦ hy ?_
    exact mem_cons_of_mem _ hmem

theorem Rings.delete {xs ys : List ℕ} (hk : k < nrBuddyOrder) (hsplit : free k = xs ++ p :: ys) :
    ∃ list', listDelete list (p + pageListNode) = .ok list' ∧
      Rings lay list' pool slots (update free k (xs ++ ys)) := by
  have hnodes : listNodes (free k) = listNodes xs ++ (p + pageListNode) :: listNodes ys := by
    simp [hsplit, listNodes]
  have hring := h.free_ring k hk
  rw [hnodes] at hring
  obtain ⟨list', hrun, hring', hagree⟩ :=
    listDelete_ring hring (hnodes ▸ zero_not_mem_listNodes (free k))
  refine ⟨list', hrun, h.shrink hk hsplit (by simpa [listNodes] using hring') ?_⟩
  rwa [hnodes]

theorem Rings.pop {ys : List ℕ} (hk : k < nrBuddyOrder) (hsplit : free k = p :: ys) :
    ∃ list', listPopFront list (lay.headAt k) = .ok (p + pageListNode, list') ∧
      Rings lay list' pool slots (update free k ys) := by
  have hnodes : listNodes (free k) = (p + pageListNode) :: listNodes ys := by simp [hsplit, listNodes]
  have hring := h.free_ring k hk
  rw [hnodes] at hring
  obtain ⟨list', hrun, hring', hagree⟩ :=
    listPopFront_ring hring (hnodes ▸ zero_not_mem_listNodes (free k))
  refine ⟨list', hrun, h.shrink hk (show free k = [] ++ p :: ys from hsplit) hring' ?_⟩
  rwa [hnodes]

end

theorem Rings.take (h : Rings lay list pool (p :: slots) free) :
    ∃ pool', slotAlloc pool ⟨pageTSize, lay.slotHead⟩ = .ok (some p, pool') ∧ Rings lay list pool' slots free ∧
      ∀ y, y ∉ lay.slotHead :: p :: slots → pool.AgreeAt pool' y := by
  obtain ⟨pool', hrun, hring, hagree⟩ :=
    slotAlloc_ring ⟨pageTSize, lay.slotHead⟩ h.pool_ring h.pool_zero
  exact ⟨pool', hrun, ⟨hring, fun q hq ↦ h.pool_mem q (by simp [hq]), h.free_ring, h.free_mem,
    h.free_once⟩, hagree⟩

theorem Rings.give (h : Rings lay list pool slots free) (hp : p ∈ lay.descs) (hpool : p ∉ slots) :
    ∃ pool', slotFree pool ⟨pageTSize, lay.slotHead⟩ p = .ok pool' ∧ Rings lay list pool' (slots ++ [p]) free ∧
      ∀ y, y ∉ p :: lay.slotHead :: slots → pool.AgreeAt pool' y := by
  have hnode : p ∉ lay.slotHead :: slots := by grind [Layout.descs_ne_slotHead]
  obtain ⟨pool', hrun, hring, hagree⟩ := listPushBack_ring h.pool_ring h.pool_zero hnode
  refine ⟨pool', hrun, ⟨hring, ?_, h.free_ring, h.free_mem, h.free_once⟩, hagree⟩
  grind [h.pool_mem]

end Rings

/-! ### The invariant -/

/-- The contents of the pool and of the free lists, and the descriptors in use. -/
structure Contents where
  used : ℕ → Prop
  slots : List ℕ
  free : ℕ → List ℕ

/-- The state of the buddy system. The descriptors of `raw` are neither in the pool nor in use: an
operation has them in hand. -/
structure Buddy (lay : Layout) (s : PageAlct) (g : Contents) (raw : List ℕ) (covered : ℕ → Prop) : Prop where
  head_eq : s.head = lay.head
  slot_eq : s.slotAlct = ⟨pageTSize, lay.slotHead⟩
  rings : Rings lay s.list s.slots g.slots g.free
  tiles : s.Tiles g.used covered
  used_mem : ∀ p, g.used p → p ∈ lay.descs
  slot_unused : ∀ p ∈ g.slots, ¬ g.used p
  free_iff : ∀ k p, p ∈ g.free k ↔ g.used p ∧ s.state p = .free ∧ s.order p = k
  all : ∀ p ∈ lay.descs, p ∈ g.slots ∨ g.used p ∨ p ∈ raw
  raw_mem : ∀ p ∈ raw, p ∈ lay.descs ∧ p ∉ g.slots ∧ ¬ g.used p
  raw_nodup : raw.Nodup

/-- The live blocks other than `x`. -/
def LiveExcept (s : PageAlct) (g : Contents) (x p : ℕ) : Prop :=
  g.used p ∧ s.state p = .alloced ∧ p ≠ x

/-- An operation that turns the live block `x` into the live block `y`, either of which may be null
for none, leaves the other live blocks and the tree alone. -/
structure SameOthers (s : PageAlct) (g : Contents) (x : ℕ) (s' : PageAlct) (g' : Contents) (y : ℕ) : Prop where
  tree : s'.allocedRbt = s.allocedRbt
  live : ∀ p, LiveExcept s' g' y p ↔ LiveExcept s g x p
  kept : ∀ p, LiveExcept s g x p → s'.addr p = s.addr p ∧ s'.size p = s.size p ∧ s'.order p = s.order p

theorem SameOthers.refl (s : PageAlct) (g : Contents) (x : ℕ) : SameOthers s g x s g x :=
  ⟨rfl, fun _ ↦ Iff.rfl, fun _ _ ↦ ⟨rfl, rfl, rfl⟩⟩

theorem SameOthers.trans {s s' s'' : PageAlct} {g g' g'' : Contents} {x y z : ℕ}
    (h : SameOthers s g x s' g' y) (h' : SameOthers s' g' y s'' g'' z) : SameOthers s g x s'' g'' z where
  tree := h'.tree.trans h.tree
  live p := (h'.live p).trans (h.live p)
  kept p hp := by grind [h.kept, h'.kept, h.live]

/-- A step leaves the tree alone, and the descriptors of `kept` up to their states. -/
structure Frame (s s' : PageAlct) (kept : ℕ → Prop) : Prop where
  tree : s'.allocedRbt = s.allocedRbt
  addr : ∀ p, kept p → s'.addr p = s.addr p
  size : ∀ p, kept p → s'.size p = s.size p
  order : ∀ p, kept p → s'.order p = s.order p
  f : ∀ p, kept p → s'.f p = s.f p
  b : ∀ p, kept p → s'.b p = s.b p
  pos : ∀ p, kept p → s'.pos p = s.pos p

theorem Frame.trans {s s' s'' : PageAlct} {kept kept' : ℕ → Prop} (h : Frame s s' kept)
    (h' : Frame s' s'' kept') (hsub : ∀ p, kept p → kept' p) : Frame s s'' kept where
  tree := h'.tree.trans h.tree
  addr p hp := (h'.addr p (hsub p hp)).trans (h.addr p hp)
  size p hp := (h'.size p (hsub p hp)).trans (h.size p hp)
  order p hp := (h'.order p (hsub p hp)).trans (h.order p hp)
  f p hp := (h'.f p (hsub p hp)).trans (h.f p hp)
  b p hp := (h'.b p (hsub p hp)).trans (h.b p hp)
  pos p hp := (h'.pos p (hsub p hp)).trans (h.pos p hp)

theorem Frame.setState (s : PageAlct) (list' : Links ℕ) (page : ℕ) (state : BudState)
    (kept : ℕ → Prop) : Frame s ({ s with list := list' }.setState page state) kept :=
  ⟨rfl, fun _ _ ↦ rfl, fun _ _ ↦ rfl, fun _ _ ↦ rfl, fun _ _ ↦ rfl, fun _ _ ↦ rfl, fun _ _ ↦ rfl⟩

theorem Frame.sameOthers {s s' : PageAlct} {g g' : Contents} {x y : ℕ} {kept : ℕ → Prop}
    (h : Frame s s' kept) (hlive : ∀ p, LiveExcept s' g' y p ↔ LiveExcept s g x p)
    (hkept : ∀ p, LiveExcept s g x p → kept p) : SameOthers s g x s' g' y :=
  ⟨h.tree, hlive, fun p hp ↦
    ⟨h.addr p (hkept p hp), h.size p (hkept p hp), h.order p (hkept p hp)⟩⟩

section Specs

variable {lay : Layout} {s : PageAlct} {g : Contents} {raw : List ℕ} {covered : ℕ → Prop} {page : ℕ}

theorem Buddy.not_slot (h : Buddy lay s g raw covered) (hp : g.used page) : page ∉ lay.slotHead :: g.slots := by
  grind [Layout.descs_ne_slotHead (h.used_mem page hp), h.slot_unused page]

theorem Buddy.headAt_eq (h : Buddy lay s g raw covered) (k : ℕ) : s.headAt k = lay.headAt k := by
  rw [PageAlct.headAt, h.head_eq, Layout.headAt]

theorem sameBlocks_setSlots {used : ℕ → Prop} {pool : Links ℕ}
    (hagree : ∀ p, used p → s.slots.AgreeAt pool p) : s.SameBlocks (s.setSlots pool) used :=
  ⟨fun p hp ↦ (hagree p hp).1, fun p hp ↦ (hagree p hp).2, fun _ _ ↦ rfl, fun _ _ ↦ rfl,
    fun _ _ ↦ rfl, fun _ _ ↦ rfl, fun _ _ ↦ Iff.rfl⟩

theorem newPage_spec (h : Buddy lay s g raw covered) : (g.slots = [] ∧ s.newPage = .ok (none, s)) ∨
      ∃ p rest s', g.slots = p :: rest ∧ s.newPage = .ok (some p, s') ∧
        Buddy lay s' { g with slots := rest } (p :: raw) covered ∧ Frame s s' g.used ∧ s'.state = s.state := by
  cases hslots : g.slots with
  | nil =>
    left
    have hring := h.rings.pool_ring
    rw [hslots] at hring
    have hrun := slotAlloc_empty ⟨pageTSize, lay.slotHead⟩ hring
    refine ⟨rfl, ?_⟩
    rw [newPage, h.slot_eq, hrun]
    rfl
  | cons p rest =>
    right
    have hrings := h.rings
    rw [hslots] at hrings
    obtain ⟨pool', hrun, hrings', hagree⟩ := hrings.take
    have hagree' : ∀ q, g.used q → s.slots.AgreeAt pool' q := fun q hq ↦
      hagree q (hslots ▸ h.not_slot hq)
    have hnodup := (List.nodup_cons.mp hrings.pool_ring.nodup).2
    refine ⟨p, rest, { s.setSlots pool' with cnt := update s.cnt p 0 }, rfl, ?_, ?_, ?_, rfl⟩
    · rw [newPage, h.slot_eq, hrun]
      rfl
    · have hsame := sameBlocks_setSlots hagree'
      refine ⟨h.head_eq, h.slot_eq, hrings', (h.tiles.congr hsame).congr
        ⟨fun _ _ ↦ rfl, fun _ _ ↦ rfl, fun _ _ ↦ rfl, fun _ _ ↦ rfl, fun _ _ ↦ rfl, fun _ _ ↦ rfl,
          fun _ _ ↦ Iff.rfl⟩, h.used_mem,
        fun q hq ↦ h.slot_unused q (by simp [hslots, hq]), h.free_iff, ?_, ?_, ?_⟩
      · grind [h.all]
      · grind [h.raw_mem, h.slot_unused, hrings.pool_mem]
      · exact List.nodup_cons.mpr ⟨fun hmem ↦ (h.raw_mem p hmem).2.1 (by simp [hslots]), h.raw_nodup⟩
    · exact ⟨rfl, fun q hq ↦ (hagree' q hq).1, fun q hq ↦ (hagree' q hq).2, fun _ _ ↦ rfl,
        fun _ _ ↦ rfl, fun _ _ ↦ rfl, fun _ _ ↦ rfl⟩

variable {s' : PageAlct} {k f l r : ℕ} {g' : Contents}

theorem Frame.sameOthers_newPage {rest : List ℕ} (h : Frame s s' g.used)
    (hstate : s'.state = s.state) (x : ℕ) : SameOthers s g x s' { g with slots := rest } x :=
  h.sameOthers (fun p ↦ by rw [LiveExcept, LiveExcept, hstate]) fun _ hp ↦ hp.1

section

variable (h : Buddy lay s g raw covered)
include h

theorem Buddy.unfree {xs ys : List ℕ} {list' : Links ℕ} (hk : k < nrBuddyOrder)
    (hsplit : g.free k = xs ++ page :: ys) (hrings : Rings lay list' s.slots g.slots (update g.free k (xs ++ ys))) :
    Buddy lay ({ s with list := list' }.setState page .alloced)
      { g with free := update g.free k (xs ++ ys) } raw covered := by
  obtain ⟨hp, hstate, horder⟩ := (h.free_iff k page).mp (by simp [hsplit])
  refine ⟨h.head_eq, h.slot_eq, hrings, h.tiles.congr ?_, h.used_mem, h.slot_unused, ?_, h.all,
    h.raw_mem, h.raw_nodup⟩
  · refine ⟨fun _ _ ↦ rfl, fun _ _ ↦ rfl, fun _ _ ↦ rfl, fun _ _ ↦ rfl, fun _ _ ↦ rfl, fun _ _ ↦ rfl, fun q _ ↦ ?_⟩
    by_cases hqp : q = page <;> simp [hqp, hstate]
  · intro j q
    have hnodup : (g.free k).Nodup :=
      (List.nodup_cons.mp (h.rings.free_ring k hk).nodup).2.of_map
    have hmem : q ∈ update g.free k (xs ++ ys) j ↔ q ∈ g.free j ∧ q ≠ page := by
      have hfree := h.free_iff
      grind [update_apply]
    rw [hmem, h.free_iff]
    by_cases hqp : q = page <;> simp [hqp]

theorem Buddy.sameOthers_unfree {list' : Links ℕ} {free' : ℕ → List ℕ} (hstate : s.state page = .free) :
    SameOthers s g 0 ({ s with list := list' }.setState page .alloced)
      { g with free := free' } page where
  tree := rfl
  live q := by
    have hzero := fun hq ↦ Layout.descs_ne_zero (h.used_mem q hq)
    simp only [LiveExcept, setState_state]
    grind
  kept q _ := ⟨rfl, rfl, rfl⟩

theorem buddyGet_spec (hk : k < nrBuddyOrder) : (g.free k = [] ∧ s.buddyGet k = .ok (none, s)) ∨
      ∃ p rest list', g.free k = p :: rest ∧
        s.buddyGet k = .ok (some p, { s with list := list' }.setState p .alloced) ∧
        Buddy lay ({ s with list := list' }.setState p .alloced)
          { g with free := update g.free k rest } raw covered := by
  have hring := h.rings.free_ring k hk
  cases hfree : g.free k with
  | nil =>
    left
    have hempty : listIsempty s.list (lay.headAt k) = true :=
      (listIsempty_iff hring).mpr (by simp [hfree, listNodes])
    refine ⟨rfl, ?_⟩
    simp [buddyGet, hk, h.headAt_eq, hempty]
  | cons p rest =>
    right
    obtain ⟨hp, -, -⟩ := (h.free_iff k p).mp (by simp [hfree])
    obtain ⟨list', hrun, hrings'⟩ := h.rings.pop hk hfree
    have hempty : ¬ listIsempty s.list (lay.headAt k) = true := by simp [listIsempty_iff hring, hfree, listNodes]
    refine ⟨p, rest, list', rfl, ?_, h.unfree hk (show g.free k = [] ++ p :: rest from hfree) hrings'⟩
    simp [buddyGet, hk, h.headAt_eq, hempty, hrun, Layout.containerOf_listNode (h.used_mem p hp)]

theorem buddyGetPtc_spec (hp : g.used page) (hstate : s.state page = .free) : ∃ list' free', s.buddyGetPtc page =
        .ok (.ok, { s with list := list' }.setState page .alloced) ∧
      Buddy lay ({ s with list := list' }.setState page .alloced) { g with free := free' } raw
        covered := by
  have hk := h.tiles.order_lt page hp
  obtain ⟨xs, ys, hsplit⟩ :=
    append_of_mem ((h.free_iff (s.order page) page).mpr ⟨hp, hstate, rfl⟩)
  obtain ⟨list', hrun, hrings⟩ := h.rings.delete hk hsplit
  refine ⟨list', _, ?_, h.unfree hk hsplit hrings⟩
  simp [buddyGetPtc, hstate, hrun]

end

theorem freePage_spec (h : Buddy lay s g (page :: raw) covered) :
    ∃ pool', s.freePage page = .ok (s.setSlots pool') ∧
      Buddy lay (s.setSlots pool') { g with slots := g.slots ++ [page] } raw covered ∧
      ∀ p, g.used p → s.slots.AgreeAt pool' p := by
  obtain ⟨hdesc, hslot, hused⟩ := h.raw_mem page (by simp)
  obtain ⟨hfresh, hnodup⟩ := List.nodup_cons.mp h.raw_nodup
  obtain ⟨pool', hrun, hrings, hagree⟩ := h.rings.give hdesc hslot
  have hagree' : ∀ p, g.used p → s.slots.AgreeAt pool' p := fun p hp ↦
    hagree p (by grind [h.not_slot hp])
  refine ⟨pool', ?_, ⟨h.head_eq, h.slot_eq, hrings, h.tiles.congr (sameBlocks_setSlots hagree'),
    h.used_mem, ?_, h.free_iff, ?_, ?_, hnodup⟩, hagree'⟩
  · rw [freePage, h.slot_eq, hrun]
    rfl
  · grind [h.slot_unused]
  · grind [h.all]
  · grind [h.raw_mem]

theorem mergePage_spec (h : Buddy lay s g raw covered) (hp : g.used page) (hpos : s.pos page ≠ .nobud)
    (hstate : s.state page = .alloced) (hstate' : s.state (s.b page) = .alloced) :
    s.mergePage page (s.b page) = .ok (s.f page, s.setState (s.f page) .alloced) ∧
      Buddy lay (s.setState (s.f page) .alloced)
        { g with used := fun q ↦ g.used q ∧ q ≠ page ∧ q ≠ s.b page } (s.b page :: page :: raw)
        covered := by
  have hpair := h.tiles.paired page hp hpos
  have hne : s.b page ≠ page := fun heq ↦ by exact BudPos.flip_ne hpos (by rw [← hpair.pos_b, heq])
  have hbuddy := hpair.used_b
  have hvirt := hpair.virt_f
  refine ⟨?_, h.head_eq, h.slot_eq, h.rings,
    h.tiles.merge hp hpos (by simp [hstate]) (by simp [hstate']), fun q hq ↦ h.used_mem q hq.1,
    fun q hq hused ↦ h.slot_unused q hq hused.1, fun k q ↦ ?_, ?_, ?_, ?_⟩
  · simp [mergePage, hstate, hstate', hpair.b_b, hpair.f_b, hpair.virt_f]
  · rw [h.free_iff]
    simp only [setState_state, setState_order]
    grind
  all_goals grind [h.all, h.raw_mem, h.used_mem, h.slot_unused, h.raw_nodup]

/-! ### `buddy_put` -/

structure Mergeable (s : PageAlct) (g : Contents) (page : ℕ) : Prop where
  used : g.used page
  live : s.state page = .alloced
  half : s.pos page ≠ .nobud
  buddy_free : s.state (s.b page) = .free

/-- A round of `buddy_put` that merges a live block with its buddy: the descriptors of the two are in
no use, and the block of which they were the halves is live. -/
structure Merged (s : PageAlct) (g : Contents) (page : ℕ) (s' : PageAlct) (g' : Contents) : Prop where
  used : ∀ q, g'.used q ↔ g.used q ∧ q ≠ page ∧ q ≠ s.b page
  frame : Frame s s' g'.used
  state : ∀ q, g'.used q → s'.state q = if q = s.f page then .alloced else s.state q

/-- The end of `buddy_put`: a live block goes to the back of the free list of its order. -/
structure Released (s : PageAlct) (g : Contents) (page : ℕ) (s' : PageAlct) (g' : Contents) : Prop where
  contents : g' = { g with
    free := update g.free (s.order page) (g.free (s.order page) ++ [page]) }
  frame : ∀ kept, Frame s s' kept
  state : s'.state = update s.state page .free

theorem Mergeable.f_ne (hm : Mergeable s g page) (h : Buddy lay s g raw covered) :
    s.f page ≠ page ∧ s.f page ≠ s.b page := by
  have hvirt := (h.tiles.paired page hm.used hm.half).virt_f
  grind [hm.live, hm.buddy_free]

theorem buddyPutLoop_merge (h : Buddy lay s g raw covered) (hm : Mergeable s g page) (fuel : ℕ) :
    ∃ s' g', buddyPutLoop (fuel + 1) s page = buddyPutLoop fuel s' (s.f page) ∧
      Buddy lay s' g' raw covered ∧ Merged s g page s' g' := by
  have hpair := h.tiles.paired page hm.used hm.half
  have hne : page ≠ s.b page := fun heq ↦ by
    have hbuddy := hm.buddy_free
    rw [← heq, hm.live] at hbuddy
    cases hbuddy
  obtain ⟨list', free', hrun₁, h₁⟩ := buddyGetPtc_spec h hpair.used_b hm.buddy_free
  set s₁ := { s with list := list' }.setState (s.b page) .alloced with hs₁
  have hb₁ : s₁.b page = s.b page := rfl
  have hf₁ : s₁.f page = s.f page := rfl
  have hstate₁ : s₁.state page = .alloced := by simp [hs₁, hne, hm.live]
  obtain ⟨hrun₂, h₂⟩ := mergePage_spec h₁ hm.used hm.half hstate₁ (by simp [hs₁])
  rw [hb₁, hf₁] at hrun₂ h₂
  obtain ⟨pool₃, hrun₃, h₃, hagree₃⟩ := freePage_spec h₂
  obtain ⟨pool₄, hrun₄, h₄, hagree₄⟩ := freePage_spec h₃
  refine ⟨_, _, ?_, h₄, fun _ ↦ Iff.rfl, ⟨rfl, fun p hp ↦ ?_, fun p hp ↦ ?_, fun _ _ ↦ rfl,
    fun _ _ ↦ rfl, fun _ _ ↦ rfl, fun _ _ ↦ rfl⟩, fun p hp ↦ ?_⟩
  · rw [buddyPutLoop, if_neg hm.half, hrun₁]
    simp only [bind, Except.bind, ne_eq, not_true_eq_false, ↓reduceIte, hb₁, hrun₂, setState_b, hrun₃]
    rw [hrun₄]
  · exact (hagree₄ p hp).1.trans (hagree₃ p hp).1
  · exact (hagree₄ p hp).2.trans (hagree₃ p hp).2
  · simp [setSlots, hs₁, hp.2.2]

theorem Merged.spec (hmerged : Merged s g page s' g') (h : Buddy lay s g raw covered) (hm : Mergeable s g page) :
    g'.used (s.f page) ∧ s'.state (s.f page) = .alloced ∧
      s'.order (s.f page) = s.order page + 1 ∧ SameOthers s g page s' g' (s.f page) := by
  have hpair := h.tiles.paired page hm.used hm.half
  have hused : g'.used (s.f page) := (hmerged.used _).mpr ⟨hpair.used_f, hm.f_ne h⟩
  refine ⟨hused, by simp [hmerged.state _ hused], ?_, hmerged.frame.sameOthers ?_ ?_⟩
  · rw [hmerged.frame.order _ hused, hpair.order_f]
  all_goals grind [LiveExcept, hmerged.used, hmerged.state, hpair.virt_f, hm.buddy_free]

theorem buddyPutLoop_stop (hstop : s.pos page = .nobud ∨ s.state (s.b page) ≠ .free) (fuel : ℕ) :
    buddyPutLoop (fuel + 1) s page = .ok (s, page) := by
  by_cases hpos : s.pos page = .nobud
  · simp [buddyPutLoop, hpos]
  · have hbuddy := hstop.resolve_left hpos
    simp [buddyPutLoop, buddyGetPtc, hpos, hbuddy]

theorem buddyPutLoop_rule {P : PageAlct → Contents → ℕ → Prop}
    (hmerge : ∀ {s g page s' g'}, Buddy lay s g raw covered → Mergeable s g page →
      Merged s g page s' g' → P s g page → P s' g' (s.f page))
    (h : Buddy lay s g raw covered) (hp : g.used page) (hstate : s.state page = .alloced)
    (hP : P s g page) (fuel : ℕ) (hfuel : nrBuddyOrder ≤ s.order page + fuel) :
    ∃ s' g' p', buddyPutLoop fuel s page = .ok (s', p') ∧ Buddy lay s' g' raw covered ∧ g'.used p' ∧
      s'.state p' = .alloced ∧ (s'.pos p' = .nobud ∨ s'.state (s'.b p') ≠ .free) ∧ P s' g' p' := by
  -- every merge goes up one order
  induction fuel generalizing s g page with
  | zero =>
    have := h.tiles.order_lt page hp
    omega
  | succ fuel ih =>
    by_cases hstop : s.pos page = .nobud ∨ s.state (s.b page) ≠ .free
    · exact ⟨s, g, page, buddyPutLoop_stop hstop fuel, h, hp, hstate, hstop, hP⟩
    · have hm : Mergeable s g page := by
        simp only [ne_eq, not_or, not_not] at hstop
        exact ⟨hp, hstate, hstop.1, hstop.2⟩
      obtain ⟨s₁, g₁, hrun₁, h₁, hmerged⟩ := buddyPutLoop_merge h hm fuel
      obtain ⟨hused₁, hstate₁, horder₁, -⟩ := hmerged.spec h hm
      rw [hrun₁]
      exact ih h₁ hused₁ hstate₁ (hmerge h hm hmerged hP) (by omega)

theorem buddyPut_of_loop {s₁ : PageAlct} {g₁ : Contents} {p₁ : ℕ} (horder : s.order page < nrBuddyOrder)
    (hstate : s.state page = .alloced) (hloop : buddyPutLoop addressSpace s page = .ok (s₁, p₁))
    (h₁ : Buddy lay s₁ g₁ raw covered) (hused₁ : g₁.used p₁) (hstate₁ : s₁.state p₁ = .alloced) :
    ∃ s' g', s.buddyPut page = .ok s' ∧ Buddy lay s' g' raw covered ∧ Released s₁ g₁ p₁ s' g' := by
  have hk := h₁.tiles.order_lt p₁ hused₁
  have hnotfree : ∀ j, p₁ ∉ g₁.free j := by grind [h₁.free_iff]
  obtain ⟨list', hrun₂, hrings⟩ := h₁.rings.push hk (h₁.used_mem p₁ hused₁) hnotfree
  refine ⟨{ s₁.setState p₁ .free with list := list' },
    { g₁ with free := update g₁.free (s₁.order p₁) (g₁.free (s₁.order p₁) ++ [p₁]) },
    ?_, ⟨h₁.head_eq, h₁.slot_eq, hrings, ?_, h₁.used_mem, h₁.slot_unused, ?_, h₁.all, h₁.raw_mem,
      h₁.raw_nodup⟩, rfl, Frame.setState s₁ list' p₁ .free, rfl⟩
  · have hhead : (s₁.setState p₁ .free).headAt (s₁.order p₁) = lay.headAt (s₁.order p₁) :=
      h₁.headAt_eq _
    simp [buddyPut, horder, hstate, hloop, hhead, hrun₂]
  · refine h₁.tiles.congr ⟨fun _ _ ↦ rfl, fun _ _ ↦ rfl, fun _ _ ↦ rfl, fun _ _ ↦ rfl,
      fun _ _ ↦ rfl, fun _ _ ↦ rfl, fun q _ ↦ ?_⟩
    by_cases hqp : q = p₁ <;> simp [hqp, hstate₁]
  grind [h₁.free_iff, setState_state, setState_order]

theorem Released.sameOthers (hreleased : Released s g page s' g') (h : Buddy lay s g raw covered) :
    SameOthers s g page s' g' 0 := by
  obtain ⟨rfl, hframe, hstate⟩ := hreleased
  refine (hframe g.used).sameOthers (fun p ↦ ?_) fun p hp ↦ hp.1
  have hzero := fun hused ↦ Layout.descs_ne_zero (h.used_mem p hused)
  simp only [LiveExcept, hstate, update_apply]
  grind

theorem buddyPut_rule {P : PageAlct → Contents → ℕ → Prop}
    (hmerge : ∀ {s g page s' g'}, Buddy lay s g raw covered → Mergeable s g page →
      Merged s g page s' g' → P s g page → P s' g' (s.f page))
    (h : Buddy lay s g raw covered) (hp : g.used page) (hstate : s.state page = .alloced) (hP : P s g page) :
    ∃ s₁ g₁ p₁ s' g', s.buddyPut page = .ok s' ∧ Buddy lay s' g' raw covered ∧
      Buddy lay s₁ g₁ raw covered ∧ g₁.used p₁ ∧ s₁.state p₁ = .alloced ∧
      (s₁.pos p₁ = .nobud ∨ s₁.state (s₁.b p₁) ≠ .free) ∧ P s₁ g₁ p₁ ∧ Released s₁ g₁ p₁ s' g' := by
  obtain ⟨s₁, g₁, p₁, hrun₁, h₁, hused₁, hstate₁, hstop₁, hP₁⟩ :=
    buddyPutLoop_rule hmerge h hp hstate hP addressSpace (by simp [nrBuddyOrder, addressSpace])
  obtain ⟨s', g', hrun', h', hreleased⟩ :=
    buddyPut_of_loop (h.tiles.order_lt page hp) hstate hrun₁ h₁ hused₁ hstate₁
  grind

theorem buddyPut_spec (h : Buddy lay s g raw covered) (hp : g.used page) (hstate : s.state page = .alloced) :
    ∃ s' g', s.buddyPut page = .ok s' ∧ Buddy lay s' g' raw covered ∧ SameOthers s g page s' g' 0 := by
  obtain ⟨s₁, g₁, p₁, s', g', hrun, h', h₁, -, -, -, hothers, hreleased⟩ :=
    buddyPut_rule (P := fun s₁ g₁ p₁ ↦ SameOthers s g page s₁ g₁ p₁)
      (fun h hm hmerged hothers ↦ hothers.trans (hmerged.spec h hm).2.2.2) h hp hstate (.refl s g page)
  exact ⟨s', g', hrun, h', hothers.trans (hreleased.sameOthers h₁)⟩

theorem dividePage_spec (h : Buddy lay s g (r :: l :: raw) covered) (hf : g.used f)
    (hstate : s.state f = .alloced) (horder : s.order f ≠ 0) :
    Buddy lay (s.dividePage f l r).2 { g with used := fun p ↦ g.used p ∨ p = l ∨ p = r } raw
        covered ∧
      (s.dividePage f l r).2.allocedRbt = s.allocedRbt ∧
      ∀ p, g.used p → (s.dividePage f l r).2.addr p = s.addr p ∧ (s.dividePage f l r).2.size p = s.size p ∧
        (s.dividePage f l r).2.order p = s.order p := by
  obtain ⟨hl, hlslot, hlused⟩ := h.raw_mem l (by simp)
  obtain ⟨hr, hrslot, hrused⟩ := h.raw_mem r (by simp)
  obtain ⟨hrfresh, hnodup⟩ := List.nodup_cons.mp h.raw_nodup
  have hlr : l ≠ r := fun heq ↦ hrfresh (by simp [heq])
  have hlist : (s.dividePage f l r).2.list = s.list := by simp [dividePage, horder, setState]
  have hhead : (s.dividePage f l r).2.head = s.head := by simp [dividePage, horder, setState]
  have hslot : (s.dividePage f l r).2.slotAlct = s.slotAlct := by simp [dividePage, horder, setState]
  have hkeep : ∀ p, p ≠ l → p ≠ r → (s.dividePage f l r).2.addr p = s.addr p ∧
      (s.dividePage f l r).2.size p = s.size p ∧
      (s.dividePage f l r).2.order p = s.order p := by
    intro p hpl hpr
    rw [dividePage_addr horder, dividePage_size horder, dividePage_order horder]
    simp [hpl, hpr]
  refine ⟨⟨hhead.trans h.head_eq, hslot.trans h.slot_eq, ?_,
    h.tiles.divide hf (by simp [hstate]) horder hlused hrused hlr, ?_, ?_, ?_, ?_, ?_,
    (List.nodup_cons.mp hnodup).2⟩, ?_, ?_⟩
  · obtain ⟨hring, hmem, hfree, hfree_mem, honce⟩ := h.rings
    rw [hlist]
    have hne : ∀ x ∈ lay.descs, x ∉ g.slots → ∀ y ∈ lay.slotHead :: g.slots, y ≠ x := by
      grind [Layout.descs_ne_slotHead]
    refine ⟨hring.congr fun y hy ↦ ?_, hmem, hfree, hfree_mem, honce⟩
    obtain ⟨haddr, hsize, -⟩ := hkeep y (hne l hl hlslot y hy) (hne r hr hrslot y hy)
    exact ⟨haddr, hsize⟩
  · grind [h.used_mem]
  · grind [h.slot_unused]
  · intro k p
    rw [h.free_iff, dividePage_state horder, dividePage_order horder]
    grind
  · grind [h.all]
  · grind [h.raw_mem]
  · simp [dividePage, horder, setState, allocedRbt]
  grind

/-! ### `buddy_alloc` -/

/-- A round of `buddy_alloc` that splits a live block with the first two descriptors of the pool: the
left half is live and the right half is at the back of the free list of its order. -/
structure Halved (s : PageAlct) (g : Contents) (f l r : ℕ) (s' : PageAlct) (g' : Contents) : Prop where
  slots : g.slots = l :: r :: g'.slots
  used : ∀ q, g'.used q ↔ g.used q ∨ q = l ∨ q = r
  free : g'.free = update g.free (s.order f - 1) (g.free (s.order f - 1) ++ [r])
  frame : Frame s s' g.used
  state : ∀ q, g.used q → s'.state q = if q = f then .virt else s.state q
  fresh : ¬ g.used l ∧ ¬ g.used r ∧ l ≠ r
  live_left : s'.state l = .alloced
  free_right : s'.state r = .free
  order : s'.order l = s.order f - 1 ∧ s'.order r = s.order f - 1
  addr : s'.addr l = s.addr f ∧ s'.addr r = s.addr f + pageSize * 2 ^ (s.order f - 1)
  f : s'.f l = f ∧ s'.f r = f
  b : s'.b l = r ∧ s'.b r = l
  pos : s'.pos l = .left ∧ s'.pos r = .right

theorem halve_spec {rest : List ℕ} (h : Buddy lay s g raw covered) (hf : g.used f)
    (hstate : s.state f = .alloced) (horder : s.order f ≠ 0) (hslots : g.slots = l :: r :: rest) :
    ∃ s₁ s₂ s' g', s.newPage = .ok (some l, s₁) ∧ s₁.newPage = .ok (some r, s₂) ∧
      (s₂.dividePage f l r).1 = .ok ∧ (s₂.dividePage f l r).2.buddyPut r = .ok s' ∧
      Buddy lay s' g' raw covered ∧ Halved s g f l r s' g' := by
  obtain ⟨hnil, -⟩ | ⟨l', rest', s₁, hslots₁, hrun₁, h₁, hframe₁, hstate₁⟩ := newPage_spec h
  · simp [hnil] at hslots
  obtain ⟨rfl, rfl⟩ : l' = l ∧ rest' = r :: rest := by simpa [hslots₁] using hslots
  obtain ⟨hnil, -⟩ | ⟨r', rest', s₂, hslots₂, hrun₂, h₂, hframe₂, hstate₂⟩ := newPage_spec h₁
  · simp at hnil
  cases hslots₂
  obtain ⟨-, -, hlused⟩ := h₂.raw_mem l' (by simp)
  obtain ⟨-, -, hrused⟩ := h₂.raw_mem r (by simp)
  have hlr : l' ≠ r := fun heq ↦ (List.nodup_cons.mp h₂.raw_nodup).1 (by simp [heq])
  have hfl : l' ≠ f := fun heq ↦ hlused (heq ▸ hf)
  have hfr : r ≠ f := fun heq ↦ hrused (heq ▸ hf)
  have hframe : Frame s s₂ g.used := hframe₁.trans hframe₂ fun _ hp ↦ hp
  have horder₂ : s₂.order f = s.order f := hframe.order f hf
  have hne₂ : s₂.order f ≠ 0 := by rwa [horder₂]
  have hlive₂ : s₂.state f = .alloced := by rw [hstate₂, hstate₁, hstate]
  obtain ⟨h₃, htree₃, hkept₃⟩ := dividePage_spec h₂ (f := f) hf hlive₂ hne₂
  have hst := dividePage_state (l := l') (r := r) hne₂
  have hb := dividePage_b (l := l') (r := r) hne₂
  have hord := dividePage_order (l := l') (r := r) hne₂
  have hff := dividePage_f (l := l') (r := r) hne₂
  have hpos := dividePage_pos (l := l') (r := r) hne₂
  have haddr := dividePage_addr (l := l') (r := r) hne₂
  have hok := dividePage_ok (l := l') (r := r) hne₂
  -- the left half is live, so the right half is not merged with it
  have hstop : (s₂.dividePage f l' r).2.state ((s₂.dividePage f l' r).2.b r) ≠ .free := by simp [hb, hst, hfl]
  obtain ⟨s', g', hrun', h', rfl, hframe', hstate'⟩ := buddyPut_of_loop
    (h₃.tiles.order_lt r (by simp)) (by simp [hst, hfr])
    (buddyPutLoop_stop (Or.inr hstop) (addressSpace - 1)) h₃ (by simp) (by simp [hst, hfr])
  refine ⟨s₁, s₂, s', _, hrun₁, hrun₂, hok, hrun', h', hslots₁, fun _ ↦ Iff.rfl, ?_, ?_, ?_,
    ⟨hlused, hrused, hlr⟩, ?_, by simp [hstate'], ?_, ?_, ?_, ?_, ?_⟩
  · simp [hord, horder₂]
  · have hframe₃ : Frame s₂ (s₂.dividePage f l' r).2 g.used := by constructor <;> grind
    exact (hframe.trans hframe₃ fun _ hp ↦ hp).trans (hframe' g.used) fun _ hp ↦ hp
  · intro q hq
    have hql : q ≠ l' := fun heq ↦ hlused (heq ▸ hq)
    have hqr : q ≠ r := fun heq ↦ hrused (heq ▸ hq)
    simp [hstate', hst, hql, hqr, hstate₂, hstate₁]
  · simp [hstate', hst, hlr, hfl]
  · simp [(hframe' fun _ ↦ True).order _ trivial, hord, horder₂]
  · obtain ⟨k, hk⟩ := Nat.exists_eq_add_one_of_ne_zero horder
    have hsizef := h.tiles.size_eq f hf
    have hboundf := h.tiles.bound f hf
    have hpow : pageSize * 2 ^ (k + 1) = 2 * (pageSize * 2 ^ k) := by
      rw [Nat.pow_succ, ← Nat.mul_assoc, Nat.mul_comm]
    have hpos_half := blockSize_pos k
    have hhalf : s₂.size f / 2 = pageSize * 2 ^ k := by
      rw [hframe.size f hf, hsizef, hk, hpow]
      omega
    rw [hsizef, hk, hpow] at hboundf
    have hword : wordAdd (s.addr f) (pageSize * 2 ^ k) = s.addr f + pageSize * 2 ^ k :=
      wordAdd_of_lt (by omega)
    simp [(hframe' fun _ ↦ True).addr _ trivial, haddr, hframe.addr f hf, hhalf, hword, hlr, hk]
  · simp [(hframe' fun _ ↦ True).f _ trivial, hff]
  · simp [(hframe' fun _ ↦ True).b _ trivial, hb, hlr]
  · simp [(hframe' fun _ ↦ True).pos _ trivial, hpos, hlr]

theorem Halved.sameOthers (hhalved : Halved s g f l r s' g') : SameOthers s g f s' g' l := by
  obtain ⟨hl, hr, -⟩ := hhalved.fresh
  grind [hhalved.frame.sameOthers, LiveExcept, hhalved.state, hhalved.used, hhalved.free_right]

/-- What `buddy_alloc` does to get a block of an order: it takes the first free block `p` of its list
and splits it down to the order. -/
inductive Carves (lay : Layout) (raw : List ℕ) (covered : ℕ → Prop) (s : PageAlct) (g : Contents)
    (p : ℕ) : ℕ → ℕ → PageAlct → Contents → Prop
  | take {rest : List ℕ} {list' : Links ℕ} (hfirst : g.free (s.order p) = p :: rest) :
      Carves lay raw covered s g p (s.order p) p ({ s with list := list' }.setState p .alloced)
        { g with free := update g.free (s.order p) rest }
  | halve {k f l r : ℕ} {s₁ s' : PageAlct} {g₁ g' : Contents}
      (hlarger : Carves lay raw covered s g p (k + 1) f s₁ g₁) (h₁ : Buddy lay s₁ g₁ raw covered)
      (hhalved : Halved s₁ g₁ f l r s' g') : Carves lay raw covered s g p k l s' g'

theorem Carves.spec {p : ℕ} (h : Buddy lay s g raw covered) (hc : Carves lay raw covered s g p k l s' g') :
    k ≤ s.order p ∧ g'.used l ∧ s'.state l = .alloced ∧ s'.order l = k ∧ s'.addr l = s.addr p ∧
      2 * (s.order p - k) ≤ g.slots.length ∧ g'.slots = g.slots.drop (2 * (s.order p - k)) ∧
      SameOthers s g 0 s' g' l := by
  induction hc with
  | take hfirst =>
    obtain ⟨hused, hstate, -⟩ := (h.free_iff (s.order p) p).mp (by simp [hfirst])
    exact ⟨le_rfl, hused, by simp, rfl, rfl, by simp, by simp, h.sameOthers_unfree hstate⟩
  | @halve k f l r s₁ s' g₁ g' _ _ hhalved ih =>
    obtain ⟨hle, -, -, horder, haddr, -, hslots, hothers⟩ := ih
    have hdrop := hhalved.slots
    rw [hslots] at hdrop
    have hlength := congrArg List.length hdrop
    simp only [length_drop, length_cons] at hlength
    refine ⟨by omega, (hhalved.used l).mpr (by simp), hhalved.live_left, ?_, ?_, by omega, ?_,
      hothers.trans hhalved.sameOthers⟩
    · rw [hhalved.order.1, horder, Nat.add_sub_cancel]
    · rw [hhalved.addr.1, haddr]
    · rw [show 2 * (s.order p - k) = 2 * (s.order p - (k + 1)) + 2 by omega, ← drop_drop, hdrop]
      rfl

/-- The free block that `buddy_alloc` uses for an order: the first of the first free list from the
order on that is not empty. -/
structure FirstFit (s : PageAlct) (free : ℕ → List ℕ) (k p : ℕ) : Prop where
  le : k ≤ s.order p
  lt : s.order p < nrBuddyOrder
  first : ∃ rest, free (s.order p) = p :: rest
  below : ∀ i, k ≤ i → i < s.order p → free i = []

theorem FirstFit.unique {free : ℕ → List ℕ} {p q : ℕ} (hp : FirstFit s free k p)
    (hq : FirstFit s free k q) : p = q := by
  obtain ⟨rest, hfirst⟩ := hp.first
  obtain ⟨rest', hfirst'⟩ := hq.first
  have horder : s.order p = s.order q := by
    rcases Nat.lt_trichotomy (s.order p) (s.order q) with hlt | heq | hlt
    · simp [hq.below _ hp.le hlt] at hfirst
    · exact heq
    · simp [hp.below _ hq.le hlt] at hfirst'
  rw [horder, hfirst'] at hfirst
  exact (List.cons.inj hfirst).1.symm

/-- `buddy_alloc`: there is no block of the order or above it, and nothing changes; or it carves the
block from the first that fits; or the pool has not two descriptors for every split. Assumes: as many
rounds as orders are left. -/
theorem buddyAlloc_spec (h : Buddy lay s g raw covered) (k fuel : ℕ)
    (hpos : 0 < fuel) (hfuel : nrBuddyOrder < k + fuel) :
    ((∀ i, k ≤ i → i < nrBuddyOrder → g.free i = []) ∧ buddyAlloc fuel s k = .ok (none, s)) ∨
      ∃ p, FirstFit s g.free k p ∧ ((g.slots.length < 2 * (s.order p - k) ∧ buddyAlloc fuel s k = .error .unset) ∨
          ∃ l s' g', buddyAlloc fuel s k = .ok (some l, s') ∧ Buddy lay s' g' raw covered ∧
            Carves lay raw covered s g p k l s' g') := by
  induction fuel generalizing k with
  | zero => exact absurd hpos (Nat.lt_irrefl 0)
  | succ fuel ih =>
    by_cases hlast : nrBuddyOrder ≤ k
    · refine Or.inl ⟨fun i hi hlt ↦ by omega, by simp [buddyAlloc, hlast]⟩
    obtain ⟨hempty, hget⟩ | ⟨p, rest, list', hfirst, hget, h'⟩ := buddyGet_spec h (k := k) (by omega)
    swap
    · obtain ⟨-, -, rfl⟩ := (h.free_iff k p).mp (by simp [hfirst])
      refine Or.inr ⟨p, ⟨le_rfl, by omega, ⟨rest, hfirst⟩, fun i hi hlt ↦ by omega⟩, Or.inr ⟨p, _, _, ?_, h',
        .take hfirst⟩⟩
      simp [buddyAlloc, hlast, hget]
    have hempty' : ∀ i, k ≤ i → ¬ k + 1 ≤ i → g.free i = [] := fun i hi hlt ↦ by rwa [show i = k by omega]
    rcases ih (k + 1) (by omega) (by omega) with ⟨hnone, hrun⟩ | ⟨p, ⟨hle, hlt, hfirst, hbelow⟩, hfit⟩
    · refine Or.inl ⟨fun i hi hlt ↦ ?_, ?_⟩
      · by_cases hik : k + 1 ≤ i
        exacts [hnone i hik hlt, hempty' i hi hik]
      · simp [buddyAlloc, hlast, hget, hrun]
    have hfit' : FirstFit s g.free k p := by
      refine ⟨by omega, hlt, hfirst, fun i hi hlt ↦ ?_⟩
      by_cases hik : k + 1 ≤ i
      exacts [hbelow i hik hlt, hempty' i hi hik]
    refine Or.inr ⟨p, hfit', ?_⟩
    obtain ⟨hfew, hrun⟩ | ⟨f, s₁, g₁, hrun₁, h₁, hcarves⟩ := hfit
    · refine Or.inl ⟨by omega, ?_⟩
      simp [buddyAlloc, hlast, hget, hrun]
    -- a larger block was found: two descriptors are taken for its halves
    obtain ⟨-, hused₁, hlive₁, horder₁, -, hlength, hslots₁, -⟩ := hcarves.spec h
    have hleft := congrArg List.length hslots₁
    rw [length_drop] at hleft
    match hpool : g₁.slots with
    | [] =>
      obtain ⟨-, hnew⟩ | ⟨l, rest, s₂, hslots, -⟩ := newPage_spec h₁
      · refine Or.inl ⟨?_, ?_⟩
        · simp only [hpool, length_nil] at hleft
          omega
        · simp [buddyAlloc, hlast, hget, hrun₁, hnew]
          rfl
      · simp [hpool] at hslots
    | [l] =>
      obtain ⟨hnil, -⟩ | ⟨l', rest, s₂, hslots, hnew₂, h₂, -⟩ := newPage_spec h₁
      · simp [hpool] at hnil
      obtain ⟨rfl, rfl⟩ : l' = l ∧ rest = [] := by simpa [hpool, eq_comm] using hslots
      obtain ⟨-, hnew⟩ | ⟨r, rest, s₃, hslots₃, -⟩ := newPage_spec h₂
      · refine Or.inl ⟨?_, ?_⟩
        · simp only [hpool, length_singleton] at hleft
          omega
        · simp [buddyAlloc, hlast, hget, hrun₁, hnew₂, hnew]
          rfl
      · simp at hslots₃
    | l :: r :: rest =>
      obtain ⟨s₂, s₃, s', g', hnew₂, hnew₃, hok, hput, h', hhalved⟩ :=
        halve_spec h₁ hused₁ hlive₁ (by omega) hpool
      refine Or.inr ⟨l, s', g', ?_, h', .halve hcarves h₁ hhalved⟩
      simp [buddyAlloc, hlast, hget, hrun₁, hnew₂, hnew₃, hok, hput]

end Specs

end PageAlct

end Lanthorn
