import Lanthorn.Kernel.List

/-!
# `lib/slot.c`

A pool of slots of one size. The free slots form an intrusive list whose nodes lie in the slots
themselves, so that the two words at the start of a slot are the links of the list while the slot is
free and belong to its user while it is not.

`slotInsert_ring` says what a stretch of memory adds to the pool: the slots that fit, one after the
other. `SlotPool.pool_contract` is the contract of the pool over any run of its calls. It needs the memory to
end a slot before the end of the address space: the loop of `slot_insert` adds the size of a slot once
more than there are slots, and closer to the end this sum wraps (`slotInsert_wraps`).
-/

namespace Lanthorn

open Library List

/-- `slot_alct_t`, with the address of its list head. -/
structure SlotAlct where
  slotSize : ℕ
  freeSlotHead : ℕ

/-- The size of `list_node_t`. -/
def listNodeSize : ℕ := 8

/-- `slot_init`. -/
def slotInit (L : Links ℕ) (alct : SlotAlct) (slotSize : ℕ) : SlotAlct × Links ℕ :=
  ({ alct with slotSize := if slotSize < listNodeSize then listNodeSize else slotSize },
    listInit L alct.freeSlotHead)

/-- `slot_alloc`: nothing for `E_NOSLOT`. -/
def slotAlloc (L : Links ℕ) (alct : SlotAlct) : Result (Option ℕ × Links ℕ) :=
  if listIsempty L alct.freeSlotHead then return (none, L)
  else do
    let (front, L) ← listPopFront L alct.freeSlotHead
    return (some front, L)

/-- `slot_free`. -/
def slotFree (L : Links ℕ) (alct : SlotAlct) (addr : ℕ) : Result (Links ℕ) :=
  listPushBack L alct.freeSlotHead addr

/-- The loop of `slot_insert`. -/
def slotInsertLoop (alct : SlotAlct) (limit : ℕ) : ℕ → Links ℕ → ℕ → Result (Links ℕ)
  | 0, _, _ => throw .endless
  | fuel + 1, L, addr =>
    if wordAdd addr alct.slotSize ≤ limit then do
      let L ← slotFree L alct addr
      slotInsertLoop alct limit fuel L (wordAdd addr alct.slotSize)
    else return L

/-- `slot_insert`. -/
def slotInsert (L : Links ℕ) (alct : SlotAlct) (addr size : ℕ) : Result (Links ℕ) :=
  slotInsertLoop alct (wordAdd addr size) addressSpace L addr

/-! ### The pool as a ring -/

section Pool

variable {L : Links ℕ} {alct : SlotAlct} {xs : List ℕ}

/-- The addresses of `count` slots from an address on. -/
def slotsFrom (addr slotSize count : ℕ) : List ℕ :=
  (List.range count).map fun i ↦ addr + i * slotSize

theorem mem_slotsFrom {addr slotSize count x : ℕ} :
    x ∈ slotsFrom addr slotSize count ↔ ∃ i < count, x = addr + i * slotSize := by simp [slotsFrom, eq_comm]

theorem slotsFrom_succ (addr slotSize count : ℕ) : slotsFrom addr slotSize (count + 1) =
      addr :: slotsFrom (addr + slotSize) slotSize count := by
  simp only [slotsFrom, range_succ_eq_map, map_cons, map_map, Nat.zero_mul, Nat.add_zero, List.cons.injEq, true_and]
  grind [map_congr_left]

theorem nodup_slotsFrom {slotSize : ℕ} (addr count : ℕ) (hpos : 0 < slotSize) :
    (slotsFrom addr slotSize count).Nodup := by
  refine List.Nodup.map (fun i j hij ↦ ?_) nodup_range
  grind [Nat.eq_of_mul_eq_mul_right]

theorem slotInsertLoop_ring {limit addr count fuel : ℕ} (hring : IsRing L alct.freeSlotHead xs)
    (hzero : 0 ∉ alct.freeSlotHead :: xs) (hpos : 0 < alct.slotSize)
    (hfit : addr + count * alct.slotSize ≤ limit) (hmore : limit < addr + (count + 1) * alct.slotSize)
    (hwrap : addr + (count + 1) * alct.slotSize < addressSpace) (haddr : addr ≠ 0)
    (hfresh : ∀ x ∈ slotsFrom addr alct.slotSize count, x ∉ alct.freeSlotHead :: xs) (hfuel : count < fuel) :
    ∃ L', slotInsertLoop alct limit fuel L addr = .ok L' ∧
      IsRing L' alct.freeSlotHead (xs ++ slotsFrom addr alct.slotSize count) := by
  induction count generalizing L xs addr fuel with
  | zero =>
    obtain ⟨fuel, rfl⟩ := exists_succ hfuel
    refine ⟨L, ?_, by simpa [slotsFrom] using hring⟩
    have hstop : ¬ wordAdd addr alct.slotSize ≤ limit := by
      rw [wordAdd_of_lt (by omega)]
      omega
    simp [slotInsertLoop, hstop]
  | succ count ih =>
    obtain ⟨fuel, rfl⟩ := exists_succ hfuel
    have hstep : (count + 1) * alct.slotSize = count * alct.slotSize + alct.slotSize :=
      Nat.succ_mul _ _
    have hstep' : (count + 1 + 1) * alct.slotSize =
        count * alct.slotSize + alct.slotSize + alct.slotSize := by rw [Nat.succ_mul, hstep]
    rw [slotsFrom_succ] at hfresh ⊢
    obtain ⟨L₁, hrun₁, hring₁, -⟩ := listPushBack_ring hring hzero (hfresh addr (by simp))
    have hword : wordAdd addr alct.slotSize = addr + alct.slotSize := wordAdd_of_lt (by omega)
    have hnodup := nodup_slotsFrom addr (count + 1) hpos
    rw [slotsFrom_succ] at hnodup
    have hfresh' : ∀ x ∈ slotsFrom (addr + alct.slotSize) alct.slotSize count,
        x ∉ alct.freeSlotHead :: (xs ++ [addr]) := by grind
    have hfit' : addr + alct.slotSize + count * alct.slotSize ≤ limit := by omega
    obtain ⟨L', hrun, hring'⟩ := ih hring₁ (by simpa [haddr.symm] using hzero) hfit' (by omega)
      (by omega) (by omega) hfresh' (show count < fuel by omega)
    refine ⟨L', ?_, by simpa using hring'⟩
    rw [slotInsertLoop, hword, if_pos (by omega), slotFree, hrun₁]
    exact hrun

theorem slotInsert_ring (alct : SlotAlct) (addr size : ℕ) (hring : IsRing L alct.freeSlotHead xs)
    (hzero : 0 ∉ alct.freeSlotHead :: xs) (hpos : 0 < alct.slotSize) (haddr : addr ≠ 0)
    (hwrap : addr + (size / alct.slotSize + 1) * alct.slotSize < addressSpace)
    (hfresh : ∀ x ∈ slotsFrom addr alct.slotSize (size / alct.slotSize), x ∉ alct.freeSlotHead :: xs) :
    ∃ L', slotInsert L alct addr size = .ok L' ∧
      IsRing L' alct.freeSlotHead (xs ++ slotsFrom addr alct.slotSize (size / alct.slotSize)) := by
  have hle : size / alct.slotSize * alct.slotSize ≤ size := Nat.div_mul_le_self _ _
  have hlt : size < (size / alct.slotSize + 1) * alct.slotSize := by
    rw [Nat.mul_comm]
    exact Nat.lt_mul_div_succ size hpos
  have hcount : size / alct.slotSize ≤ size := Nat.div_le_self _ _
  rw [slotInsert, wordAdd_of_lt (by omega)]
  exact slotInsertLoop_ring hring hzero hpos (by omega) (by omega) (by omega) haddr hfresh (by omega)

theorem slotAlloc_ring {x : ℕ} (alct : SlotAlct) (hring : IsRing L alct.freeSlotHead (x :: xs))
    (hzero : 0 ∉ alct.freeSlotHead :: x :: xs) :
    ∃ L', slotAlloc L alct = .ok (some x, L') ∧ IsRing L' alct.freeSlotHead xs ∧
      ∀ y, y ∉ alct.freeSlotHead :: x :: xs → L.AgreeAt L' y := by
  obtain ⟨L', hrun, hrest⟩ := listPopFront_ring hring hzero
  have hempty : ¬ listIsempty L alct.freeSlotHead = true := by simp [listIsempty_iff hring]
  exact ⟨L', by simp [slotAlloc, hempty, hrun], hrest⟩

theorem slotAlloc_empty (alct : SlotAlct) (hring : IsRing L alct.freeSlotHead []) :
    slotAlloc L alct = .ok (none, L) := by
  have hempty : listIsempty L alct.freeSlotHead = true := (listIsempty_iff hring).mpr rfl
  simp [slotAlloc, hempty]

end Pool

/-! ### Runs of the pool -/

/-- The pool with the ranges of memory given to it, the slots in them, and the slots allocated. -/
structure SlotPool where
  links : Links ℕ
  alct : SlotAlct
  ranges : List (ℕ × ℕ)
  slots : List ℕ
  used : List ℕ

/-- The calls of the pool, and writes of the users of the slots. -/
inductive SlotCall
  | insert (addr size : ℕ)
  | alloc
  | free (addr : ℕ)
  | write (links : Links ℕ)

namespace SlotPool

/-- The pool after `slot_init` and any calls. -/
def system : System SlotPool SlotCall where
  init s := ∃ L alct slotSize, alct.freeSlotHead ≠ 0 ∧
    (s.alct, s.links) = slotInit L alct slotSize ∧ s.ranges = [] ∧ s.slots = [] ∧ s.used = []
  step s call s' :=
    match call with
    | .insert addr size => ∃ L, slotInsert s.links s.alct addr size = .ok L ∧
        s' = { s with
          links := L
          ranges := (addr, size) :: s.ranges
          slots := s.slots ++ slotsFrom addr s.alct.slotSize (size / s.alct.slotSize) }
    | .alloc => ∃ slot L, slotAlloc s.links s.alct = .ok (slot, L) ∧
        s' = { s with links := L, used := slot.toList ++ s.used }
    | .free addr => ∃ L, slotFree s.links s.alct addr = .ok L ∧
        s' = { s with links := L, used := s.used.erase addr }
    | .write L => s' = { s with links := L }

def Apart (a m b n : ℕ) : Prop := a + m ≤ b ∨ b + n ≤ a

/-- The conditions on the calls: memory is given to the pool once, does not hold the null pointer or the head of the
list, and one slot more than it holds would still end below the end of the address space. Slots are freed when they are allocated, and
their users write to allocated slots only. -/
def Allowed (s : SlotPool) : SlotCall → Prop
  | .insert addr size => addr ≠ 0 ∧ addr + (size / s.alct.slotSize + 1) * s.alct.slotSize < addressSpace ∧
      Apart addr size s.alct.freeSlotHead listNodeSize ∧ ∀ r ∈ s.ranges, Apart addr size r.1 r.2
  | .alloc => True
  | .free addr => addr ∈ s.used
  | .write L => ∀ x, x ∉ s.used → s.links.AgreeAt L x

structure Inv (s : SlotPool) (free : List ℕ) : Prop where
  ring : IsRing s.links s.alct.freeSlotHead free
  perm : (free ++ s.used).Perm s.slots
  size : listNodeSize ≤ s.alct.slotSize
  inside : ∀ x ∈ s.slots, ∃ r ∈ s.ranges, r.1 ≤ x ∧ x + s.alct.slotSize ≤ r.1 + r.2
  apart : s.slots.Pairwise fun x y ↦ Apart x s.alct.slotSize y s.alct.slotSize
  head : s.alct.freeSlotHead ≠ 0 ∧ ∀ r ∈ s.ranges, r.1 ≠ 0 ∧ Apart r.1 r.2 s.alct.freeSlotHead listNodeSize

variable {s s' : SlotPool} {free : List ℕ} {addr size : ℕ}

theorem Inv.nodup (h : s.Inv free) : (s.alct.freeSlotHead :: free ++ s.used).Nodup := by
  have hsize := h.size
  have hslots : s.slots.Nodup := h.apart.imp fun hap heq ↦ by
    simp only [Apart, listNodeSize] at hap hsize
    omega
  refine List.nodup_cons.mpr ⟨fun hmem ↦ ?_, h.perm.nodup_iff.mpr hslots⟩
  obtain ⟨r, hr, hle, hlt⟩ := h.inside _ (h.perm.mem_iff.mp hmem)
  have hapart := (h.head.2 r hr).2
  simp only [Apart, listNodeSize] at hapart hsize
  omega

theorem Inv.not_zero (h : s.Inv free) : 0 ∉ s.alct.freeSlotHead :: free := by
  refine not_mem_cons_of_ne_of_not_mem h.head.1.symm fun hmem ↦ ?_
  obtain ⟨r, hr, hle, -⟩ := h.inside 0 (h.perm.mem_iff.mp (by simp [hmem]))
  exact (h.head.2 r hr).1 (by omega)

theorem Inv.insert (h : s.Inv free) (hallowed : s.Allowed (.insert addr size)) :
    ∃ L, slotInsert s.links s.alct addr size = .ok L ∧ Inv { s with
      links := L
      ranges := (addr, size) :: s.ranges
      slots := s.slots ++ slotsFrom addr s.alct.slotSize (size / s.alct.slotSize) }
      (free ++ slotsFrom addr s.alct.slotSize (size / s.alct.slotSize)) := by
  obtain ⟨hzero, hbound, hhead, hranges⟩ := hallowed
  have hsize := h.size
  have hpos : 0 < s.alct.slotSize := Nat.lt_of_lt_of_le (by decide) hsize
  have hnew : ∀ x ∈ slotsFrom addr s.alct.slotSize (size / s.alct.slotSize),
      addr ≤ x ∧ x + s.alct.slotSize ≤ addr + size := by
    intro x hx
    obtain ⟨i, hi, rfl⟩ := mem_slotsFrom.mp hx
    have hfit : (i + 1) * s.alct.slotSize ≤ size :=
      Nat.le_trans (Nat.mul_le_mul_right _ hi) (Nat.div_mul_le_self _ _)
    rw [Nat.succ_mul] at hfit
    omega
  -- the slots of other ranges end before this one or begin behind it
  have hold : ∀ x ∈ s.slots, ∀ y ∈ slotsFrom addr s.alct.slotSize (size / s.alct.slotSize),
      Apart x s.alct.slotSize y s.alct.slotSize := by
    intro x hx y hy
    obtain ⟨r, hr, hle, hlt⟩ := h.inside x hx
    have hr := hranges r hr
    have hy := hnew y hy
    simp only [Apart] at hr ⊢
    omega
  have hfresh : ∀ x ∈ slotsFrom addr s.alct.slotSize (size / s.alct.slotSize), x ∉ s.alct.freeSlotHead :: free := by
    intro x hx hmem
    have hx' := hnew x hx
    simp only [Apart, listNodeSize] at hhead hsize hold
    rcases List.mem_cons.mp hmem with rfl | hmem
    · omega
    · have := hold x (h.perm.mem_iff.mp (by simp [hmem])) x hx
      omega
  obtain ⟨L, hrun, hring⟩ := slotInsert_ring s.alct addr size h.ring h.not_zero hpos hzero hbound hfresh
  refine ⟨L, hrun, hring, ?_, hsize, fun x hx ↦ ?_, List.pairwise_append.mpr ⟨h.apart, ?_, hold⟩, ?_⟩
  · calc (free ++ slotsFrom addr _ _ ++ s.used).Perm (free ++ s.used ++ slotsFrom addr _ _) := by
          rw [append_assoc, append_assoc]
          exact List.perm_append_comm.append_left _
      _ |>.Perm _ := h.perm.append_right _
  · rcases List.mem_append.mp hx with hx | hx
    · obtain ⟨r, hr, hin⟩ := h.inside x hx
      exact ⟨r, mem_cons_of_mem _ hr, hin⟩
    · exact ⟨_, mem_cons_self, hnew x hx⟩
  · refine List.pairwise_map.mpr (List.pairwise_lt_range.imp fun {i j} hij ↦ Or.inl ?_)
    have hle : (i + 1) * s.alct.slotSize ≤ j * s.alct.slotSize := Nat.mul_le_mul_right _ hij
    rw [Nat.succ_mul] at hle
    dsimp only
    omega
  · refine ⟨h.head.1, fun r hr ↦ ?_⟩
    rcases List.mem_cons.mp hr with rfl | hr
    exacts [⟨hzero, hhead⟩, h.head.2 r hr]

theorem Inv.alloc (h : s.Inv free) : ∃ L, slotAlloc s.links s.alct = .ok (free.head?, L) ∧
      Inv { s with links := L, used := free.head?.toList ++ s.used } free.tail := by
  cases free with
  | nil => exact ⟨s.links, slotAlloc_empty s.alct h.ring, h⟩
  | cons x free =>
    obtain ⟨L, hrun, hring, -⟩ := slotAlloc_ring s.alct h.ring h.not_zero
    refine ⟨L, hrun, hring, ?_, h.size, h.inside, h.apart, h.head⟩
    exact List.perm_middle.trans h.perm

theorem Inv.slotFree (h : s.Inv free) (hused : addr ∈ s.used) : ∃ L, slotFree s.links s.alct addr = .ok L ∧
      Inv { s with links := L, used := s.used.erase addr } (free ++ [addr]) := by
  have hnodup := h.nodup
  have hnew : addr ∉ s.alct.freeSlotHead :: free := fun hmem ↦ (List.nodup_append.mp hnodup).2.2 _ hmem _ hused rfl
  obtain ⟨L, hrun, hring, -⟩ := listPushBack_ring h.ring h.not_zero hnew
  refine ⟨L, hrun, hring, ?_, h.size, h.inside, h.apart, h.head⟩
  rw [append_assoc]
  exact ((perm_cons_erase hused).symm.append_left _).trans h.perm

theorem inv_of_run (h : system.Run Allowed s) : ∃ free, s.Inv free := by
  refine h.invariant (P := fun s ↦ ∃ free, s.Inv free) (fun s hinit ↦ ?_)
    fun s call s' ⟨free, hinv⟩ hallowed hstep ↦ ?_
  · obtain ⟨L, alct, slotSize, hhead, heq, hranges, hslots, hused⟩ := hinit
    obtain ⟨halct, hlinks⟩ := Prod.mk.inj heq
    refine ⟨[], ?_, by simp [hslots, hused], ?_, by simp [hslots], by simp [hslots], ?_⟩
    · rw [halct, hlinks]
      exact isRing_initHead _ _
    · rw [halct]
      dsimp only
      split_ifs <;> omega
    · simp [halct, hhead, hranges]
  · cases call with
    | insert addr size =>
      obtain ⟨L, hrun, rfl⟩ := hstep
      obtain ⟨L', hrun', hinv'⟩ := hinv.insert hallowed
      obtain rfl := Except.ok.inj (hrun.symm.trans hrun')
      exact ⟨_, hinv'⟩
    | alloc =>
      obtain ⟨slot, L, hrun, rfl⟩ := hstep
      obtain ⟨L', hrun', hinv'⟩ := hinv.alloc
      obtain ⟨rfl, rfl⟩ := ok_pair_inj (hrun.symm.trans hrun')
      exact ⟨_, hinv'⟩
    | free addr =>
      obtain ⟨L, hrun, rfl⟩ := hstep
      obtain ⟨L', hrun', hinv'⟩ := hinv.slotFree hallowed
      obtain rfl := Except.ok.inj (hrun.symm.trans hrun')
      exact ⟨_, hinv'⟩
    | write L =>
      cases hstep
      have hnodup := hinv.nodup
      refine ⟨free, hinv.ring.congr fun x hx ↦ hallowed x ?_, hinv.perm, hinv.size, hinv.inside, hinv.apart,
        hinv.head⟩
      exact fun hmem ↦ (List.nodup_append.mp hnodup).2.2 _ hx _ hmem rfl

/-- The contract of the pool in a state reached by allowed calls. All slots are disjoint areas inside the
ranges given to the pool. `slot_insert` returns and adds the `size / slot_size` slots that fit, all of
them free. `slot_alloc` returns a slot that is not allocated, or nothing exactly when all slots are, and
`slot_free` of an allocated slot returns.

Assumes: the memory given to the pool has room for one slot more below the end of the address space. -/
theorem pool_contract (h : system.Run Allowed s) :
    (s.slots.Pairwise fun x y ↦ Apart x s.alct.slotSize y s.alct.slotSize) ∧
    (∀ x ∈ s.slots, ∃ r ∈ s.ranges, r.1 ≤ x ∧ x + s.alct.slotSize ≤ r.1 + r.2) ∧
    (∀ x ∈ s.used, x ∈ s.slots) ∧ s.used.Nodup ∧
    (∀ addr size, s.Allowed (.insert addr size) → ∃ L, slotInsert s.links s.alct addr size = .ok L ∧
      (slotsFrom addr s.alct.slotSize (size / s.alct.slotSize)).length = size / s.alct.slotSize ∧
      ∃ free, IsRing L s.alct.freeSlotHead free ∧ ∀ x, x ∈ free ↔ x ∉ s.used ∧
        x ∈ s.slots ++ slotsFrom addr s.alct.slotSize (size / s.alct.slotSize)) ∧
    (∃ slot L, slotAlloc s.links s.alct = .ok (slot, L) ∧ (∀ x ∈ slot, x ∈ s.slots ∧ x ∉ s.used) ∧
      (slot = none ↔ ∀ x ∈ s.slots, x ∈ s.used)) ∧
    ∀ addr ∈ s.used, ∃ L, Lanthorn.slotFree s.links s.alct addr = .ok L := by
  obtain ⟨free, hinv⟩ := inv_of_run h
  have hnodup : (free ++ s.used).Nodup := (List.nodup_cons.mp hinv.nodup).2
  have hmem : ∀ x, x ∈ free ↔ x ∈ s.slots ∧ x ∉ s.used := fun x ↦ by
    rw [← hinv.perm.mem_iff]
    grind
  refine ⟨hinv.apart, hinv.inside, fun x hx ↦ hinv.perm.mem_iff.mp (by simp [hx]),
    (List.nodup_append.mp hnodup).2.1, fun addr size hallowed ↦ ?_, ?_, fun addr hused ↦ ?_⟩
  · obtain ⟨L, hrun, hinv'⟩ := hinv.insert hallowed
    have hnodup' : (free ++ slotsFrom addr s.alct.slotSize (size / s.alct.slotSize) ++ s.used).Nodup :=
      (List.nodup_cons.mp hinv'.nodup).2
    refine ⟨L, hrun, by simp [slotsFrom], _, hinv'.ring, fun x ↦ ?_⟩
    have hperm := hinv'.perm.mem_iff (a := x)
    dsimp only at hperm
    grind
  · obtain ⟨L, hrun, -⟩ := hinv.alloc
    refine ⟨free.head?, L, hrun, by grind, ?_⟩
    cases free with
    | nil => grind
    | cons x free =>
      have hx := (hmem x).mp mem_cons_self
      simp only [List.head?_cons, reduceCtorEq, false_iff]
      exact fun hall ↦ hx.2 (hall x hx.1)
  · obtain ⟨L, hrun, -⟩ := hinv.slotFree hused
    exact ⟨L, hrun⟩

def examplePool : SlotPool :=
  let (alct, links) := slotInit ⟨fun _ ↦ 0, fun _ ↦ 0⟩ ⟨0, 8⟩ 16
  ⟨links, alct, [], [], []⟩

theorem examplePool_run : system.Run Allowed examplePool := .init ⟨_, _, 16, by decide, rfl, rfl, rfl, rfl⟩

/-- Forty bytes hold two slots of sixteen. -/
theorem pool_contract_example : ∃ L, slotInsert examplePool.links examplePool.alct 64 40 = .ok L ∧
    ∃ free, IsRing L 8 free ∧ 64 ∈ free ∧ 80 ∈ free ∧ 96 ∉ free := by
  obtain ⟨-, -, -, -, hinsert, -⟩ := pool_contract examplePool_run
  obtain ⟨L, hrun, -, free, hring, hfree⟩ :=
    hinsert 64 40 ⟨by decide, by decide, Or.inr (by decide), by simp [examplePool]⟩
  exact ⟨L, hrun, free, hring, (hfree 64).mpr (by decide), (hfree 80).mpr (by decide),
    fun h ↦ absurd ((hfree 96).mp h) (by decide)⟩

/-- A range that ends eight bytes before the end of the address space: after its one slot the sum wraps,
and the loop goes on with a slot that reaches behind the range and with the null pointer. -/
theorem slotInsert_wraps :
    (slotInsert examplePool.links examplePool.alct 4294967264 24).map (fun _ ↦ ()) = .error .null := by
  decide +kernel

end SlotPool

end Lanthorn
