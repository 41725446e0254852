import Lanthorn.Memory.PmContract

/-!
# What `pm_alloc` does exactly

`Carved` is the residue of an allocation: the free list from which the block was taken has lost its first block,
every order between it and the order of the request has the right half of a split in its empty list, and the other
lists and blocks are as they were.

`calls` are the runs of the allocator in which `pm_insert` may also run out of descriptors; the blocks that it made
before then are in use (`reachable_partInv`). In every state of such a run `pmAlloc_tight` says which block
`pm_alloc` returns and what remains, provided that the pool has two descriptors for every split, and
`pmAlloc_safe_iff` that without them `pm_alloc` uses a descriptor that it was not given.
-/

namespace Lanthorn

open Function Library

namespace PageAlct

/-! ### The residue of an allocation -/

/-- The blocks and free lists after a block of the order `k` was carved from the free block `p`. -/
structure Carved (s : PageAlct) (g : Contents) (p k : ℕ) (s' : PageAlct) (g' : Contents) : Prop where
  used : ∀ q, g.used q → g'.used q
  frame : Frame s s' g.used
  state : ∀ q, g.used q → q ≠ p → s'.state q = s.state q
  first : g.free (s.order p) = p :: g'.free (s.order p)
  outside : ∀ i, i < k ∨ s.order p < i → g'.free i = g.free i
  halves : ∀ i, k ≤ i → i < s.order p → ∃ r, g'.free i = g.free i ++ [r] ∧ g'.used r ∧
    s'.addr r = s.addr p + pageSize * 2 ^ i

section Carved

variable {lay : Layout} {s : PageAlct} {g : Contents} {raw : List ℕ} {covered : ℕ → Prop}

theorem Carves.carved {p k l : ℕ} {s' : PageAlct} {g' : Contents} (h : Buddy lay s g raw covered)
    (hc : Carves lay raw covered s g p k l s' g') : Carved s g p k s' g' := by
  induction hc with
  | @take rest list' hfirst =>
    refine ⟨fun _ hq ↦ hq, Frame.setState s list' p .alloced g.used, fun q _ hq ↦ by simp [hq], ?_, ?_,
      fun i hi hlt ↦ by omega⟩
    · simpa using hfirst
    · intro i hi
      exact update_of_ne (by omega) _ _
  | @halve k f l r s₁ s' g₁ g' hlarger _ hhalved ih =>
    obtain ⟨hle, hused, hlive, horder, haddr, -, -, hothers⟩ := hlarger.spec h
    have hk : s₁.order f - 1 = k := by omega
    have hfree : g'.free = update g₁.free k (g₁.free k ++ [r]) := by rw [hhalved.free, hk]
    refine ⟨fun q hq ↦ (hhalved.used q).mpr (Or.inl (ih.used q hq)),
      ih.frame.trans hhalved.frame ih.used, fun q hq hqp ↦ ?_, ?_, fun i hi ↦ ?_, fun i hi hlt ↦ ?_⟩
    · -- the block that is split is not one that was live before
      have hqf : q ≠ f := by
        rintro rfl
        have hzero := Layout.descs_ne_zero (h.used_mem q hq)
        exact ((hothers.live q).mpr ⟨hq, by rw [← ih.state q hq hqp, hlive], hzero⟩).2.2 rfl
      rw [hhalved.state q (ih.used q hq), if_neg hqf, ih.state q hq hqp]
    · rw [ih.first, hfree, update_of_ne (by omega)]
    · rw [hfree, update_of_ne (by omega), ih.outside i (by omega)]
    · by_cases hik : i = k
      · subst hik
        refine ⟨r, ?_, (hhalved.used r).mpr (by simp), ?_⟩
        · rw [hfree, update_self, ih.outside i (by omega)]
        · rw [hhalved.addr.2, hk, haddr]
      · obtain ⟨r', hfree', hused', haddr'⟩ := ih.halves i (by omega) hlt
        refine ⟨r', ?_, (hhalved.used r').mpr (Or.inl hused'), ?_⟩
        · rw [hfree, update_of_ne hik, hfree']
        · rw [hhalved.frame.addr r' hused', haddr']

end Carved

theorem FirstFit.congr {s : PageAlct} {free free' : ℕ → List ℕ} {k p : ℕ}
    (heq : ∀ i < nrBuddyOrder, free i = free' i) (h : FirstFit s free k p) : FirstFit s free' k p := by
  obtain ⟨hle, hlt, ⟨rest, hfirst⟩, hbelow⟩ := h
  refine ⟨hle, hlt, ⟨rest, ?_⟩, fun i hi hip ↦ ?_⟩
  · rw [← heq _ hlt, hfirst]
  · rw [← heq i (by omega), hbelow i hi hip]

/-! ### The order of a size -/

theorem size_le_iff {size : ℕ} (hsize : size ≤ addressSpace - pageSize) (k : ℕ) :
    size ≤ pageSize * 2 ^ k ↔ orderOf size ≤ k := by
  rw [orderOf, Nat.clog_le_iff_le_pow Nat.one_lt_two]
  generalize 2 ^ k = m
  simp only [roundUp, pageSize, addressSpace] at *
  omega

theorem blockSize_lt {size : ℕ} (hsize : ¬ size ≤ addressSpace - pageSize) :
    pageSize * 2 ^ orderOf size < size := by
  have hpages : roundUp size pageSize / pageSize ≤ 2 ^ 20 := by
    simp only [roundUp, pageSize, addressSpace]
    omega
  by_cases hlarge : addressSpace < size
  · have hpow : 2 ^ orderOf size ≤ 2 ^ 20 :=
      Nat.pow_le_pow_right Nat.two_pos (Nat.clog_le_of_le_pow hpages)
    generalize 2 ^ orderOf size = m at hpow
    simp only [pageSize, addressSpace] at *
    omega
  · have hzero : roundUp size pageSize / pageSize = 0 := by
      simp only [roundUp, pageSize, addressSpace] at *
      omega
    grind [orderOf, Nat.clog_zero_right, pageSize, addressSpace]

end PageAlct

namespace PmState

open PageAlct

/-! ### Runs with failing insertions -/

/-- The allocator after `pm_init` and any calls that return: insertions of new ranges, whether or not
they find enough descriptors, allocations of any size, and frees of live blocks. -/
def calls : System PmState PmCall where
  init := system.init
  step st call st' :=
    match call with
    | .insert addr size => st.Insertable addr size ∧ ∃ err alct,
        st.alct.pmInsert addr size = .ok (err, alct) ∧
        st' = { st with alct := alct, inserted := (addr, size) :: st.inserted }
    | call => system.step st call st'

def Starts (part range : ℕ × ℕ) : Prop := part.1 = range.1 ∧ part.2 ≤ range.2

/-- What every state between two calls satisfies: the invariant of the allocator, with the parts of
the inserted ranges for which there were descriptors. -/
def PartInv (st : PmState) : Prop :=
  ∃ parts, List.Forall₂ Starts parts st.inserted ∧ Inv { st with inserted := parts }

theorem Insertable.of_parts {st : PmState} {parts : List (ℕ × ℕ)} {addr size : ℕ}
    (hparts : List.Forall₂ Starts parts st.inserted) (h : st.Insertable addr size) :
    Insertable { st with inserted := parts } addr size := by
  refine ⟨h.addr_aligned, h.size_aligned, h.size_pos, h.size_word, h.bound, fun part hpart ↦ ?_⟩
  obtain ⟨range, hrange, hstart, hle⟩ : ∃ range ∈ st.inserted, Starts part range := by
    generalize st.inserted = ranges at hparts
    induction hparts with
    | nil => simp at hpart
    | @cons part' range _ _ hfirst _ ih =>
      rcases List.mem_cons.mp hpart with rfl | hpart
      · exact ⟨range, by simp, hfirst⟩
      · obtain ⟨range', hrange', hstarts⟩ := ih hpart
        exact ⟨range', by simp [hrange'], hstarts⟩
  have := h.disjoint range hrange
  omega

theorem partInv_step {st st' : PmState} {call : PmCall} (h : st.PartInv)
    (hstep : calls.step st call st') : st'.PartInv := by
  obtain ⟨parts, hparts, hinv⟩ := h
  cases call with
  | insert addr size =>
    obtain ⟨hins, err, alct, hrun, rfl⟩ := hstep
    obtain ⟨lay, g, live, hdescs, hperm, hvalid⟩ := hinv
    have hins := hins.of_parts hparts
    obtain ⟨err', s', part, g', hrun', hpart, hvalid'⟩ := pmInsert_valid hvalid
      hins.addr_aligned hins.size_aligned hins.size_pos hins.size_word hins.bound hins.not_covered
    obtain ⟨rfl, rfl⟩ : err = err' ∧ alct = s' := by simpa [hrun] using hrun'
    refine ⟨(addr, part) :: parts, .cons ⟨rfl, show part ≤ size by omega⟩ hparts, lay, g', live,
      hdescs, hperm, ?_⟩
    convert hvalid' using 2 with a
    simp only [Covered, List.mem_cons, exists_eq_or_imp]
    exact or_comm
  | alloc size =>
    obtain ⟨err, page, alct, hrun, rfl⟩ := hstep
    have hstep : system.step { st with inserted := parts } (.alloc size) _ := ⟨err, page, alct, hrun, rfl⟩
    exact ⟨parts, hparts, inv_step hinv hstep⟩
  | free page =>
    obtain ⟨hpage, alct, hrun, rfl⟩ := hstep
    have hstep : system.step { st with inserted := parts } (.free page) _ := ⟨hpage, alct, hrun, rfl⟩
    exact ⟨parts, hparts, inv_step hinv hstep⟩

theorem reachable_partInv {st : PmState} (h : calls.Reachable st) : st.PartInv := by
  refine h.invariant (fun st hinit ↦ ⟨[], ?_, ?_⟩) fun _ _ _ ↦ partInv_step
  · obtain ⟨-, -, -, -, -, -, hinserted, -⟩ := hinit
    rw [hinserted]
    exact .nil
  · obtain ⟨s, addr, size, hargs, hrun, hdescs, -, hlive⟩ := hinit
    exact inv_init ⟨s, addr, size, hargs, hrun, hdescs, rfl, hlive⟩

structure Lists (st : PmState) (slots : List ℕ) (free : ℕ → List ℕ) : Prop where
  pool : IsRing st.alct.slots st.alct.slotAlct.freeSlotHead slots
  lists : ∀ k < nrBuddyOrder, IsRing st.alct.list (st.alct.headAt k) (listNodes (free k))

/-- The contract of the allocator, with the parts of the inserted ranges for which there were
descriptors. -/
def Holding (st : PmState) (slots : List ℕ) (free : ℕ → List ℕ) : Prop :=
  ∃ parts, List.Forall₂ Starts parts st.inserted ∧ Contract { st with inserted := parts } slots free

theorem Inv.exists_lists {st : PmState} (h : st.Inv) : ∃ slots free, st.Lists slots free := by
  obtain ⟨lay, g, live, hdescs, hperm, hvalid⟩ := h
  have hcontract := contract_of_valid hdescs hperm hvalid
  exact ⟨g.slots, g.free, hcontract.pool, hcontract.lists⟩

theorem Lists.eq {st : PmState} {slots : List ℕ} {free : ℕ → List ℕ} (h : st.Lists slots free)
    {lay : Layout} {g : Contents} {live : List ℕ} {covered : ℕ → Prop} (hvalid : Valid lay st.alct g live covered) :
    slots = g.slots ∧ ∀ k < nrBuddyOrder, free k = g.free k := by
  have hbuddy := hvalid.buddy
  refine ⟨h.pool.unique ?_, fun k hk ↦ ?_⟩
  · simpa [hbuddy.slot_eq] using hbuddy.rings.pool_ring
  · have hring := hbuddy.rings.free_ring k hk
    rw [← hbuddy.headAt_eq] at hring
    exact List.map_injective_iff.mpr (fun _ _ heq ↦ Nat.add_right_cancel heq)
      ((h.lists k hk).unique hring)

/-! ### Descriptors for the splits -/

/-- `pm_alloc` reports an error and changes nothing, or returns a new live block with room for the
size, and the contract goes on to hold. -/
def Safe (st : PmState) (size : ℕ) : Prop :=
  (∃ err, err ≠ .ok ∧ st.alct.pmAlloc size = .ok (err, none, st.alct)) ∨
    ∃ page alct slots free, st.alct.pmAlloc size = .ok (.ok, some page, alct) ∧ page ∉ st.live ∧
      size ≤ alct.size page ∧
      Holding { st with alct := alct, live := page :: st.live } slots free

section Alloc

variable {st : PmState} {slots : List ℕ} {free : ℕ → List ℕ} {size : ℕ}

theorem exists_lists (h : calls.Reachable st) : ∃ slots free, st.Lists slots free := by
  obtain ⟨parts, -, hinv⟩ := reachable_partInv h
  obtain ⟨slots, free, hlists⟩ := hinv.exists_lists
  exact ⟨slots, free, hlists.pool, hlists.lists⟩

theorem enough_of_returns (h : calls.Reachable st) (hlists : st.Lists slots free) (hpos : 1 ≤ size)
    {result : Errno × Option ℕ × PageAlct} (hreturns : st.alct.pmAlloc size = .ok result) {p : ℕ}
    (hp : FirstFit st.alct free (PageAlct.orderOf size) p) :
    2 * (st.alct.order p - PageAlct.orderOf size) ≤ slots.length := by
  obtain ⟨parts, -, lay, g, live, -, -, hvalid⟩ := reachable_partInv h
  dsimp only at hvalid
  obtain ⟨rfl, hfree⟩ := hlists.eq hvalid
  have hp' := hp.congr hfree
  rcases pmAlloc_spec hvalid (show size ≠ 0 by omega) with
    ⟨hempty, -⟩ | ⟨q, hq, ⟨-, hrun⟩ | ⟨_, _, _, _, _, -, hcarves, -⟩⟩
  · obtain ⟨rest, hfirst⟩ := hp'.first
    simp [hempty _ hp'.le hp'.lt] at hfirst
  · simp [hreturns] at hrun
  · rw [hp'.unique hq]
    exact (hcarves.spec hvalid.buddy).2.2.2.2.2.1

/-- In every state that can be reached, `pm_alloc` behaves if and only if it finds no block, or the
size can be rounded up and the pool has two descriptors for every split that is needed. -/
theorem pmAlloc_safe_iff (h : calls.Reachable st) (hlists : st.Lists slots free) (size : ℕ) :
    st.Safe size ↔ size = 0 ∨ ∀ p, FirstFit st.alct free (PageAlct.orderOf size) p →
      size ≤ addressSpace - pageSize ∧ 2 * (st.alct.order p - PageAlct.orderOf size) ≤ slots.length := by
  obtain ⟨parts, hparts, lay, g, live, hdescs, hperm, hvalid⟩ := reachable_partInv h
  dsimp only at hvalid
  obtain ⟨rfl, hfree⟩ := hlists.eq hvalid
  by_cases hzero : size = 0
  · refine iff_of_true (Or.inl ⟨.inval, by simp, ?_⟩) (Or.inl hzero)
    simp [pmAlloc, hzero]
  rw [or_iff_right hzero]
  rcases pmAlloc_spec hvalid hzero with ⟨hempty, hrun⟩ | ⟨p, hfit, hcases⟩
  · refine iff_of_true (Or.inl ⟨.nomem, by simp, hrun⟩) fun p hp ↦ ?_
    obtain ⟨rest, hfirst⟩ := hp.first
    simp [hfree _ hp.lt, hempty _ hp.le hp.lt] at hfirst
  have hfit' : FirstFit st.alct free (PageAlct.orderOf size) p := hfit.congr fun i hi ↦ (hfree i hi).symm
  rcases hcases with ⟨hfew, hrun⟩ | ⟨page, s₁, t, g', live', hrun, hcarves, hvalid', hfresh, hperm'⟩
  · refine iff_of_false ?_ fun hall ↦ ?_
    · rintro (⟨err, -, hok⟩ | ⟨page, alct, _, _, hok, -⟩)
      · simp [hrun] at hok
      · simp [hrun] at hok
    · have := (hall p hfit').2
      omega
  obtain ⟨-, hused, -, horder, -, hlength, -, -⟩ := hcarves.spec hvalid.buddy
  have hsize : (s₁.setAllocedRbt t).size page = pageSize * 2 ^ PageAlct.orderOf size := by
    rw [hvalid'.buddy.tiles.size_eq page hused, show (s₁.setAllocedRbt t).order page = _ from horder]
  have hroom : size ≤ (s₁.setAllocedRbt t).size page ↔ size ≤ addressSpace - pageSize := by
    rw [hsize]
    refine ⟨fun hle ↦ by_contra fun hlarge ↦ ?_, fun hsmall ↦ (size_le_iff hsmall _).mpr le_rfl⟩
    exact absurd hle (Nat.not_le.mpr (blockSize_lt hlarge))
  constructor
  · rintro (⟨err, herr, hok⟩ | ⟨page', alct, _, _, hok, -, hle, -⟩) q hq
    all_goals grind [hq.unique]
  · intro hall
    refine Or.inr ⟨page, _, g'.slots, g'.free, hrun, fun hmem ↦ hfresh (hperm.mem_iff.mpr hmem),
      hroom.mpr (hall p hfit').1, parts, hparts, ?_⟩
    exact contract_of_valid hdescs (hperm'.trans (hperm.cons page)) hvalid'

theorem exampleRun_reachable : ∃ s s' : PageAlct,
    calls.Reachable ⟨s, initDescs 0x100000 712, [(0x200000, 0x4000)], []⟩ ∧
      s.pmAlloc 100 = .ok (.ok, some 0x100174, s') := by
  obtain ⟨s₁, s₂, s₃, hinit, hinsert, halloc⟩ := exampleRun_calls
  refine ⟨s₂, s₃, ?_, halloc⟩
  refine .step (.init (s := ⟨s₁, initDescs 0x100000 712, [], []⟩)
    ⟨blank 4096, 0x100000, 712, ?_, hinit, rfl, rfl, rfl⟩) trivial
    (a := .insert 0x200000 0x4000) ⟨?_, .ok, s₂, hinsert, rfl⟩
  · constructor <;> decide
  · exact ⟨by decide, by decide, by decide, by decide, by decide, by simp⟩

/-- `pm_alloc` of a hundred bytes where four pages are free and seven descriptors are left. -/
theorem pmAlloc_safe_iff_example : ∃ (st : PmState) (slots : List ℕ) (free : ℕ → List ℕ),
    calls.Reachable st ∧ st.Lists slots free ∧
      (st.Safe 100 ↔ 100 = 0 ∨ ∀ p, FirstFit st.alct free (PageAlct.orderOf 100) p → 100 ≤ addressSpace - pageSize ∧
          2 * (st.alct.order p - PageAlct.orderOf 100) ≤ slots.length) := by
  obtain ⟨s, -, hreach, -⟩ := exampleRun_reachable
  obtain ⟨slots, free, hlists⟩ := exists_lists hreach
  exact ⟨_, slots, free, hreach, hlists, pmAlloc_safe_iff hreach hlists 100⟩

/-- One descriptor at `0x100000`, which two pages at `0x200000` take, and an allocation of one of
them. -/
def exampleExhausted : Result (List Errno × Option Fault) := do
  let (err₁, s) ← (blank 4096).pmInit 0x100000 236
  let (err₂, s) ← s.pmInsert 0x200000 0x2000
  return ([err₁, err₂], match s.pmAlloc 4096 with
    | .error fault => some fault
    | .ok _ => none)

theorem exampleExhausted_eq : exampleExhausted = .ok ([.ok, .ok], some .unset) := by decide +kernel

/-- A block that has to be split when the pool is empty: `pm_alloc` neither returns a block nor an
error, but uses the descriptors that it was not given. -/
theorem pmAlloc_exhausted : ∃ st : PmState, calls.Reachable st ∧
    st.alct.pmAlloc 4096 = .error .unset ∧ ¬ st.Safe 4096 := by
  obtain ⟨⟨err₁, s₁⟩, hinit, hrest⟩ := bind_eq_ok.mp exampleExhausted_eq
  obtain ⟨⟨err₂, s₂⟩, hinsert, hrest⟩ := bind_eq_ok.mp hrest
  obtain ⟨⟨rfl, rfl⟩, hfault⟩ : (err₁ = .ok ∧ err₂ = .ok) ∧ (match s₂.pmAlloc 4096 with
      | .error fault => some fault
      | .ok _ => none) = some .unset := by simpa using hrest
  have hrun : s₂.pmAlloc 4096 = .error .unset := by grind
  refine ⟨⟨s₂, initDescs 0x100000 236, [(0x200000, 0x2000)], []⟩, ?_, hrun, ?_⟩
  · refine .step (.init (s := ⟨s₁, initDescs 0x100000 236, [], []⟩)
      ⟨blank 4096, 0x100000, 236, ?_, hinit, rfl, rfl, rfl⟩) trivial
      (a := .insert 0x200000 0x2000) ⟨?_, .ok, s₂, hinsert, rfl⟩
    · constructor <;> decide
    · exact ⟨by decide, by decide, by decide, by decide, by decide, by simp⟩
  · rintro (⟨err, -, hok⟩ | ⟨page, alct, _, _, hok, -⟩)
    · simp [hrun] at hok
    · simp [hrun] at hok

/-! ### The block and the residue -/

/-- An allocation of a size from the free block `p`.

The block has the least size of a block with room (`size_eq`, `room`, `least`). It is the start of
`p`, which has room and the least order among the free blocks that have (`start`, `source`,
`smallest`). The list of `p` has lost its first block, each order from that of the block up to that of
`p` has a right half in its list, and the other lists are the same (`first`, `halves`, `outside`). The
blocks that were live, and the free ones but `p`, are as they were (`kept`), and the pool has lost two
descriptors for every split (`pool`). -/
structure Allocated (st : PmState) (slots : List ℕ) (free : ℕ → List ℕ) (size p page : ℕ)
    (alct : PageAlct) (slots' : List ℕ) (free' : ℕ → List ℕ) : Prop where
  size_eq : alct.size page = pageSize * 2 ^ alct.order page
  room : size ≤ alct.size page
  least : ∀ k, size ≤ pageSize * 2 ^ k → alct.order page ≤ k
  start : alct.addr page = st.alct.addr p
  source : st.FreeBlock slots p ∧ size ≤ st.alct.size p
  smallest : ∀ q, st.FreeBlock slots q → size ≤ st.alct.size q → st.alct.order p ≤ st.alct.order q
  first : free (st.alct.order p) = p :: free' (st.alct.order p)
  halves : ∀ i, alct.order page ≤ i → i < st.alct.order p → free i = [] ∧
    ∃ r, free' i = [r] ∧ alct.addr r = st.alct.addr p + pageSize * 2 ^ i ∧ alct.size r = pageSize * 2 ^ i
  outside : ∀ i < nrBuddyOrder, i < alct.order page ∨ st.alct.order p < i → free' i = free i
  kept : ∀ q, q ∈ st.live ∨ (st.FreeBlock slots q ∧ q ≠ p) → alct.addr q = st.alct.addr q ∧
    alct.size q = st.alct.size q ∧ alct.order q = st.alct.order q ∧
    alct.state q = st.alct.state q
  pool : slots = slots.take (2 * (st.alct.order p - alct.order page)) ++ slots'

/-- In every state that can be reached and that has two descriptors for every split that is needed,
`pm_alloc` of a size that can be rounded up fails, changing nothing, if no free block has room, and
otherwise carves the block from a free block of the least order that suffices. -/
theorem pmAlloc_tight (h : calls.Reachable st) (hlists : st.Lists slots free) (hpos : 1 ≤ size)
    (hsize : size ≤ addressSpace - pageSize) (henough : ∀ p, FirstFit st.alct free (PageAlct.orderOf size) p →
      2 * (st.alct.order p - PageAlct.orderOf size) ≤ slots.length) :
    ((¬ ∃ p, st.FreeBlock slots p ∧ size ≤ st.alct.size p) ∧ st.alct.pmAlloc size = .ok (.nomem, none, st.alct)) ∨
      ((∃ p, st.FreeBlock slots p ∧ size ≤ st.alct.size p) ∧
        ∃ p page alct slots' free', st.alct.pmAlloc size = .ok (.ok, some page, alct) ∧
          Allocated st slots free size p page alct slots' free' ∧ page ∉ st.live ∧
          Holding { st with alct := alct, live := page :: st.live } slots' free') := by
  obtain ⟨parts, hparts, lay, g, live, hdescs, hperm, hvalid⟩ := reachable_partInv h
  dsimp only at hvalid
  obtain ⟨rfl, hfree⟩ := hlists.eq hvalid
  have htiles := hvalid.buddy.tiles
  have hblock := @freeBlock_iff { st with inserted := parts } _ _ _ _ hdescs hvalid
  replace hblock : ∀ q, st.FreeBlock g.slots q ↔ g.used q ∧ st.alct.state q = .free := hblock
  -- the free blocks with room are those in the lists from the order of the size on
  have hroom : ∀ q, st.FreeBlock g.slots q → (size ≤ st.alct.size q ↔ PageAlct.orderOf size ≤ st.alct.order q) := by
    intro q hq
    rw [htiles.size_eq q ((hblock q).mp hq).1]
    exact size_le_iff hsize _
  have hlisted : ∀ q, st.FreeBlock g.slots q → q ∈ g.free (st.alct.order q) := fun q hq ↦
    (hvalid.buddy.free_iff _ q).mpr ⟨((hblock q).mp hq).1, ((hblock q).mp hq).2, rfl⟩
  rcases pmAlloc_spec hvalid (show size ≠ 0 by omega) with ⟨hempty, hrun⟩ | ⟨p, hfit, hcases⟩
  · grind [htiles.order_lt]
  have hshort := henough p (hfit.congr fun i hi ↦ (hfree i hi).symm)
  rcases hcases with ⟨hfew, -⟩ | ⟨page, s₁, t, g', live', hrun, hcarves, hvalid', hfresh, hperm'⟩
  · omega
  obtain ⟨-, hused, -, horder, haddr, -, hslots, hothers⟩ := hcarves.spec hvalid.buddy
  have hcarved := hcarves.carved hvalid.buddy
  obtain ⟨hpused, hpstate, -⟩ := (hvalid.buddy.free_iff _ p).mp (by rw [hcarved.first]; simp)
  have hpfree : st.FreeBlock g.slots p := (hblock p).mpr ⟨hpused, hpstate⟩
  have hproom := (hroom p hpfree).mpr hfit.le
  have hpage : (s₁.setAllocedRbt t).order page = PageAlct.orderOf size := horder
  have htiles' := hvalid'.buddy.tiles
  refine Or.inr ⟨⟨p, hpfree, hproom⟩, p, page, _, g'.slots, g'.free, hrun, ?_,
    fun hmem ↦ hfresh (hperm.mem_iff.mpr hmem), parts, hparts,
    contract_of_valid hdescs (hperm'.trans (hperm.cons page)) hvalid'⟩
  refine ⟨htiles'.size_eq page hused, ?_, fun k hk ↦ ?_, haddr, ⟨hpfree, hproom⟩, fun q hq hle ↦ ?_,
    ?_, fun i hi hlt ↦ ?_, fun i hi hout ↦ ?_, fun q hq ↦ ?_, ?_⟩
  · rw [htiles'.size_eq page hused, hpage]
    exact (size_le_iff hsize _).mpr le_rfl
  · rw [hpage]
    exact (size_le_iff hsize k).mp hk
  · grind [hfit.below]
  · rw [hfree _ hfit.lt]
    exact hcarved.first
  · rw [hpage] at hi
    obtain ⟨r, hr, hrused, hraddr⟩ := hcarved.halves i hi hlt
    have hnil := hfit.below i hi hlt
    rw [hnil, List.nil_append] at hr
    refine ⟨by rw [hfree i (by have := hfit.lt; omega), hnil], r, hr, hraddr, ?_⟩
    rw [htiles'.size_eq r hrused, ((hvalid'.buddy.free_iff i r).mp (by simp [hr])).2.2]
  · rw [hpage] at hout
    rw [hfree i hi]
    exact hcarved.outside i hout
  · have hq' : g.used q ∧ q ≠ p := by grind [hvalid.live_iff]
    exact ⟨hcarved.frame.addr q hq'.1, hcarved.frame.size q hq'.1, hcarved.frame.order q hq'.1,
      hcarved.state q hq'.1 hq'.2⟩
  · rw [hpage, hslots]
    exact (List.take_append_drop _ _).symm

/-- `pm_alloc` of a hundred bytes where four pages are free. -/
theorem pmAlloc_tight_example : ∃ (st : PmState) (slots : List ℕ) (free : ℕ → List ℕ),
    calls.Reachable st ∧ st.Lists slots free ∧
      ∃ p page alct slots' free', st.alct.pmAlloc 100 = .ok (.ok, some page, alct) ∧
        Allocated st slots free 100 p page alct slots' free' := by
  obtain ⟨s, s', hreach, hrun⟩ := exampleRun_reachable
  obtain ⟨slots, free, hlists⟩ := exists_lists hreach
  refine ⟨_, slots, free, hreach, hlists, ?_⟩
  obtain ⟨-, hnone⟩ | ⟨-, p, page, alct, slots', free', hok, hallocated, -⟩ :=
    pmAlloc_tight hreach hlists (by decide) (by decide)
      fun p hp ↦ enough_of_returns hreach hlists (by decide) hrun hp
  · simp [hrun] at hnone
  · exact ⟨p, page, alct, slots', free', hok, hallocated⟩

end Alloc

end PmState

end Lanthorn
