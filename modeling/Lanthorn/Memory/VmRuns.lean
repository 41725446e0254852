import Lanthorn.Library.Run
import Lanthorn.Memory.VmContract

/-!
# Runs of the region allocator

`VmState.system` is the allocator after `vm_init` and any calls that succeed. Between the calls the rest of the
kernel may write any memory that does not belong to a region, and the `type` of regions. `VmState.Contract` says
what the allocator promises in a state.

`vm_alloc` rounds the size up in 32-bit arithmetic. A size within a page of `2 ^ 32` becomes zero, and the region
that `vm_alloc` returns for it is empty (`reachable_empty_region`). In runs without such a request the contract
holds in every state (`run_contract`).
-/

namespace Lanthorn

open Library List

namespace VpageAlct

def frees (s : VpageAlct) : List ℕ := s.freeRbt.nodes.map vpageOf

def lives (s : VpageAlct) : List ℕ := s.allocedRbt.nodes.map vpageOf

/-- What `mm_ops.alloc` may return: memory for a descriptor that belongs to no region. -/
def Fresh (s : VpageAlct) (vp : ℕ) : Prop := IsDesc vp ∧ vp ∉ s.frees ++ s.lives

/-- What the rest of the kernel may do: write outside the regions, and their `type`. -/
structure Untouched (s s' : VpageAlct) : Prop where
  freeRoot : s'.freeRoot = s.freeRoot
  allocedRoot : s'.allocedRoot = s.allocedRoot
  addr : ∀ p ∈ s.frees ++ s.lives, s'.addr p = s.addr p
  size : ∀ p ∈ s.frees ++ s.lives, s'.size p = s.size p
  mxSize : ∀ p ∈ s.frees ++ s.lives, s'.mxSize p = s.mxSize p
  tree : ∀ p ∈ s.frees ++ s.lives, s.tree.AgreeAt s'.tree (p + vpageRbtNode)

section Lists

variable {s : VpageAlct} {free live : List ℕ} {covered : ℕ → Prop} {stale : ℕ}

theorem map_vpageOf_rbtNodes {vps : List ℕ} (hdesc : ∀ p ∈ vps, IsDesc p) : (rbtNodes vps).map vpageOf = vps := by
  rw [rbtNodes, map_map]
  exact (map_congr_left fun p hp ↦ vpageOf_add (hdesc p hp)).trans (map_id vps)

theorem Trees.frees_eq (h : Trees s free live stale) : s.frees = free := by
  obtain ⟨T, hT, -, hinorder, -⟩ := h.free_tree
  grind [frees, hT.nodes_eq, map_vpageOf_rbtNodes, h.desc]

theorem Trees.lives_eq (h : Trees s free live stale) : s.lives = live := by
  obtain ⟨T, hT, -, hinorder⟩ := h.live_tree
  grind [lives, hT.nodes_eq, map_vpageOf_rbtNodes, h.desc]

theorem Untouched.trees {s' : VpageAlct} (h : Untouched s s') (htrees : Trees s free live 0) :
    Trees s' free live 0 := by
  obtain ⟨hfreeRoot, hallocedRoot, haddr, hsize, hmx, htree⟩ := h
  rw [htrees.frees_eq, htrees.lives_eq] at haddr hsize hmx htree
  have hleft : ∀ p ∈ free, p ∈ free ++ live := fun p ↦ mem_append_left _
  have hright : ∀ p ∈ live, p ∈ free ++ live := fun p ↦ mem_append_right _
  obtain ⟨T, hT, hrb, hinorder, hsummed⟩ := htrees.free_tree
  obtain ⟨U, hU, hrbU, hinorderU⟩ := htrees.live_tree
  -- what a tree node of the free tree says about the `mx_size` of its region
  have hnode : ∀ n ∈ T.inorder, s'.mxSize (vpageOf n) = s.mxSize (vpageOf n) ∧
      s'.size (vpageOf n) = s.size (vpageOf n) := by
    intro n hn
    obtain ⟨p, hp, rfl⟩ := List.mem_map.mp (hinorder ▸ hn)
    grind [vpageOf_add, htrees.desc]
  have hchild : ∀ n, (n ≠ 0 → n ∈ T.inorder) → childMx s'.mxSize n = childMx s.mxSize n := by grind [childMx]
  have hfree_tree : s'.freeRbt.Holds T := by
    rw [freeRbt, hfreeRoot]
    refine hT.congr fun z hz ↦ ?_
    obtain ⟨p, hp, rfl⟩ := List.mem_map.mp (hinorder ▸ hz)
    exact htree p (hleft p hp)
  have hlive_tree : s'.allocedRbt.Holds U := by
    rw [allocedRbt, hallocedRoot]
    refine hU.congr fun z hz ↦ ?_
    obtain ⟨p, hp, rfl⟩ := List.mem_map.mp (hinorderU ▸ hz)
    exact htree p (hright p hp)
  have hsummed' : Summed (MxBut 0 s'.size s'.mxSize) T := by
    refine hsummed.imp_of_mem fun a ha l r hl hr hmx ↦ hmx.imp_right fun hmx ↦ ?_
    rw [(hnode a ha).1, (hnode a ha).2, hchild l hl, hchild r hr]
    exact hmx
  exact ⟨⟨T, hfree_tree, hrb, hinorder, hsummed'⟩, ⟨U, hlive_tree, hrbU, hinorderU⟩, htrees.desc, htrees.nodup⟩

theorem Untouched.valid {s' : VpageAlct} (h : Untouched s s') (hvalid : Valid s free live covered) :
    Valid s' free live covered := by
  obtain ⟨htrees, hfree, hlive, hregions⟩ := hvalid
  have haddr := h.addr
  have hsize := h.size
  rw [htrees.frees_eq, htrees.lives_eq] at haddr hsize
  exact ⟨h.trees htrees, hfree.congr fun p hp ↦ haddr p (mem_append_left _ hp),
    hlive.congr fun p hp ↦ haddr p (mem_append_right _ hp),
    hregions.congr fun p hp ↦ ⟨haddr p hp, hsize p hp⟩⟩

theorem vmInit_valid (s : VpageAlct) : Valid s.vmInit [] [] fun _ ↦ False := by
  have hempty : RedBlack .nil := ⟨rfl, 0, rfl⟩
  have hholds : (⟨s.tree, 0⟩ : Rbt).Holds .nil := ⟨rfl, trivial, .nil, by simp⟩
  exact ⟨⟨⟨.nil, hholds, hempty, rfl, trivial⟩, ⟨.nil, hholds, hempty, rfl⟩, by simp, by simp⟩,
    .nil, .nil, regions_nil⟩

end Lists

end VpageAlct

structure VmState where
  alct : VpageAlct
  inserted : List (ℕ × ℕ)

/-- The calls of the allocator, with the descriptors that `mm_ops.alloc` returns to them, and what the
rest of the kernel does in between. -/
inductive VmCall
  | insert (vp addr size : ℕ)
  | alloc (vp size : ℕ)
  | free (vp : ℕ)
  | slice (new₁ new₂ vpage addr size : ℕ)
  | other

namespace VmState

open VpageAlct

def Covered (st : VmState) (a : ℕ) : Prop := ∃ r ∈ st.inserted, r.1 ≤ a ∧ a < r.1 + r.2

/-- A range that may be inserted: whole pages, at least one, that end below `2 ^ 32` and are disjoint
from every range that was inserted. -/
structure Insertable (st : VmState) (addr size : ℕ) : Prop where
  addr_aligned : addr % pageSize = 0
  size_aligned : size % pageSize = 0
  size_pos : 0 < size
  bound : addr + size < addressSpace
  disjoint : ∀ r ∈ st.inserted, addr + size ≤ r.1 ∨ r.1 + r.2 ≤ addr

/-- The allocator after `vm_init` and any calls that succeed: insertions of new ranges, allocations of
any size but zero, frees of live regions, and slices of live regions. -/
def system : System VmState VmCall where
  init st := ∃ s : VpageAlct, st = ⟨s.vmInit, []⟩
  step st call st' :=
    match call with
    | .insert vp addr size => st.Insertable addr size ∧ st.alct.Fresh vp ∧ ∃ alct,
        st.alct.vmInsert (.ok vp) addr size = .ok (.ok, alct) ∧
        st' = ⟨alct, (addr, size) :: st.inserted⟩
    | .alloc vp size => 0 < size ∧ size < addressSpace ∧ st.alct.Fresh vp ∧ ∃ res alct,
        st.alct.vmAlloc (.ok vp) size = .ok (.ok, some res, alct) ∧ st' = { st with alct := alct }
    | .free vp => vp ∈ st.alct.lives ∧ ∃ alct,
        st.alct.vmFree vp = .ok (.ok, alct) ∧ st' = { st with alct := alct }
    | .slice new₁ new₂ vpage addr size => vpage ∈ st.alct.lives ∧
        st.alct.Fresh new₁ ∧ st.alct.Fresh new₂ ∧ new₁ ≠ new₂ ∧ ∃ res alct,
        st.alct.vmSlice (.ok new₁) (.ok new₂) vpage addr size = .ok (.ok, some res, alct) ∧
        st' = { st with alct := alct }
    | .other => ∃ alct, st.alct.Untouched alct ∧ st' = { st with alct := alct }

def Roundable (_ : VmState) : VmCall → Prop
  | .alloc _ size => size ≤ addressSpace - pageSize
  | _ => True

def Inv (st : VmState) : Prop := ∃ free live, Valid st.alct free live st.Covered

theorem inv_init {st : VmState} (h : system.init st) : st.Inv := by
  obtain ⟨s, rfl⟩ := h
  refine ⟨[], [], ?_⟩
  convert vmInit_valid s using 2 with a
  simp [Covered]

theorem Insertable.not_covered {st : VmState} {addr size : ℕ} (h : st.Insertable addr size) (x : ℕ)
    (hx : addr ≤ x) (hx' : x < addr + size) : ¬ st.Covered x := by
  rintro ⟨r, hr, hle, hlt⟩
  have := h.disjoint r hr
  omega

theorem inv_step {st st' : VmState} {call : VmCall} (h : st.Inv) (hround : st.Roundable call)
    (hstep : system.step st call st') : st'.Inv := by
  obtain ⟨free, live, hvalid⟩ := h
  have hfresh : ∀ vp, st.alct.Fresh vp → IsDesc vp ∧ vp ∉ free ++ live := fun vp hvp ↦ by
    rwa [Fresh, hvalid.trees.frees_eq, hvalid.trees.lives_eq] at hvp
  cases call with
  | insert vp addr size =>
    obtain ⟨hins, hvp, alct, hrun, rfl⟩ := hstep
    obtain ⟨s', free', hrun', hvalid', -⟩ := vmInsert_valid hvalid (hfresh vp hvp).2 (hfresh vp hvp).1
      hins.addr_aligned hins.size_aligned hins.size_pos hins.bound hins.not_covered
    obtain rfl : alct = s' := by simpa [hrun] using hrun'
    refine ⟨free', live, ?_⟩
    convert hvalid' using 2 with a
    simp only [Covered, mem_cons, exists_eq_or_imp]
    exact or_comm
  | alloc vp size =>
    obtain ⟨hpos, -, hvp, res, alct, hrun, rfl⟩ := hstep
    obtain ⟨-, hnone⟩ | ⟨s', free', live', hsome, hvalid', -⟩ :=
      vmAlloc_valid hvalid (hfresh vp hvp).2 (hfresh vp hvp).1 hpos hround
    · simp [hrun] at hnone
    · obtain ⟨-, rfl⟩ : res = vp ∧ alct = s' := by simpa [hrun] using hsome
      exact ⟨free', live', hvalid'⟩
  | free vp =>
    obtain ⟨hvp, alct, hrun, rfl⟩ := hstep
    rw [hvalid.trees.lives_eq] at hvp
    obtain ⟨s', free', hrun', hvalid', -⟩ := vmFree_valid hvalid hvp
    obtain rfl : alct = s' := by simpa [hrun] using hrun'
    exact ⟨free', _, hvalid'⟩
  | slice new₁ new₂ vpage addr size =>
    obtain ⟨hvpage, hnew₁, hnew₂, hne, res, alct, hrun, rfl⟩ := hstep
    rw [hvalid.trees.lives_eq] at hvpage
    obtain ⟨live', hvalid', -⟩ := vmSlice_valid hvalid hvpage (hfresh _ hnew₁).2 (hfresh _ hnew₁).1
      (hfresh _ hnew₂).2 (hfresh _ hnew₂).1 hne hrun
    exact ⟨free, live', hvalid'⟩
  | other =>
    obtain ⟨alct, huntouched, rfl⟩ := hstep
    exact ⟨free, live, huntouched.valid hvalid⟩

/-- The contract of the allocator in a state.

Each tree in memory is a well-formed tree of its regions (`free_tree`, `live_tree`), and a search tree
for their starts (`free_sorted`, `live_sorted`). The regions are of whole pages and not empty
(`aligned`, `nonempty`), disjoint (`apart`), and make up the inserted ranges (`cover`).
`vm_search_addr` finds the live region of an address (`found`) and reports `E_NOTFOUND` when there is
none (`not_found`). -/
structure Contract (st : VmState) : Prop where
  free_tree : ∃ T, st.alct.freeRbt.Holds T ∧ RedBlack T ∧ T.inorder = rbtNodes st.alct.frees
  live_tree : ∃ T, st.alct.allocedRbt.Holds T ∧ RedBlack T ∧ T.inorder = rbtNodes st.alct.lives
  free_sorted : Sorted st.alct.addr st.alct.frees
  live_sorted : Sorted st.alct.addr st.alct.lives
  aligned : ∀ p ∈ st.alct.frees ++ st.alct.lives, st.alct.addr p % pageSize = 0 ∧ st.alct.size p % pageSize = 0
  nonempty : ∀ p ∈ st.alct.frees ++ st.alct.lives, 0 < st.alct.size p
  apart : (st.alct.frees ++ st.alct.lives).Pairwise (Apart st.alct.addr st.alct.size)
  cover : ∀ a, st.Covered a ↔ ∃ p ∈ st.alct.frees ++ st.alct.lives, InRegion st.alct.addr st.alct.size p a
  found : ∀ a p, st.alct.vmSearchAddr a = .ok (some p) ↔ p ∈ st.alct.lives ∧ InRegion st.alct.addr st.alct.size p a
  not_found : ∀ a, st.alct.vmSearchAddr a = .ok none ↔ ∀ p ∈ st.alct.lives, ¬ InRegion st.alct.addr st.alct.size p a

theorem Inv.contract {st : VmState} (h : st.Inv) : st.Contract := by
  obtain ⟨free, live, hvalid⟩ := h
  have hsearch := vmSearchAddr_spec hvalid
  have hunique : ∀ {p q a : ℕ}, p ∈ live → q ∈ live → InRegion st.alct.addr st.alct.size p a →
      InRegion st.alct.addr st.alct.size q a → p = q := fun hp hq ↦
    hvalid.regions.eq_of_common (mem_append_right _ hp) (mem_append_right _ hq)
  have hfrees := hvalid.trees.frees_eq
  have hlives := hvalid.trees.lives_eq
  obtain ⟨⟨⟨T, hT, hrb, hinorder, -⟩, hlive_tree, -, -⟩, hfree, hlive, hregions⟩ := hvalid
  constructor
  all_goals simp only [hfrees, hlives]
  · exact ⟨T, hT, hrb, hinorder⟩
  · exact hlive_tree
  · exact hfree
  · exact hlive
  · exact fun p hp ↦ ⟨hregions.start_unit p hp, hregions.len_unit p hp⟩
  · exact hregions.pos
  all_goals grind [hregions.apart, hregions.cover]

/-- The contract holds in every state that is reached without a request within a page of `2 ^ 32`. -/
theorem run_contract {st : VmState} (h : system.Run Roundable st) : st.Contract :=
  (h.invariant (fun _ ↦ inv_init) fun _ _ _ ↦ inv_step).contract

/-- An allocator before `vm_init`, in memory of zeros. -/
def blank : VpageAlct where
  freeRoot := 0
  allocedRoot := 0
  addr _ := 0
  size _ := 0
  mxSize _ := 0
  type _ := .kmNormal
  tree := ⟨fun _ ↦ .red, fun _ ↦ 0, fun _ _ ↦ 0⟩

theorem blank_empty : blank.vmInit.frees ++ blank.vmInit.lives = [] := by decide +kernel

/-- Four pages at `0x2000` and an allocation from them: the codes, the regions held before the
allocation, the region, and its size. -/
def exampleRun (size : ℕ) : Result (List Errno × List ℕ × Option ℕ × List ℕ × ℕ) := do
  let (err₁, s₁) ← blank.vmInit.vmInsert (.ok 0x1000) 0x2000 0x4000
  let (err₂, res, s₂) ← s₁.vmAlloc (.ok 0x1030) size
  return ([err₁, err₂], s₁.frees ++ s₁.lives, res, s₂.lives, s₂.size 0x1030)

theorem exampleRun_steps {size len : ℕ} (hpos : 0 < size) (hword : size < addressSpace)
    (h : exampleRun size = .ok ([.ok, .ok], [0x1000], some 0x1030, [0x1030], len)) :
    ∃ st₀ st₁ st₂, system.init st₀ ∧ system.step st₀ (.insert 0x1000 0x2000 0x4000) st₁ ∧
      system.step st₁ (.alloc 0x1030 size) st₂ ∧ st₂.alct.lives = [0x1030] ∧ st₂.alct.size 0x1030 = len := by
  obtain ⟨⟨err₁, s₁⟩, hinsert, hrest⟩ := bind_eq_ok.mp h
  obtain ⟨⟨err₂, res, s₂⟩, halloc, hrest⟩ := bind_eq_ok.mp hrest
  obtain ⟨⟨rfl, rfl⟩, hheld, rfl, hlives, rfl⟩ : (err₁ = .ok ∧ err₂ = .ok) ∧
      s₁.frees ++ s₁.lives = [0x1000] ∧ res = some 0x1030 ∧ s₂.lives = [0x1030] ∧
      s₂.size 0x1030 = len := by grind [pure_eq]
  refine ⟨⟨blank.vmInit, []⟩, ⟨s₁, [(0x2000, 0x4000)]⟩, ⟨s₂, [(0x2000, 0x4000)]⟩, ⟨blank, rfl⟩,
    ⟨?_, ⟨by unfold IsDesc; decide, ?_⟩, s₁, hinsert, rfl⟩,
    ⟨hpos, hword, ⟨by unfold IsDesc; decide, ?_⟩, 0x1030, s₂, halloc, rfl⟩, hlives, rfl⟩
  · exact ⟨by decide, by decide, by decide, by decide, by simp⟩
  · rw [blank_empty]
    simp
  · rw [hheld]
    decide

/-- The contract at a state with a live region. -/
theorem run_contract_example : ∃ st, system.Run Roundable st ∧ st.alct.lives = [0x1030] ∧ st.Contract := by
  obtain ⟨st₀, st₁, st₂, hinit, hinsert, halloc, hlives, -⟩ :=
    @exampleRun_steps 100 0x1000 (by decide) (by decide) (by decide +kernel)
  have hround : st₁.Roundable (.alloc 0x1030 100) := show 100 ≤ addressSpace - pageSize by decide
  have hrun : system.Run Roundable st₂ :=
    .step (.step (.init hinit) (a := .insert 0x1000 0x2000 0x4000) trivial hinsert) hround halloc
  exact ⟨st₂, hrun, hlives, run_contract hrun⟩

/-- A request within a page of `2 ^ 32` is rounded up to nothing: `vm_alloc` succeeds with an empty
region. -/
theorem reachable_empty_region :
    ∃ st, system.Reachable st ∧ ¬ st.Contract ∧ ∃ vp ∈ st.alct.lives, st.alct.size vp = 0 := by
  obtain ⟨st₀, st₁, st₂, hinit, hinsert, halloc, hlives, hsize⟩ :=
    @exampleRun_steps 0xFFFFF001 0 (by decide) (by decide) (by decide +kernel)
  have hmem : 0x1030 ∈ st₂.alct.lives := by simp [hlives]
  refine ⟨st₂, .step (.step (.init hinit) trivial hinsert) trivial halloc, fun hcontract ↦ ?_, 0x1030, hmem, hsize⟩
  have hpos := hcontract.nonempty 0x1030 (mem_append_right _ hmem)
  omega

end VmState

end Lanthorn
