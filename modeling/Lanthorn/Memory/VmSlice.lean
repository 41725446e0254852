import Lanthorn.Memory.UmRegions

/-!
# `vm_slice` without memory for a descriptor

`_vm_slice` takes the region out of `alloced_rbt` before it asks for the descriptor of the second piece,
and does not put it back when there is none. `VpageAlct.Conserves` says what a slice should keep: the type
of every allocated address and, when it fails, the regions that `vm_search_addr` finds. A slice that meets
its assertions does so exactly if every cut that it makes gets a descriptor
(`VpageAlct.vmSlice_conserves_iff`). Otherwise the piece that was to be cut is lost
(`VmState.run_slice_loses`).
-/

namespace Lanthorn

open Library List

namespace VpageAlct

/-- What `mm_ops.alloc` may return: an error code, or memory for a descriptor that belongs to no region. -/
def Supply (s : VpageAlct) : Except Errno ℕ → Prop
  | .error err => err ≠ .ok
  | .ok vp => s.Fresh vp

/-- What `vm_slice` of `[addr, addr + size)` out of `vpage` should do.

The types of the allocated addresses stay (`typeAt`). A success returns the region asked for (`result`),
and any other region is an old one or one of the two remainders (`pieces`). A failure returns no region
(`unset`), and every address that `vm_search_addr` found it still finds (`searchable`). -/
structure Conserves (s s' : VpageAlct) (vpage addr size : ℕ) (err : Errno) (res : Option ℕ) : Prop where
  typeAt : ∀ x t, TypeAt s' s'.lives x t ↔ TypeAt s s.lives x t
  result : err = .ok → ∃ r ∈ s'.lives, res = some r ∧ s'.addr r = addr ∧ s'.size r = size
  pieces : err = .ok → ∀ p ∈ s'.lives,
    (p ∈ s.lives ∧ p ≠ vpage ∧ s'.addr p = s.addr p ∧ s'.size p = s.size p) ∨ res = some p ∨
      (s'.addr p = s.addr vpage ∧ s'.addr p + s'.size p = addr) ∨
      (s'.addr p = addr + size ∧ s'.addr p + s'.size p = s.addr vpage + s.size vpage)
  unset : err ≠ .ok → res = none
  searchable : err ≠ .ok → ∀ a, (∃ p, s.vmSearchAddr a = .ok (some p)) → ∃ p, s'.vmSearchAddr a = .ok (some p)

section Cuts

variable {s s' : VpageAlct} {free live : List ℕ} {covered : ℕ → Prop} {vpage addr size bound : ℕ}

/-- The state after a cut that has found no descriptor: the region is out of the tree. -/
structure Loses (s s' : VpageAlct) (free live : List ℕ) (vpo : ℕ) : Prop where
  trees : Trees s' free (live.erase vpo) 0
  addr : s'.addr = s.addr
  size : s'.size = s.size

variable {vpo : ℕ} {new : Except Errno ℕ}

theorem Loses.not_typeAt (hlost : Loses s s' free live vpo) (h : Valid s free live covered)
    (hvpo : vpo ∈ live) (t : VpageType) : ¬ TypeAt s' s'.lives (s.addr vpo) t := by
  rintro ⟨p, hp, hin, -⟩
  rw [hlost.trees.lives_eq] at hp
  rw [hlost.addr, hlost.size] at hin
  have hnodup := (List.nodup_append.mp h.trees.nodup).2.1
  obtain ⟨hne, hp⟩ := hnodup.mem_erase_iff.mp hp
  have hmem : vpo ∈ free ++ live := mem_append_right _ hvpo
  have hpos := h.regions.pos vpo hmem
  have hself : InRegion s.addr s.size vpo (s.addr vpo) := ⟨Nat.le_refl _, Nat.lt_add_of_pos_right hpos⟩
  exact hne (h.regions.eq_of_common (mem_append_right _ hp) hmem hin hself)

theorem vmSliceAt_assertion (h : Valid s free live covered) (hvpo : vpo ∈ live)
    (hmeets : s.vmSliceAt new vpo bound ≠ .error .assertion) :
    s.addr vpo < bound ∧ bound < s.addr vpo + s.size vpo ∧ bound % pageSize = 0 := by
  have hmem : vpo ∈ free ++ live := mem_append_right _ hvpo
  have hbound := h.regions.bound vpo hmem
  have hpos := h.regions.pos vpo hmem
  by_cases hassert : bound > s.addr vpo ∧
      bound < (s.addr vpo + s.size vpo + addressSpace - 1) % addressSpace ∧ bound % pageSize = 0
  · unfold addressSpace at *
    omega
  · exact absurd (by simp [vmSliceAt, assert, hassert]) hmeets

theorem vmSliceAt_loses (h : Valid s free live covered) (hvpo : vpo ∈ live)
    (hlow : s.addr vpo < bound) (hhigh : bound < s.addr vpo + s.size vpo)
    (hunit : bound % pageSize = 0) (err : Errno) :
    ∃ s', s.vmSliceAt (.error err) vpo bound = .ok (err, none, s') ∧ Loses s s' free live vpo := by
  have hmem : vpo ∈ free ++ live := mem_append_right _ hvpo
  have hbound := h.regions.bound vpo hmem
  have haddr_unit := h.regions.start_unit vpo hmem
  have hsize_unit := h.regions.len_unit vpo hmem
  have hassert : bound > s.addr vpo ∧
      bound < (s.addr vpo + s.size vpo + addressSpace - 1) % addressSpace ∧ bound % pageSize = 0 := by
    unfold addressSpace pageSize at *
    omega
  obtain ⟨t', hdelete, htrees⟩ := deleteAlloced_trees h.trees hvpo
  refine ⟨s.setAllocedRbt t', ?_, htrees, rfl, rfl⟩
  simp [vmSliceAt, hassert, hdelete, vpageNew]

/-- A piece of the region, from `lo` to `hi`, after a cut that has kept everything. -/
structure Piece (s s' : VpageAlct) (free live live' : List ℕ) (covered : ℕ → Prop) (vpage v lo hi : ℕ) : Prop where
  valid : Valid s' free live' covered
  recut : Recut s s' live live' vpage
  mem : v ∈ live'
  known : v = vpage ∨ v ∉ live
  start : s'.addr v = lo
  stop : s'.addr v + s'.size v = hi
  nopm : s'.type v = .umNopm

theorem sliceFront_cases (h : Valid s free live covered) (hvpage : vpage ∈ live)
    (htype : s.type vpage = .umNopm) (hlow : s.addr vpage ≤ addr)
    (hnew : ∀ vp, new = .ok vp → IsDesc vp ∧ vp ∉ free ++ live)
    (hmeets : s.sliceFront new vpage addr ≠ .error .assertion) : (s.addr vpage < addr ∧ ∃ err s', new = .error err ∧
        s.sliceFront new vpage addr = .ok (err, none, s') ∧ Loses s s' free live vpage) ∨
      ((s.addr vpage < addr → new.isOk) ∧ ∃ v s' live', s.sliceFront new vpage addr = .ok (.ok, some v, s') ∧
        Piece s s' free live live' covered vpage v addr (s.addr vpage + s.size vpage) ∧
        (∀ p ∈ live', p ∈ live ∨ new = .ok p) ∧ ∀ p ∈ live', (p ∈ live ∧ p ≠ vpage) ∨ p = v ∨
          (s'.addr p = s.addr vpage ∧ s'.addr p + s'.size p = addr)) := by
  unfold sliceFront at hmeets ⊢
  split_ifs at hmeets ⊢ with hcut
  · obtain ⟨-, hhigh, hunit⟩ := vmSliceAt_assertion h hvpage hmeets
    cases new with
    | error err =>
      obtain ⟨s', hrun, hlost⟩ := vmSliceAt_loses h hvpage hcut hhigh hunit err
      exact .inl ⟨hcut, err, s', rfl, hrun, hlost⟩
    | ok vp =>
      obtain ⟨hdesc, hvp⟩ := hnew vp rfl
      obtain ⟨s', live', hrun, hvalid', hperm, hrecut, haddr, hsize, -, haddr', hsize', htype'⟩ :=
        vmSliceAt_recut h hvp hdesc hvpage htype hcut hhigh hunit
      refine .inr ⟨fun _ ↦ rfl, vp, s', live', hrun, ⟨hvalid', hrecut, hperm.mem_iff.mpr mem_cons_self,
        .inr fun hmem ↦ hvp (mem_append_right _ hmem), haddr', by omega, htype'⟩, fun p hp ↦ ?_,
        fun p hp ↦ ?_⟩
      all_goals grind
  · refine .inr ⟨fun hlt ↦ absurd hlt hcut, vpage, s, live, rfl, ⟨h, .refl s live htype, hvpage, .inl rfl,
      by omega, rfl, htype⟩, fun p hp ↦ .inl hp, fun p hp ↦ ?_⟩
    by_cases hpv : p = vpage
    · exact .inr (.inl hpv)
    · exact .inl ⟨hp, hpv⟩

theorem sliceBack_cases (h : Valid s free live covered) (hvpage : vpage ∈ live)
    (htype : s.type vpage = .umNopm) (hle : bound ≤ s.addr vpage + s.size vpage)
    (hnew : ∀ vp, new = .ok vp → IsDesc vp ∧ vp ∉ free ++ live)
    (hmeets : s.sliceBack new vpage bound ≠ .error .assertion) : s.addr vpage < bound ∧
      ((bound < s.addr vpage + s.size vpage ∧ ∃ err s', new = .error err ∧
        s.sliceBack new vpage bound = .ok (err, none, s') ∧ Loses s s' free live vpage) ∨
      ((bound < s.addr vpage + s.size vpage → new.isOk) ∧ ∃ r s' live',
        s.sliceBack new vpage bound = .ok (.ok, r, s') ∧
        Piece s s' free live live' covered vpage vpage (s.addr vpage) bound ∧
        ∀ p ∈ live', (p ∈ live ∧ p ≠ vpage) ∨ p = vpage ∨
          (s'.addr p = bound ∧ s'.addr p + s'.size p = s.addr vpage + s.size vpage))) := by
  have hmem : vpage ∈ free ++ live := mem_append_right _ hvpage
  have hpos := h.regions.pos vpage hmem
  unfold sliceBack at hmeets ⊢
  rw [wordAdd_of_lt (h.regions.bound vpage hmem)] at hmeets ⊢
  split_ifs at hmeets ⊢ with hcut
  · obtain ⟨hlow, -, hunit⟩ := vmSliceAt_assertion h hvpage hmeets
    refine ⟨hlow, ?_⟩
    cases new with
    | error err =>
      obtain ⟨s', hrun, hlost⟩ := vmSliceAt_loses h hvpage hlow hcut hunit err
      exact .inl ⟨hcut, err, s', rfl, hrun, hlost⟩
    | ok vp =>
      obtain ⟨hdesc, hvp⟩ := hnew vp rfl
      obtain ⟨s', live', hrun, hvalid', hperm, hrecut, haddr, hsize, htype', haddr', hsize', -⟩ :=
        vmSliceAt_recut h hvp hdesc hvpage htype hlow hcut hunit
      refine .inr ⟨fun _ ↦ rfl, some vp, s', live', hrun, ⟨hvalid', hrecut,
        hperm.mem_iff.mpr (mem_cons_of_mem _ hvpage), .inl rfl, haddr, by omega, htype'⟩,
        fun p hp ↦ ?_⟩
      grind
  · refine ⟨by omega, .inr ⟨fun hlt ↦ absurd hlt hcut, none, s, live, rfl, ⟨h, .refl s live htype, hvpage,
      .inl rfl, rfl, by omega, htype⟩, fun p hp ↦ ?_⟩⟩
    by_cases hpv : p = vpage
    · exact .inr (.inl hpv)
    · exact .inl ⟨hp, hpv⟩

theorem vmSlice_of_front {new₁ : Except Errno ℕ} (new₂ : Except Errno ℕ) (htype : s.type vpage = .umNopm)
    (hunit : addr % pageSize = 0 ∧ size % pageSize = 0)
    (hguard : addr ≥ s.addr vpage ∧ wordAdd addr size ≤ wordAdd (s.addr vpage) (s.size vpage)) {err : Errno}
    (herr : err ≠ .ok) (hfront : s.sliceFront new₁ vpage addr = .ok (err, none, s')) :
    s.vmSlice new₁ new₂ vpage addr size = .ok (err, none, s') := by
  simp only [vmSlice, assert_of_true htype, assert_of_true hunit, assert_of_true hguard, hfront, ok_bind]
  cases err <;> first | exact absurd rfl herr | rfl

theorem vmSlice_meets {new₁ new₂ : Except Errno ℕ}
    (hmeets : s.vmSlice new₁ new₂ vpage addr size ≠ .error .assertion) :
    s.type vpage = .umNopm ∧ s.addr vpage ≤ addr ∧ wordAdd addr size ≤ wordAdd (s.addr vpage) (s.size vpage) ∧
      s.sliceFront new₁ vpage addr ≠ .error .assertion ∧
      (∀ err s', err ≠ .ok → s.sliceFront new₁ vpage addr = .ok (err, none, s') →
        s.vmSlice new₁ new₂ vpage addr size = .ok (err, none, s')) ∧
      ∀ v s₁, s.sliceFront new₁ vpage addr = .ok (.ok, some v, s₁) →
        s₁.sliceBack new₂ v (wordAdd addr size) ≠ .error .assertion ∧
        (∀ err s', err ≠ .ok → s₁.sliceBack new₂ v (wordAdd addr size) = .ok (err, none, s') →
          s.vmSlice new₁ new₂ vpage addr size = .ok (err, none, s')) ∧
        ∀ r s', s₁.sliceBack new₂ v (wordAdd addr size) = .ok (.ok, r, s') → s'.addr v = addr →
          s'.size v = size → s.vmSlice new₁ new₂ vpage addr size = .ok (.ok, some v, s') := by
  by_cases htype : s.type vpage = .umNopm
  swap
  · exact absurd (by simp [vmSlice, assert, htype]) hmeets
  by_cases hunit : addr % pageSize = 0 ∧ size % pageSize = 0
  swap
  · exact absurd (by simp [vmSlice, assert, htype, hunit]) hmeets
  by_cases hguard : addr ≥ s.addr vpage ∧ wordAdd addr size ≤ wordAdd (s.addr vpage) (s.size vpage)
  swap
  · exact absurd (by simp [vmSlice, assert, htype, hunit, hguard]) hmeets
  refine ⟨htype, hguard.1, hguard.2, fun hfront ↦ hmeets ?_,
    fun err s' herr ↦ vmSlice_of_front new₂ htype hunit hguard herr, fun v s₁ hfront ↦ ?_⟩
  · simp [vmSlice, htype, hunit, hguard, hfront]
  · simp only [vmSlice, assert_of_true htype, assert_of_true hunit, assert_of_true hguard, hfront, bind,
      Except.bind] at hmeets ⊢
    refine ⟨fun hback ↦ hmeets (by rw [hback]), fun err s' herr hback ↦ ?_, fun r s' hback haddr hsize ↦ ?_⟩
    · simp [hback, herr]
    · simp [hback, haddr, hsize]

theorem Piece.conserves {s'' : VpageAlct} {live' live'' : List ℕ} {v : ℕ} (h : Valid s free live covered)
    (h₁ : Piece s s' free live live' covered vpage v addr (s.addr vpage + s.size vpage))
    (hpieces₁ : ∀ p ∈ live', (p ∈ live ∧ p ≠ vpage) ∨ p = v ∨
      (s'.addr p = s.addr vpage ∧ s'.addr p + s'.size p = addr))
    (h₂ : Piece s' s'' free live' live'' covered v v (s'.addr v) (addr + size))
    (hpieces₂ : ∀ p ∈ live'', (p ∈ live' ∧ p ≠ v) ∨ p = v ∨
      (s''.addr p = addr + size ∧ s''.addr p + s''.size p = s'.addr v + s'.size v)) :
    Conserves s s'' vpage addr size .ok (some v) := by
  have haddr : s''.addr v = addr := h₂.start.trans h₁.start
  have hstop := h₂.stop
  refine ⟨fun x t ↦ ?_, fun _ ↦ ⟨v, ?_, rfl, haddr, by omega⟩, fun _ p hp ↦ ?_, fun herr ↦ absurd rfl herr,
    fun herr ↦ absurd rfl herr⟩
  · rw [h.trees.lives_eq, h₂.valid.trees.lives_eq]
    exact (h₂.recut.typeAt x t).trans (h₁.recut.typeAt x t)
  · rw [h₂.valid.trees.lives_eq]
    exact h₂.mem
  grind [h₂.valid.trees.lives_eq, h.trees.lives_eq, h₂.recut.rest, h₁.recut.rest, h₁.stop]

/-- A slice that meets its assertions returns, and it conserves the region exactly if there is a
descriptor for every cut: the one at `addr`, unless the region starts there, and the one at
`addr + size`, unless the region ends there. -/
theorem vmSlice_conserves_iff (h : Valid s free live covered) (hvpage : vpage ∈ s.lives)
    {new₁ new₂ : Except Errno ℕ} (hnew₁ : s.Supply new₁) (hnew₂ : s.Supply new₂)
    (hne : ∀ vp, new₁ = .ok vp → new₂ ≠ .ok vp) (hsize : size < addressSpace)
    (hmeets : s.vmSlice new₁ new₂ vpage addr size ≠ .error .assertion) :
    ∃ err res s', s.vmSlice new₁ new₂ vpage addr size = .ok (err, res, s') ∧
      (Conserves s s' vpage addr size err res ↔ (s.addr vpage < addr → new₁.isOk) ∧
        (addr + size < s.addr vpage + s.size vpage → new₂.isOk)) := by
  rw [h.trees.lives_eq] at hvpage
  have hmem : vpage ∈ free ++ live := mem_append_right _ hvpage
  have hbound := h.regions.bound vpage hmem
  have hpos := h.regions.pos vpage hmem
  have hfresh : ∀ new, s.Supply new → ∀ vp, new = .ok vp → IsDesc vp ∧ vp ∉ free ++ live := by
    rintro new hnew vp rfl
    obtain ⟨hdesc, hvp⟩ := hnew
    rw [h.trees.frees_eq, h.trees.lives_eq] at hvp
    exact ⟨hdesc, hvp⟩
  obtain ⟨htype, hlow, hguard, hfront_meets, hfront_fails, hback⟩ := vmSlice_meets hmeets
  rw [wordAdd_of_lt hbound] at hguard
  have htypeAt : TypeAt s s.lives (s.addr vpage) .umNopm := by
    rw [h.trees.lives_eq]
    exact ⟨vpage, hvpage, ⟨Nat.le_refl _, by omega⟩, htype⟩
  obtain ⟨hcut, err, s', rfl, hfront, hlost⟩ | ⟨hserved₁, v, s₁, live₁, hfront, hpiece₁, hsub, hpieces₁⟩ :=
    sliceFront_cases h hvpage htype hlow (hfresh new₁ hnew₁) hfront_meets
  · -- the first cut finds no descriptor
    refine ⟨err, none, s', hfront_fails err s' hnew₁ hfront, iff_of_false (fun hcons ↦ ?_) ?_⟩
    · exact hlost.not_typeAt h hvpage _ ((hcons.typeAt _ _).mpr htypeAt)
    · exact fun hserved ↦ by cases hserved.1 hcut
  · obtain ⟨hback_meets, hback_fails, hback_ok⟩ := hback v s₁ hfront
    have hnew₂' : ∀ vp, new₂ = .ok vp → IsDesc vp ∧ vp ∉ free ++ live₁ := by grind
    have hstart := hpiece₁.start
    have hstop := hpiece₁.stop
    obtain ⟨hlt, hcases⟩ := sliceBack_cases hpiece₁.valid hpiece₁.mem hpiece₁.nopm (by omega) hnew₂'
      hback_meets
    -- the end of the slice has not wrapped, since it is above its start
    have hadd : wordAdd addr size = addr + size := by
      unfold wordAdd addressSpace at *
      omega
    rw [hadd] at hcases
    obtain ⟨hcut, err, s', rfl, hrun, hlost⟩ | ⟨hserved₂, r, s', live', hrun, hpiece₂, hpieces₂⟩ := hcases
    · -- the second cut finds no descriptor
      refine ⟨err, none, s', hback_fails err s' hnew₂ (by rwa [hadd]),
        iff_of_false (fun hcons ↦ ?_) ?_⟩
      · have hthere : TypeAt s₁ live₁ (s₁.addr v) .umNopm :=
          ⟨v, hpiece₁.mem, ⟨Nat.le_refl _, by omega⟩, hpiece₁.nopm⟩
        rw [hpiece₁.recut.typeAt, ← h.trees.lives_eq] at hthere
        exact hlost.not_typeAt hpiece₁.valid hpiece₁.mem _ ((hcons.typeAt _ _).mpr hthere)
      · exact fun hserved ↦ by cases hserved.2 (by omega)
    grind [hpiece₂.start, hpiece₂.stop, hpiece₁.conserves]

end Cuts

end VpageAlct

namespace VmState

open VpageAlct

/-- Four pages at `0x2000`, three of them allocated: the codes, the regions before and after the
allocation, the region, and its size. -/
def exampleRegion : Result (List Errno × List ℕ × Option ℕ × List (List ℕ) × ℕ) := do
  let (err₁, s₁) ← blank.vmInit.vmInsert (.ok 0x1000) 0x2000 0x4000
  let (err₂, res, s₂) ← s₁.vmAlloc (.ok 0x1030) 0x3000
  return ([err₁, err₂], s₁.frees ++ s₁.lives, res, [s₂.frees, s₂.lives], s₂.size 0x1030)

theorem exampleRegion_run : ∃ st, system.Run Roundable st ∧ st.alct.frees = [0x1000] ∧
    st.alct.lives = [0x1030] ∧ st.alct.size 0x1030 = 0x3000 ∧ st.alct.type 0x1030 = .umNopm := by
  have hview : exampleRegion =
      .ok ([.ok, .ok], [0x1000], some 0x1030, [[0x1000], [0x1030]], 0x3000) := by decide +kernel
  obtain ⟨⟨err₁, s₁⟩, hinsert, hrest⟩ := bind_eq_ok.mp hview
  obtain ⟨⟨err₂, res, s⟩, halloc, hrest⟩ := bind_eq_ok.mp hrest
  obtain ⟨⟨rfl, rfl⟩, hheld, rfl, ⟨hfrees, hlives⟩, hsize⟩ : (err₁ = .ok ∧ err₂ = .ok) ∧
      s₁.frees ++ s₁.lives = [0x1000] ∧ res = some 0x1030 ∧ (s.frees = [0x1000] ∧ s.lives = [0x1030]) ∧
      s.size 0x1030 = 0x3000 := by grind [pure_eq]
  have hinserted : system.Run Roundable ⟨s₁, [(0x2000, 0x4000)]⟩ := by
    refine .step (a := .insert 0x1000 0x2000 0x4000) (.init (s := ⟨blank.vmInit, []⟩) ⟨blank, rfl⟩) trivial
      ⟨⟨by decide, by decide, by decide, by decide, by simp⟩, ⟨by unfold IsDesc; decide, ?_⟩, s₁, hinsert, rfl⟩
    rw [blank_empty]
    exact not_mem_nil
  have halloced : system.Run Roundable ⟨s, [(0x2000, 0x4000)]⟩ := by
    refine .step (a := .alloc 0x1030 0x3000) hinserted (show 0x3000 ≤ addressSpace - pageSize by decide)
      ⟨by decide, by decide, ⟨by unfold IsDesc; decide, ?_⟩, 0x1030, s, halloc, rfl⟩
    rw [hheld]
    decide
  have htyped : system.Run Roundable ⟨{ s with type := fun _ ↦ .umNopm }, [(0x2000, 0x4000)]⟩ :=
    .step (a := .other) halloced trivial
      ⟨{ s with type := fun _ ↦ .umNopm }, ⟨rfl, rfl, fun _ _ ↦ rfl, fun _ _ ↦ rfl, fun _ _ ↦ rfl, fun _ _ ↦
        ⟨rfl, rfl, fun _ ↦ rfl⟩⟩, rfl⟩
  exact ⟨_, htyped, hfrees, hlives, hsize, rfl⟩

theorem exampleRegion_valid : ∃ st free live, system.Run Roundable st ∧
    Valid st.alct free live st.Covered ∧ st.alct.lives = [0x1030] ∧ st.alct.size 0x1030 = 0x3000 ∧
    st.alct.type 0x1030 = .umNopm ∧ st.alct.addr 0x1030 % pageSize = 0 ∧ 0x1030 ∈ live ∧
    st.alct.Fresh 0x1060 ∧ st.alct.Fresh 0x1090 := by
  obtain ⟨st, hrun, hfrees, hlives, hsize, htype⟩ := exampleRegion_run
  obtain ⟨free, live, hvalid⟩ : st.Inv := hrun.invariant (fun _ ↦ inv_init) fun _ _ _ ↦ inv_step
  have hmem : 0x1030 ∈ live := by
    rw [← hvalid.trees.lives_eq, hlives]
    exact mem_singleton_self _
  refine ⟨st, free, live, hrun, hvalid, hlives, hsize, htype,
    hvalid.regions.start_unit _ (mem_append_right _ hmem), hmem, ?_, ?_⟩
  all_goals
    refine ⟨by unfold IsDesc; decide, ?_⟩
    rw [hfrees, hlives]
    decide

/-- A slice of the middle page, with descriptors for both cuts. -/
theorem vmSlice_conserves_example : ∃ (st : VmState) (res : ℕ) (s' : VpageAlct), system.Run Roundable st ∧
    st.alct.vmSlice (.ok 0x1060) (.ok 0x1090) 0x1030 (st.alct.addr 0x1030 + 0x1000) 0x1000 =
      .ok (.ok, some res, s') ∧
    Conserves st.alct s' 0x1030 (st.alct.addr 0x1030 + 0x1000) 0x1000 .ok (some res) := by
  obtain ⟨st, free, live, hreach, hvalid, hlives, hsize, htype, hunit, hmem, hfresh₁, hfresh₂⟩ :=
    exampleRegion_valid
  have hnew : ∀ vp, st.alct.Fresh vp → vp ∉ free ++ live := fun vp hvp ↦ by
    rw [← hvalid.trees.frees_eq, ← hvalid.trees.lives_eq]
    exact hvp.2
  obtain ⟨res, s', -, hrun, -⟩ := vmSlice_recut hvalid hmem (hnew _ hfresh₁) hfresh₁.1
    (hnew _ hfresh₂) hfresh₂.1 (by decide) htype (show (st.alct.addr 0x1030 + 0x1000) % pageSize = 0 ∧
      0x1000 % pageSize = 0 by unfold pageSize at *; omega) (by decide) (by omega) (by omega)
  obtain ⟨err, res', s'', hrun', hiff⟩ := vmSlice_conserves_iff hvalid (hlives ▸ mem_singleton_self _)
    (show st.alct.Supply (.ok 0x1060) from hfresh₁) (show st.alct.Supply (.ok 0x1090) from hfresh₂)
    (by simp) (show 0x1000 < addressSpace by decide) (fun herr ↦ by rw [hrun] at herr; cases herr)
  obtain ⟨rfl, rfl, rfl⟩ : err = .ok ∧ res' = some res ∧ s'' = s' := by simpa [hrun, eq_comm] using hrun'
  exact ⟨st, res, s'', hreach, hrun, hiff.mpr ⟨fun _ ↦ rfl, fun _ ↦ rfl⟩⟩

/-- A slice of the middle page without a descriptor for the first cut: the whole region is lost. -/
theorem run_slice_loses : ∃ (st : VmState) (s' : VpageAlct), system.Run Roundable st ∧
    st.alct.vmSlice (.error .nomem) (.error .nomem) 0x1030 (st.alct.addr 0x1030 + 0x1000) 0x1000 =
      .ok (.nomem, none, s') ∧
    st.alct.lives = [0x1030] ∧ s'.lives = [] ∧
    ¬ Conserves st.alct s' 0x1030 (st.alct.addr 0x1030 + 0x1000) 0x1000 .nomem none := by
  obtain ⟨st, free, live, hreach, hvalid, hlives, hsize, htype, hunit, hmem, -, -⟩ := exampleRegion_valid
  have hbound := hvalid.regions.bound _ (mem_append_right _ hmem)
  obtain ⟨s', hcut, hlost⟩ := vmSliceAt_loses hvalid hmem
    (show st.alct.addr 0x1030 < st.alct.addr 0x1030 + 0x1000 by omega) (by omega)
    (by unfold pageSize at *; omega) .nomem
  have hguard : st.alct.addr 0x1030 + 0x1000 ≥ st.alct.addr 0x1030 ∧ wordAdd (st.alct.addr 0x1030 + 0x1000) 0x1000 ≤
        wordAdd (st.alct.addr 0x1030) (st.alct.size 0x1030) := by
    rw [wordAdd_of_lt hbound, wordAdd_of_lt (by omega)]
    omega
  have haligned : (st.alct.addr 0x1030 + 0x1000) % pageSize = 0 ∧ 0x1000 % pageSize = 0 := by
    unfold pageSize at *
    omega
  refine ⟨st, s', hreach, ?_, hlives, ?_, fun hcons ↦ ?_⟩
  · grind [vmSlice_of_front, sliceFront]
  · rw [hlost.trees.lives_eq, ← hvalid.trees.lives_eq, hlives, erase_cons_head]
  · refine hlost.not_typeAt hvalid hmem .umNopm ((hcons.typeAt _ _).mpr ?_)
    rw [hvalid.trees.lives_eq]
    exact ⟨0x1030, hmem, ⟨Nat.le_refl _, by omega⟩, htype⟩

end VmState

end Lanthorn
