import Lanthorn.Memory.PageFault

/-!
# What a process finds in a new page

Two runs of `um_page_fault_hdl`, from states that are the same but for the contents of physical pages that do
not belong to the process. Neither `page_alloc` nor `ptb_map` writes to the page that is mapped, so that the
process finds there what the page held before: the two runs show it the same bytes exactly if the page that
`page_alloc` returns has the same bytes in both states (`Paged.fault_sameReads_iff`).
-/

namespace Lanthorn

open Library PhysMem

namespace PhysMem

def pageBytes (m : PhysMem) (page : ℕ) : List ℕ := (List.range pageSize).map fun i ↦ m.byte (page + i)

theorem pageBytes_copy {m m' : PhysMem} {page page' : ℕ} (hunit : page % pageSize = 0)
    (hunit' : page' % pageSize = 0) (h : ∀ i < pageSize, m'.word (page' + i) = m.word (page + i)) :
    m'.pageBytes page' = m.pageBytes page := by
  refine List.map_congr_left fun i hi ↦ ?_
  rw [List.mem_range] at hi
  have hword := h (i / 4 * 4) (by omega)
  grind [pageSize, byte]

theorem pageBytes_congr {m m' : PhysMem} {page : ℕ} (hunit : page % pageSize = 0)
    (h : ∀ x, page ≤ x → x < page + pageSize → m'.word x = m.word x) : m'.pageBytes page = m.pageBytes page :=
  pageBytes_copy hunit hunit fun _ hi ↦ h _ (Nat.le_add_right _ _) (Nat.add_lt_add_left hi _)

theorem byte_eq_of_pageBytes {m m' : PhysMem} {page i : ℕ} (h : m.pageBytes page = m'.pageBytes page)
    (hi : i < pageSize) : m.byte (page + i) = m'.byte (page + i) := by
  rw [pageBytes, pageBytes, List.map_inj_left] at h
  exact h i (List.mem_range.mpr hi)

end PhysMem

namespace Ptb

/-- A page of the process: its directory, one of its tables, or a page that is mapped below the kernel. -/
def Owns (s : Ptb) (page : ℕ) : Prop :=
  page = s.pde ∨ ∃ va < kernBase, s.tables.dir (slotOf va) = some (page / pageSize) ∨
    s.v2p va = .ok (.ok, some page)

/-- The two memories differ only in pages that the process does not own. -/
structure SameOwned (s t : Ptb) : Prop where
  pde : t.pde = s.pde
  lock : t.lock = s.lock
  word : ∀ page x, page % pageSize = 0 → s.Owns page → page ≤ x → x < page + pageSize → t.mem.word x = s.mem.word x

section Same

variable {s t : Ptb} {va : ℕ}

theorem pageAddr_of_v2p (h : s.Inv) (hplain : s.Plain va) {page : ℕ} (hv2p : s.v2p va = .ok (.ok, some page)) :
    PageAddr page := by
  rw [v2p_eq h hplain] at hv2p
  cases hdir : s.tables.dir (slotOf va) with
  | none =>
    rw [entryAt, TwoLevel.lookup_of_dir_none hdir] at hv2p
    cases hv2p
  | some f =>
    have hlookup : s.entryAt va = entryOf (s.mem.word (f * pageSize + placeOf va * 4)) :=
      lookup_word h.directory hdir
    have hlt := s.mem.word_lt (f * pageSize + placeOf va * 4)
    rw [hlookup, entryOf] at hv2p
    split_ifs at hv2p
    · cases hv2p
    · obtain rfl := Option.some_inj.mp (ok_pair_inj hv2p).2
      rw [pxeAddr_eq hlt]
      unfold PageAddr pageSize addressSpace at *
      omega

theorem Owns.pageAddr {page : ℕ} (h : s.Owns page) (hinv : s.Inv) (hplain : ∀ va < kernBase, s.Plain va)
    (hunit : page % pageSize = 0) : PageAddr page := by
  obtain rfl | ⟨va, hva, hdir | hv2p⟩ := h
  · exact ⟨hunit, hinv.directory.bound⟩
  · obtain ⟨-, hf⟩ := tableOf_eq_some hdir
    have hlt := s.mem.word_lt (s.pde + slotOf va * 4)
    refine ⟨hunit, ?_⟩
    unfold pageSize addressSpace at *
    omega
  · exact pageAddr_of_v2p hinv (hplain va hva) hv2p

section

variable (h : s.SameOwned t) (hinv : s.Inv)
include h hinv

theorem SameOwned.directory_word (i : Fin 1024) : t.mem.word (t.pde + i * 4) = s.mem.word (s.pde + i * 4) := by
  have hi := i.isLt
  rw [h.pde]
  exact h.word s.pde _ hinv.directory.unit (.inl rfl) (by omega) (by simp only [pageSize]; omega)

theorem SameOwned.dir (i : Fin 1024) : t.tables.dir i = s.tables.dir i :=
  congrArg tableOf (h.directory_word hinv i)

theorem SameOwned.inv : t.Inv := by
  refine ⟨h.lock.trans hinv.unlocked, h.pde ▸ hinv.directory.unit, h.pde ▸ hinv.directory.bound, ?_, ?_⟩
  · intro i i' f hf hf'
    exact hinv.directory.exclusive i i' f ((h.dir hinv i).symm.trans hf) ((h.dir hinv i').symm.trans hf')
  · intro i f hf
    rw [h.pde]
    exact hinv.directory.apart i f ((h.dir hinv i).symm.trans hf)

theorem SameOwned.plain (hplain : s.Plain va) : t.Plain va := by
  rw [Plain, PhysMem.Plain, h.directory_word hinv]
  exact hplain

theorem SameOwned.unused {page : ℕ} (hpage : s.Unused page) : t.Unused page := by
  refine ⟨hpage.1, h.pde ▸ hpage.2.1, fun i ↦ ?_⟩
  rw [h.dir hinv]
  exact hpage.2.2 i

theorem SameOwned.hasTable : t.HasTable va ↔ s.HasTable va := by rw [HasTable, HasTable, h.dir hinv]

theorem SameOwned.entryAt (hva : va < kernBase) : t.entryAt va = s.entryAt va := by
  cases hdir : s.tables.dir (slotOf va) with
  | none => grind [Ptb.entryAt, TwoLevel.lookup_of_dir_none, h.dir]
  | some f =>
    have hplace := (placeOf va).isLt
    have hdiv : f * pageSize / pageSize = f := Nat.mul_div_cancel _ (by decide)
    have hword : t.mem.word (f * pageSize + placeOf va * 4) = s.mem.word (f * pageSize + placeOf va * 4) :=
      h.word (f * pageSize) _ (Nat.mul_mod_left _ _) (.inr ⟨va, hva, .inl (hdiv.symm ▸ hdir)⟩) (by omega)
        (by simp only [pageSize]; omega)
    rw [Ptb.entryAt, Ptb.entryAt, TwoLevel.lookup_of_dir hdir, TwoLevel.lookup_of_dir ((h.dir hinv _).trans hdir)]
    simp only [tables, PhysMem.tables, h.pde, hword]

theorem SameOwned.ptbMap {table : Option ℕ} {page : ℕ} (hva : PageAddr va) (hlt : va < kernBase)
    (hplain : s.Plain va) (hpage : s.Unused page) (htable : ∀ p, table = some p → s.Unused p ∧ p ≠ page)
    {s' : Ptb} (hrun : s.ptbMap table va page 1 1 = .ok (.ok, s')) :
    (s'.v2p va = .ok (.ok, some page) ∧ s'.mem.pageBytes page = s.mem.pageBytes page) ∧
      ∃ t', t.ptbMap table va page 1 1 = .ok (.ok, t') ∧ t'.v2p va = .ok (.ok, some page) ∧
        t'.mem.pageBytes page = t.mem.pageBytes page := by
  have hne : table ≠ some page := fun heq ↦ (htable page heq).2 rfl
  -- what a map that is served leaves in the page
  have hserved : ∀ {u u' : Ptb}, u.Plain va → u.Unused page → (∀ p, u.Unused p → table ≠ some p → u'.Unused p) →
      Entered u u' va (some (pxe page 1 1)) →
      u'.v2p va = .ok (.ok, some page) ∧ u'.mem.pageBytes page = u.mem.pageBytes page := by
    intro u u' hplain hpage hkeep hentered
    exact ⟨hentered.v2p_self hpage.1 hplain, pageBytes_congr hpage.1.1 fun x hx hx' ↦
      hentered.kept page x (hkeep page hpage hne) hx hx'⟩
  obtain ⟨-, -, hrun'⟩ | ⟨-, -, hrun'⟩ | ⟨hroom, hnone, s₁, hrun', hentered, hkeep⟩ :=
    ptbMap_cases hinv hva hpage.1 hplain (fun p hp ↦ (htable p hp).1) 1 1
  · cases hrun.symm.trans hrun'
  · cases hrun.symm.trans hrun'
  obtain ⟨-, rfl⟩ := ok_pair_inj (hrun.symm.trans hrun')
  refine ⟨hserved hplain hpage hkeep hentered, ?_⟩
  have hpage' := h.unused hinv hpage
  have hplain' := h.plain hinv hplain
  obtain ⟨htable', hno, -⟩ | ⟨-, hsome, -⟩ | ⟨-, -, t', hrun'', hentered', hkeep'⟩ :=
    ptbMap_cases (h.inv hinv) hva hpage.1 hplain' (fun p hp ↦ h.unused hinv (htable p hp).1) 1 1
  · rw [h.hasTable hinv] at htable'
    simp [htable', hno] at hroom
  · simp [h.entryAt hinv hlt, hnone] at hsome
  · exact ⟨t', hrun'', hserved hplain' hpage' hkeep' hentered'⟩

end

end Same

end Ptb

namespace Paged

/-- The bytes of the page that is mapped at an address, as the process reads them. -/
def readPage (s : Paged) (va : ℕ) : Result (Option (List ℕ)) := do
  let (_, pa) ← s.ptb.v2p va
  return pa.map s.ptb.mem.pageBytes

/-- The states differ only in the contents of pages that the process does not own. -/
structure SameOwned (s t : Paged) : Prop where
  um : t.um = s.um
  mapPage : t.mapPage = s.mapPage
  ptb : s.ptb.SameOwned t.ptb

def NewPage (s : Paged) (errva : ℕ) : Prop :=
  argsS ≤ errva ∧ errva < argsE ∨
    ∃ vp, s.um.vpAlct.vmSearchAddr errva = .ok (some vp) ∧ s.um.vpAlct.type vp = .umNopm

/-- The page from `page_alloc`, which is no page of the tables, and is not returned again for a table. The errors
of `kmalloc` are not `E_OK`. -/
structure Allocates (s : Paged) (a : FaultAllocs) (page : ℕ) : Prop where
  served : a.page = some page
  unused : s.ptb.Unused page
  table : ∀ p, a.table = some p → s.ptb.Unused p ∧ p ≠ page
  error : a.new₁ ≠ .error .ok

variable {s s' t : Paged} {a : FaultAllocs} {errva page : ℕ}

def ShowsPage (s s' : Paged) (va page : ℕ) : Prop :=
  s'.ptb.v2p va = .ok (.ok, some page) ∧ s'.ptb.mem.pageBytes page = s.ptb.mem.pageBytes page

theorem ShowsPage.readPage {va : ℕ} (h : ShowsPage s s' va page) :
    s'.readPage va = .ok (some (s.ptb.mem.pageBytes page)) := by simp [Paged.readPage, h.1, h.2]

theorem some_of_sliceFront {v v' : VpageAlct} {new : Except Errno ℕ} {vp addr : ℕ} {res : Option ℕ}
    (hnew : new ≠ .error .ok) (h : v.sliceFront new vp addr = .ok (.ok, res, v')) : res ≠ none := by
  rintro rfl
  unfold VpageAlct.sliceFront at h
  split_ifs at h
  · unfold VpageAlct.vmSliceAt at h
    obtain ⟨_, -, h⟩ := bind_eq_ok.mp h
    obtain ⟨t, -, h⟩ := bind_eq_ok.mp h
    cases new with
    | error err =>
      cases h
      exact hnew rfl
    | ok vpr =>
      obtain ⟨⟨err₁, v₁⟩, -, h⟩ := bind_eq_ok.mp h
      obtain ⟨_, -, h⟩ := bind_eq_ok.mp h
      obtain ⟨⟨err₂, v₂⟩, -, h⟩ := bind_eq_ok.mp h
      obtain ⟨_, -, h⟩ := bind_eq_ok.mp h
      simp at h
  · simp at h

theorem vmSlice_returns {v v' : VpageAlct} {new₁ new₂ : Except Errno ℕ} {vp addr size : ℕ} {res : Option ℕ}
    (hnew : new₁ ≠ .error .ok) (h : v.vmSlice new₁ new₂ vp addr size = .ok (.ok, res, v')) :
    ∃ r, res = some r ∧ v'.addr r = addr := by
  unfold VpageAlct.vmSlice at h
  obtain ⟨_, -, h⟩ := bind_eq_ok.mp h
  obtain ⟨_, -, h⟩ := bind_eq_ok.mp h
  obtain ⟨_, -, h⟩ := bind_eq_ok.mp h
  obtain ⟨⟨err, front, v₁⟩, hfront, h⟩ := bind_eq_ok.mp h
  dsimp only at h
  split at h
  · rename_i vpage
    obtain ⟨⟨err, back, v₂⟩, -, h⟩ := bind_eq_ok.mp h
    dsimp only at h
    split_ifs at h with herr
    · cases h
      exact absurd rfl herr
    · obtain ⟨_, hextent, h⟩ := bind_eq_ok.mp h
      obtain ⟨-, rfl, rfl⟩ := ok_triple_inj h
      exact ⟨vpage, rfl, (assert_eq_ok.mp hextent).1⟩
  · rename_i hnot
    obtain ⟨rfl, hres⟩ := ok_pair_inj h
    obtain ⟨r, rfl⟩ := Option.ne_none_iff_exists'.mp (some_of_sliceFront hnew hfront)
    exact absurd rfl (hnot r rfl)

section

variable (h : s.SameOwned t) (hinv : s.ptb.Inv) (hplain : ∀ va < kernBase, s.ptb.Plain va)
  (halloc : s.Allocates a page)
include h hinv hplain halloc

theorem faultArgs_shows (hrun : s.faultArgs a = .ok (.ok, s')) :
    ShowsPage s s' argsS page ∧ ∃ t', t.faultArgs a = .ok (.ok, t') ∧ ShowsPage t t' argsS page := by
  rw [faultArgs, halloc.served] at hrun
  obtain ⟨⟨err, ptb⟩, hmap, hret⟩ := bind_eq_ok.mp hrun
  cases hret
  obtain ⟨hshows, ptb', hmap', hshows'⟩ := h.ptb.ptbMap hinv (show Ptb.PageAddr argsS by decide)
    (show argsS < kernBase by decide) (hplain argsS (by decide)) halloc.unused halloc.table hmap
  refine ⟨hshows, { t with ptb := ptb' }, ?_, hshows'⟩
  rw [faultArgs, halloc.served]
  exact bind_eq_ok.mpr ⟨_, hmap', rfl⟩

theorem faultNopm_shows (hlt : errva < kernBase) {vp : ℕ} (hrun : s.faultNopm a vp errva = .ok (.ok, s')) :
    ShowsPage s s' (roundDown errva pageSize) page ∧
      ∃ t', t.faultNopm a vp errva = .ok (.ok, t') ∧ ShowsPage t t' (roundDown errva pageSize) page := by
  have hbase : Ptb.PageAddr (roundDown errva pageSize) ∧ roundDown errva pageSize < kernBase := by
    simp only [Ptb.PageAddr, roundDown, pageSize, kernBase, addressSpace] at *
    omega
  obtain ⟨⟨err, res, alct⟩, hslice, hrest⟩ := bind_eq_ok.mp hrun
  obtain rfl : err = .ok := by cases err <;> cases res <;> first | rfl | cases hrest
  obtain ⟨res, rfl, haddr⟩ := vmSlice_returns halloc.error hslice
  dsimp only at hrest
  rw [halloc.served] at hrest
  obtain ⟨⟨err, ptb⟩, hmap, hret⟩ := bind_eq_ok.mp hrest
  dsimp only at hret
  split_ifs at hret with herr
  · cases hret
    exact absurd rfl herr
  obtain rfl : err = .ok := not_not.mp herr
  cases hret
  have hmap' : s.ptb.ptbMap a.table (roundDown errva pageSize) page 1 1 = .ok (.ok, ptb) := by
    rw [← haddr]
    exact hmap
  obtain ⟨hshows, ptb', hrun', hshows'⟩ :=
    h.ptb.ptbMap hinv hbase.1 hbase.2 (hplain _ hbase.2) halloc.unused halloc.table hmap'
  refine ⟨hshows, ({ t.setVpAlct alct with ptb := ptb' } : Paged).setNormal res page, ?_, hshows'⟩
  rw [← haddr] at hrun'
  rw [← h.um] at hslice
  refine bind_eq_ok.mpr ⟨_, hslice, ?_⟩
  dsimp only
  rw [halloc.served]
  exact bind_eq_ok.mpr ⟨_, hrun', rfl⟩

end

/-- A fault into a new page that is served in one of two states that are the same for the process is served in
the other, and shows the process the same bytes exactly if the page from `page_alloc` held the same bytes in both
states. -/
theorem fault_sameReads_iff (h : s.SameOwned t) (hinv : s.ptb.Inv) (hplain : ∀ va < kernBase, s.ptb.Plain va)
    (halloc : s.Allocates a page) (hlt : errva < kernBase) (hnew : s.NewPage errva)
    (hrun : s.umPageFaultHdl a errva = .ok (.ok, s')) : ∃ t', t.umPageFaultHdl a errva = .ok (.ok, t') ∧
      (s'.readPage (roundDown errva pageSize) = t'.readPage (roundDown errva pageSize) ↔
        s.ptb.mem.pageBytes page = t.ptb.mem.pageBytes page) := by
  have hiff : ∀ {va : ℕ} {t' : Paged}, ShowsPage s s' va page → ShowsPage t t' va page →
      (s'.readPage va = t'.readPage va ↔ s.ptb.mem.pageBytes page = t.ptb.mem.pageBytes page) := by
    intro va t' hs ht
    rw [hs.readPage, ht.readPage, Except.ok.injEq, Option.some_inj]
  by_cases hargs : argsS ≤ errva ∧ errva < argsE
  · rw [umPageFaultHdl, if_pos hargs] at hrun
    obtain ⟨hshows, t', hrun', hshows'⟩ := faultArgs_shows h hinv hplain halloc hrun
    grind [roundDown, pageSize, argsS, kernBase, umPageFaultHdl]
  · obtain ⟨vp, hsearch, htype⟩ := hnew.resolve_left hargs
    rw [umPageFaultHdl, if_neg hargs] at hrun
    split_ifs at hrun with hheap
    rw [hsearch] at hrun
    simp only [htype, ok_bind] at hrun
    obtain ⟨hshows, t', hrun', hshows'⟩ := faultNopm_shows h hinv hplain halloc hlt hrun
    grind [umPageFaultHdl, h.um, ok_bind]

/-! ### A process without pages -/

theorem sameOwned_set {ptb : Ptb} (hinit : Ptb.system.init ptb) (um : Um) (hpage : ptb.Unused page) (w : ℕ) :
    SameOwned ⟨um, fun _ ↦ 0, ptb⟩ ⟨um, fun _ ↦ 0, { ptb with mem := ptb.mem.set page w }⟩ := by
  obtain ⟨hinv, huser⟩ := Ptb.init_spec hinit
  refine ⟨rfl, rfl, rfl, rfl, fun page' x hunit howns hle hlt ↦ word_set_of_ne ?_ w⟩
  rintro rfl
  obtain rfl : page' = x := by
    have := hpage.1.1
    simp only [pageSize] at *
    omega
  obtain hpde | ⟨va, hva, hdir | hv2p⟩ := howns
  · exact hpage.2.1 hpde
  · exact hpage.2.2 _ hdir
  · obtain ⟨hplain, hnone⟩ := huser va hva
    rw [(Ptb.v2p_eq_notfound hinv hplain).mpr (TwoLevel.lookup_of_dir_none hnone _)] at hv2p
    cases hv2p

/-- What the allocators return to the first fault of a process in the page of its arguments. -/
def exampleAllocs : FaultAllocs := ⟨.error .nomem, .error .nomem, some 0x5000, some 0x4000⟩

theorem exampleFault : ∃ (s s' : Paged), Ptb.system.init s.ptb ∧ (∀ va < kernBase, s.ptb.Plain va) ∧
    s.mapPage = (fun _ ↦ 0) ∧ s.ptb.Unused 0x4000 ∧ s.Allocates exampleAllocs 0x5000 ∧
    s.umPageFaultHdl exampleAllocs argsS = .ok (.ok, s') := by
  obtain ⟨ptb, hinit, htable, hpage⟩ := Ptb.exampleSetup
  obtain ⟨hinv, huser⟩ := Ptb.init_spec hinit
  obtain ⟨hplain, hdir⟩ := huser argsS (by decide)
  obtain ⟨-, hnone, -⟩ | ⟨-, hsome, -⟩ | ⟨-, -, ptb', hmap, -⟩ := Ptb.ptbMap_cases hinv
    (show Ptb.PageAddr argsS by decide) hpage.1 hplain
    (fun t (ht : some 0x4000 = some t) ↦ Option.some_inj.mp ht ▸ htable) 1 1
  · cases hnone
  · simp [Ptb.entryAt, TwoLevel.lookup_of_dir_none hdir] at hsome
  refine ⟨⟨UmState.exampleInit.um, fun _ ↦ 0, ptb⟩, ⟨UmState.exampleInit.um, fun _ ↦ 0, ptb'⟩, hinit,
    fun va hva ↦ (huser va hva).1, rfl, htable, ⟨rfl, hpage, fun p hp ↦ ?_, by simp [exampleAllocs]⟩, ?_⟩
  · obtain rfl : 0x4000 = p := Option.some_inj.mp hp
    exact ⟨htable, by decide⟩
  · rw [umPageFaultHdl, if_pos (by decide)]
    exact bind_eq_ok.mpr ⟨_, hmap, rfl⟩

/-- States that differ in the page that becomes a table. -/
theorem fault_sameReads_example : ∃ s t s' t' : Paged, s.SameOwned t ∧
    t.ptb.mem.word 0x4000 ≠ s.ptb.mem.word 0x4000 ∧ s.umPageFaultHdl exampleAllocs argsS = .ok (.ok, s') ∧
    t.umPageFaultHdl exampleAllocs argsS = .ok (.ok, t') ∧ s'.readPage argsS = t'.readPage argsS := by
  obtain ⟨⟨um, mapPage, ptb⟩, s', hinit, hplain, rfl, htable, halloc, hrun⟩ := exampleFault
  have hsame := sameOwned_set hinit um htable (ptb.mem.word 0x4000 + 1)
  obtain ⟨t', hrun', hiff⟩ := fault_sameReads_iff hsame (Ptb.init_spec hinit).1 hplain halloc
    (show argsS < kernBase by decide) (.inl (by decide)) hrun
  refine ⟨_, _, s', t', hsame, ?_, hrun, hrun', hiff.mpr (pageBytes_congr (by decide) fun x hx hx' ↦ ?_)⟩
  · grind [word_set_self, addressSpace]
  · exact (word_set_of_ne (by simp only [pageSize] at hx'; omega) _).symm

/-- States that differ in the page that becomes the page of the arguments: the process reads what was left
there. -/
theorem fault_showsOldData : ∃ s t s' t' : Paged, s.SameOwned t ∧
    s.umPageFaultHdl exampleAllocs argsS = .ok (.ok, s') ∧
    t.umPageFaultHdl exampleAllocs argsS = .ok (.ok, t') ∧ s'.readPage argsS ≠ t'.readPage argsS := by
  obtain ⟨⟨um, mapPage, ptb⟩, s', hinit, hplain, rfl, -, halloc, hrun⟩ := exampleFault
  have hsame := sameOwned_set hinit um halloc.unused ((ptb.mem.word 0x5000 + 1) % 256)
  have hargs : argsS ≤ argsS ∧ argsS < argsE := by decide
  rw [umPageFaultHdl, if_pos hargs] at hrun
  obtain ⟨hshows, t', hrun', hshows'⟩ :=
    faultArgs_shows hsame (Ptb.init_spec hinit).1 hplain halloc hrun
  refine ⟨_, _, s', t', hsame, by rwa [umPageFaultHdl, if_pos hargs], by rwa [umPageFaultHdl, if_pos hargs], ?_⟩
  rw [hshows.readPage, hshows'.readPage]
  intro heq
  -- the first bytes of the two pages differ by one
  have hbyte := byte_eq_of_pageBytes (Option.some_inj.mp (Except.ok.inj heq)) (show 0 < pageSize by decide)
  have hword : (ptb.mem.set 0x5000 ((ptb.mem.word 0x5000 + 1) % 256)).word 0x5000 =
      (ptb.mem.word 0x5000 + 1) % 256 % addressSpace := word_set_self ..
  grind [byte, addressSpace]

end Paged

end Lanthorn
