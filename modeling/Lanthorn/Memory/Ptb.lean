import Lanthorn.Library.Run
import Lanthorn.Memory.Mmu

/-!
# `kernel/memory/ptb.c`

A page directory under a spin lock, and runs of `ptb_map` and `mmu_unmap` on a directory that
`ptb_setup` has built. What `page_alloc` returned is an argument of a call, a page or nothing for
`E_NOMEM`.

`ptb_map` returns without giving the lock back when it finds no page for a table, and the next `ptb_map`
spins for ever (`Ptb.reachable_endless_map`). In runs in which every call finds the pages it needs, each
call has the effect on the translations that it should have (`Ptb.served_run_contract`).
-/

namespace Lanthorn

open Library PhysMem

/-- `ptb_t` with the memory of its directory and tables. -/
structure Ptb where
  mem : PhysMem
  pde : ℕ
  /-- The spin lock is held. -/
  lock : Bool

namespace Ptb

/-- `spin_lock`: a lock that is held and never given back is waited for without end. -/
def spinLock (s : Ptb) : Result Ptb := if s.lock then throw .endless else return { s with lock := true }

/-- `spin_unlock`. -/
def spinUnlock (s : Ptb) : Ptb := { s with lock := false }

/-- The end of `ptb_map`, with a table in the directory. -/
def mapUnlock (s : Ptb) (va pa usr wtb : ℕ) : Result (Errno × Ptb) := do
  let (err, m) ← s.mem.mmuMap s.pde va pa usr wtb
  return (err, { s with mem := m }.spinUnlock)

/-- `ptb_map`. -/
def ptbMap (s : Ptb) (page : Option ℕ) (va pa usr wtb : ℕ) : Result (Errno × Ptb) := do
  assert (va % pageSize = 0 ∧ pa % pageSize = 0)
  let s ← s.spinLock
  let (err, _) ← s.mem.mmuPteGet s.pde va
  if err = .notfound then
    match page with
    -- the lock is not given back
    | none => return (.nomem, s)
    | some ptep => do
      let m ← s.mem.mmuPpClean ptep
      let m ← m.mmuPteSet s.pde va ptep usr 1
      { s with mem := m }.mapUnlock va pa usr wtb
  else s.mapUnlock va pa usr wtb

/-- `ptb_unmap`. -/
def ptbUnmap (s : Ptb) (va : ℕ) : Result (Errno × Ptb) := do
  assert (va % pageSize = 0)
  let s ← s.spinLock
  let (_, m) ← s.mem.mmuUnmap s.pde va
  let s := { s with mem := m }
  let (err, _) ← s.mem.mmuPteGet s.pde va
  return (err, s.spinUnlock)

/-- `ptb_setup`, with the directory `kpde` of `proc_0`. -/
def ptbSetup (m : PhysMem) (kpde : ℕ) (page : Option ℕ) : Result (Errno × Option Ptb) :=
  match page with
  | none => return (.nomem, none)
  | some pde => do
    let m ← m.mmuPpClean pde
    let m ← m.mmuSyncKernSpace kpde pde kernBase (addressSpace - kernBase)
    return (.ok, some ⟨m, pde, false⟩)

/-! ### What the calls do to the tables -/

def PageAddr (a : ℕ) : Prop := a % pageSize = 0 ∧ a < addressSpace

instance (a : ℕ) : Decidable (PageAddr a) := inferInstanceAs (Decidable (_ ∧ _))

def tables (s : Ptb) : TwoLevel (Fin 1024) ℕ (Fin 1024) ℕ := s.mem.tables s.pde

def entryAt (s : Ptb) (va : ℕ) : Option ℕ := s.tables.lookup (slotOf va) (placeOf va)

def HasTable (s : Ptb) (va : ℕ) : Prop := (s.tables.dir (slotOf va)).isSome

def Unused (s : Ptb) (p : ℕ) : Prop :=
  PageAddr p ∧ p ≠ s.pde ∧ ∀ i, s.tables.dir i ≠ some (p / pageSize)

def Plain (s : Ptb) (va : ℕ) : Prop := s.mem.Plain s.pde va

/-- The lock is free and the directory has its own tables. -/
structure Inv (s : Ptb) : Prop where
  unlocked : s.lock = false
  directory : s.mem.Directory s.pde

section Calls

variable {s : Ptb} {va pa : ℕ}

theorem entryAt_of_not_hasTable (htable : ¬ s.HasTable va) : s.entryAt va = none := by
  refine TwoLevel.lookup_of_dir_none ?_ _
  simpa [HasTable] using htable

theorem spinLock_of_inv (h : s.Inv) : s.spinLock = .ok { s with lock := true } := by simp [spinLock, h.unlocked]

theorem mmuPteGet_eq (h : s.Inv) (hplain : s.Plain va) : ∃ pte, s.mem.mmuPteGet s.pde va =
      .ok (if (s.tables.dir (slotOf va)).isSome then .ok else .notfound, pte) := by
  rw [mmuPteGet, assert_of_true h.directory.unit, get_directory h.directory.unit h.directory.bound]
  cases hdir : s.tables.dir (slotOf va) with
  | none => exact ⟨none, by simp [hplain.absent hdir]⟩
  | some f =>
    have hpresent := (directory_word h.directory hdir).1
    exact ⟨_, by simp [hpresent]; rfl⟩

/-- The invariant, the directory words and the entries after an entry has been written. Pages other than the
directory and its tables keep their contents. -/
structure Entered (s s' : Ptb) (va : ℕ) (entry : Option ℕ) : Prop where
  inv : s'.Inv
  pde : s'.pde = s.pde
  plain : ∀ va', s.Plain va' → s'.Plain va'
  present : ∀ i : Fin 1024, s.mem.word (s.pde + i * 4) &&& ptP ≠ 0 →
    s'.mem.word (s.pde + i * 4) = s.mem.word (s.pde + i * 4)
  lookup : ∀ i j, s'.tables.lookup i j = if i = slotOf va ∧ j = placeOf va then entry else s.tables.lookup i j
  kept : ∀ p x, s'.Unused p → p ≤ x → x < p + pageSize → s'.mem.word x = s.mem.word x

theorem Entered.dir {s' : Ptb} {entry : Option ℕ} (hentered : Entered s s' va entry) {i : Fin 1024} {f : ℕ}
    (hdir : s.tables.dir i = some f) : s'.tables.dir i = some f := by
  grind [hentered.present, tableOf_eq_some, tables, PhysMem.tables, hentered.pde]

theorem entered_set (h : s.Inv) {f : ℕ} (hdir : s.tables.dir (slotOf va) = some f) (w : ℕ) :
    Entered s { s with mem := s.mem.set (f * pageSize + placeOf va * 4) w } va
      (entryOf (w % addressSpace)) := by
  have hunit := h.directory.unit
  have hf := h.directory.apart _ f hdir
  have htables : (s.mem.set (f * pageSize + placeOf va * 4) w).tables s.pde =
      s.tables.setEntry f (placeOf va) (entryOf (w % addressSpace)) := tables_set hunit hf _ w
  have hplace := (placeOf va).isLt
  refine ⟨⟨h.unlocked, hunit, h.directory.bound, ?_, ?_⟩, rfl, fun va' ↦ plain_set hunit hf _ w, ?_, ?_, ?_⟩
  · rw [htables]
    exact h.directory.exclusive
  · rw [htables]
    exact h.directory.apart
  · grind [word_set_of_ne, pageSize]
  · grind [tables, TwoLevel.lookup_setEntry, h.directory.exclusive]
  · intro p x hp hx hx'
    have hp_ne : p ≠ f * pageSize := by
      rintro rfl
      refine hp.2.2 (slotOf va) ?_
      rw [tables, htables, Nat.mul_div_cancel _ (by decide)]
      exact hdir
    have hp_unit := hp.1.1
    refine word_set_of_ne ?_ w
    unfold pageSize at *
    omega

theorem mapUnlock_entered (h : s.Inv) (hva : PageAddr va) (hpa : PageAddr pa) {f : ℕ}
    (hdir : s.tables.dir (slotOf va) = some f) (hnone : s.entryAt va = none) (usr wtb : ℕ) :
    ∃ s', ({ s with lock := true } : Ptb).mapUnlock va pa usr wtb = .ok (.ok, s') ∧
      Entered s s' va (some (pxe pa usr wtb)) ∧ ∀ p, s.Unused p → s'.Unused p := by
  have hentry : entryOf (pxe pa usr wtb % addressSpace) = some (pxe pa usr wtb) := by
    have hlt : pxe pa usr wtb < addressSpace := by
      have hattrs := attrs_lt usr wtb
      obtain ⟨hunit, hlt⟩ := hpa
      rw [pxe_eq hunit]
      unfold pageSize addressSpace at *
      omega
    rw [Nat.mod_eq_of_lt hlt, entryOf, pxe_and hpa.1 (by decide), if_neg (attrs_and_ptP usr wtb)]
  refine ⟨{ s with mem := s.mem.set (f * pageSize + placeOf va * 4) (pxe pa usr wtb) }, ?_, ?_,
    fun p hp ↦ ⟨hp.1, hp.2.1, fun i ↦ ?_⟩⟩
  · rw [mapUnlock, mmuMap_eq h.directory hva.1 hpa.1 hdir]
    simp only [entryAt, tables] at hnone
    simp [hnone, spinUnlock, h.unlocked]
  · rw [← hentry]
    exact entered_set h hdir _
  · rw [tables, tables_set h.directory.unit (h.directory.apart _ f hdir)]
    exact hp.2.2 i

theorem entered_addTable (h : s.Inv) {p : ℕ} (hp : s.Unused p) (hplain : s.Plain va)
    (hnone : s.tables.dir (slotOf va) = none) (usr : ℕ) : ∃ m, s.mem.mmuPpClean p = .ok (s.mem.clean p) ∧
      (s.mem.clean p).mmuPteSet s.pde va p usr 1 = .ok m ∧ ({ s with mem := m } : Ptb).Inv ∧
      (∀ va', s.Plain va' → ({ s with mem := m } : Ptb).Plain va') ∧
      ({ s with mem := m } : Ptb).tables = s.tables.addTable (slotOf va) (p / pageSize) ∧
      (∀ i : Fin 1024, s.mem.word (s.pde + i * 4) &&& ptP ≠ 0 →
        m.word (s.pde + i * 4) = s.mem.word (s.pde + i * 4)) ∧
      ∀ q x, PageAddr q → q ≠ p → q ≠ s.pde → q ≤ x → x < q + pageSize → m.word x = s.mem.word x := by
  obtain ⟨⟨hunit, hlt⟩, hne, hfresh⟩ := hp
  have hdirectory := h.directory
  have hpage : p / pageSize * pageSize = p := Nat.div_mul_cancel (Nat.dvd_of_mod_eq_zero hunit)
  have hpage_ne : p / pageSize * pageSize ≠ s.pde := by rwa [hpage]
  have hword : pxe p usr 1 % addressSpace = pxe p usr 1 := by grind [attrs_lt, pxe_eq, pageSize, addressSpace]
  have htable : tableOf (pxe p usr 1 % addressSpace) = some (p / pageSize) := by
    have hattrs := attrs_lt usr 1
    rw [hword, tableOf, pxe_and hunit (by decide), pxe_and hunit (by decide)]
    simp only [attrs_and_ptP, attrs_and_pdePs, ne_eq, not_true_eq_false, or_self, if_false, Option.some_inj]
    rw [pxe_eq hunit]
    unfold pageSize at *
    omega
  have hsmall : pxe p usr 1 % addressSpace &&& pdePs = 0 := by
    rw [hword, pxe_and hunit (by decide), attrs_and_pdePs]
  have htables := tables_clean_set (m := s.mem) hdirectory.unit hpage_ne (slotOf va) htable
  have habsent : (s.mem.clean p).word (s.pde + slotOf va * 4) &&& ptP = 0 := by
    rw [word_clean_directory hdirectory.unit hunit hne]
    exact hplain.absent hnone
  rw [hpage] at htables
  refine ⟨_, ?_, mmuPteSet_eq hdirectory.unit hdirectory.bound habsent p usr 1, ?_, ?_, htables, ?_, ?_⟩
  · simp [mmuPpClean, hunit]
  · refine ⟨h.unlocked, hdirectory.unit, hdirectory.bound, ?_, ?_⟩
    · rw [htables]
      exact hdirectory.exclusive.addTable hfresh
    · intro i f hf
      rw [htables] at hf
      simp only [TwoLevel.addTable, Function.update_apply] at hf
      grind [hdirectory.apart]
  · intro va' hplain'
    have hkept := plain_clean_set hdirectory.unit hpage_ne (slotOf va) hsmall hplain'
    rwa [hpage] at hkept
  · intro i hpresent
    have hi : i ≠ slotOf va := by
      rintro rfl
      exact hpresent (hplain.absent hnone)
    rw [word_set_of_ne (fun heq ↦ hi (Fin.ext (by omega))), word_clean_directory hdirectory.unit hunit hne]
  · intro q x hq hqp hqd hx hx'
    have hslot := (slotOf va).isLt
    have hq_unit := hq.1
    have hpde_unit := hdirectory.unit
    rw [word_set_of_ne (by unfold pageSize at *; omega)]
    refine if_neg ?_
    unfold pageSize at *
    omega

theorem ptbMap_cases (h : s.Inv) {page : Option ℕ} (hva : PageAddr va) (hpa : PageAddr pa)
    (hplain : s.Plain va) (hpage : ∀ p, page = some p → s.Unused p) (usr wtb : ℕ) : (¬ s.HasTable va ∧ page = none ∧
        s.ptbMap page va pa usr wtb = .ok (.nomem, { s with lock := true })) ∨
      (s.HasTable va ∧ (s.entryAt va).isSome ∧ s.ptbMap page va pa usr wtb = .ok (.exist, s)) ∨
      ((s.HasTable va ∨ page.isSome) ∧ s.entryAt va = none ∧ ∃ s', s.ptbMap page va pa usr wtb = .ok (.ok, s') ∧
          Entered s s' va (some (pxe pa usr wtb)) ∧
          ∀ p, s.Unused p → page ≠ some p → s'.Unused p) := by
  obtain ⟨pte, hget⟩ := mmuPteGet_eq h hplain
  cases hdir : s.tables.dir (slotOf va) with
  | none =>
    have hentry : s.entryAt va = none := TwoLevel.lookup_of_dir_none hdir _
    simp only [hdir, Option.isSome_none, Bool.false_eq_true, if_false] at hget
    cases page with
    | none =>
      refine .inl ⟨by simp [HasTable, hdir], rfl, ?_⟩
      simp [ptbMap, hva.1, hpa.1, spinLock_of_inv h, hget]
    | some p =>
      obtain ⟨m, hclean, hset, hinv, hplain', htables, hpresent, hkept⟩ :=
        entered_addTable h (hpage p rfl) hplain hdir usr
      have hfresh := (hpage p rfl).2.2
      have hlookup : ∀ i j, ({ s with mem := m } : Ptb).tables.lookup i j = s.tables.lookup i j := by
        intro i j
        rw [htables, TwoLevel.lookup_addTable hdir hfresh]
      have hdir' : ({ s with mem := m } : Ptb).tables.dir (slotOf va) = some (p / pageSize) := by
        rw [htables]
        simp [TwoLevel.addTable]
      obtain ⟨s', hmap, hentered, hunused⟩ :=
        mapUnlock_entered hinv hva hpa hdir' ((hlookup _ _).trans hentry) usr wtb
      refine .inr (.inr ⟨.inr rfl, hentry, s', ?_, ⟨hentered.inv, hentered.pde, fun va' hva' ↦
        hentered.plain va' (hplain' va' hva'), fun i hi ↦ ?_, fun i j ↦ ?_, fun q x hq hx hx' ↦ ?_⟩,
        fun q hq hqp ↦ hunused q ⟨hq.1, hq.2.1, fun i ↦ ?_⟩⟩)
      · simp [ptbMap, hva.1, hpa.1, spinLock_of_inv h, hget, hclean, hset, hmap]
      · have hword := hpresent i hi
        rw [hentered.present i (by rw [hword]; exact hi), hword]
      · rw [hentered.lookup, hlookup]
      · have hqp : q ≠ p := by
          rintro rfl
          exact hq.2.2 _ (hentered.dir hdir')
        rw [hentered.kept q x hq hx hx', hkept q x hq.1 hqp (hentered.pde ▸ hq.2.1) hx hx']
      · rw [htables]
        simp only [TwoLevel.addTable, Function.update_apply]
        split_ifs
        · refine fun heq ↦ hqp (congrArg some ?_)
          have hp := (hpage p rfl).1.1
          have hq := hq.1.1
          have hdiv := Option.some_inj.mp heq
          unfold pageSize at hp hq hdiv
          omega
        · exact hq.2.2 i
  | some f =>
    simp only [hdir, Option.isSome_some, if_true] at hget
    have htable : s.HasTable va := by simp [HasTable, hdir]
    have hrun : s.ptbMap page va pa usr wtb = ({ s with lock := true } : Ptb).mapUnlock va pa usr wtb := by
      simp [ptbMap, hva.1, hpa.1, spinLock_of_inv h, hget]
    cases hentry : s.entryAt va with
    | none =>
      obtain ⟨s', hmap, hentered, hunused⟩ := mapUnlock_entered h hva hpa hdir hentry usr wtb
      grind
    | some w =>
      refine .inr (.inl ⟨htable, rfl, ?_⟩)
      rw [hrun, mapUnlock, mmuMap_eq h.directory hva.1 hpa.1 hdir]
      simp only [entryAt, tables] at hentry
      simp [hentry, spinUnlock, ← h.unlocked]

theorem mmuUnmap_cases (h : s.Inv) (hva : PageAddr va) (hplain : s.Plain va) :
    (s.entryAt va = none ∧ s.mem.mmuUnmap s.pde va = .ok (.notfound, s.mem)) ∨
      ((s.entryAt va).isSome ∧ ∃ m, s.mem.mmuUnmap s.pde va = .ok (.ok, m) ∧
        Entered s { s with mem := m } va none) := by
  cases hentry : s.entryAt va with
  | none => exact .inl ⟨rfl, mmuUnmap_of_unmapped h.directory hva.1 hplain hentry⟩
  | some w =>
    cases hdir : s.tables.dir (slotOf va) with
    | none => simp [entryAt, TwoLevel.lookup_of_dir_none hdir] at hentry
    | some f =>
      have hmapped : ((s.mem.tables s.pde).lookup (slotOf va) (placeOf va)).isSome :=
        Option.isSome_of_mem hentry
      exact .inr ⟨rfl, _, mmuUnmap_of_mapped h.directory hva.1 hdir hmapped, entered_set h hdir 0⟩

def Spare (m : PhysMem) (kpde p : ℕ) : Prop :=
  PageAddr p ∧ p ≠ kpde ∧ ∀ i, (m.tables kpde).dir i ≠ some (p / pageSize)

theorem ptbSetup_spec {m : PhysMem} {kpde p : ℕ} (hkern : m.Directory kpde) (hp : Spare m kpde p) :
    ∃ s, ptbSetup m kpde (some p) = .ok (.ok, some s) ∧ s.Inv ∧ s.pde = p ∧
      ∀ i : Fin 1024, s.mem.word (p + i * 4) = if i < 768 then 0 else m.word (kpde + i * 4) := by
  obtain ⟨⟨hunit, hlt⟩, hne, hspare⟩ := hp
  obtain ⟨m', hrun, hcopied, hrest⟩ := syncLoop_spec ⟨hkern.unit, hkern.bound⟩ ⟨hunit, hlt⟩
    (Nat.le_refl 256) (show 256 < addressSpace by decide) (m.clean p)
  have hkept : ∀ i : Fin 1024, (m.clean p).word (kpde + i * 4) = m.word (kpde + i * 4) :=
    word_clean_directory hkern.unit hunit hne
  have hwords : ∀ i : Fin 1024, m'.word (p + i * 4) = if i < 768 then 0 else m.word (kpde + i * 4) := by
    intro i
    have hi := i.isLt
    split_ifs with hlow
    · have hlow' : (i : ℕ) < 768 := hlow
      rw [hrest _ (by omega)]
      refine if_pos ⟨by omega, ?_⟩
      unfold pageSize
      omega
    · have hlow' : ¬ (i : ℕ) < 768 := hlow
      rw [hcopied i (by omega) hi, hkept]
  have hdir : ∀ i f, (m'.tables p).dir i = some f → (m.tables kpde).dir i = some f := by
    intro i f hf
    simp only [PhysMem.tables, hwords] at hf
    split_ifs at hf
    · cases hf
    · exact hf
  refine ⟨⟨m', p, false⟩, ?_, ⟨rfl, hunit, hlt, ?_, ?_⟩, rfl, hwords⟩
  · have hguard : kernBase ≥ kernBase ∧ ¬ (wordAdd kernBase (addressSpace - kernBase) > 0 ∧
        wordAdd kernBase (addressSpace - kernBase) < kernBase) := by decide
    have hsync : (m.clean p).mmuSyncKernSpace kpde p kernBase (addressSpace - kernBase) = .ok m' := by
      grind [mmuSyncKernSpace, assert_of_true, ok_bind]
    simp [ptbSetup, mmuPpClean, hunit, hsync]
  · exact fun i i' f hf hf' ↦ hkern.exclusive i i' f (hdir i f hf) (hdir i' f hf')
  · rintro i f hf rfl
    refine hspare i ?_
    rw [Nat.mul_div_cancel _ (by decide)]
    exact hdir i f hf

end Calls

/-! ### Runs -/

/-- `mmu_v2p` on the directory. -/
def v2p (s : Ptb) (va : ℕ) : Result (Errno × Option ℕ) := s.mem.mmuV2p s.pde va

/-- The calls on a directory, `ptb_map` with what `page_alloc` returns. -/
inductive Call
  | map (page : Option ℕ) (va pa usr wtb : ℕ)
  | unmap (va : ℕ)

/-- A call on pages, where there is no large page, with a page from `page_alloc` that is not in use. -/
def Possible (s : Ptb) : Call → Prop
  | .map page va pa _ _ => PageAddr va ∧ PageAddr pa ∧ s.Plain va ∧ ∀ p, page = some p → s.Unused p
  | .unmap va => PageAddr va ∧ s.Plain va

def call (s : Ptb) : Call → Result (Errno × Ptb)
  | .map page va pa usr wtb => s.ptbMap page va pa usr wtb
  | .unmap va => do
    let (err, m) ← s.mem.mmuUnmap s.pde va
    return (err, { s with mem := m })

/-- The calls on a directory that `ptb_setup` has built. -/
def system : System Ptb Call where
  init s := ∃ m kpde p, m.Directory kpde ∧ Spare m kpde p ∧ ptbSetup m kpde (some p) = .ok (.ok, some s)
  step s c s' := s.Possible c ∧ ∃ err, s.call c = .ok (err, s')

/-- The call does not want a page for a table that `page_alloc` does not have. -/
def Served (s : Ptb) : Call → Prop
  | .map page va _ _ _ => s.HasTable va ∨ page.isSome
  | .unmap _ => True

/-- What `ptb_map` returns and does. -/
structure Maps (s : Ptb) (page : Option ℕ) (va pa usr wtb : ℕ) (err : Errno) (s' : Ptb) : Prop where
  ok_iff : err = .ok ↔ s.v2p va = .ok (.notfound, none) ∧ (s.HasTable va ∨ page.isSome)
  mapped : err = .ok → s'.v2p va = .ok (.ok, some pa) ∧
    ∃ w, s'.entryAt va = some w ∧ (w &&& ptU ≠ 0 ↔ usr ≠ 0) ∧ (w &&& ptW ≠ 0 ↔ wtb ≠ 0)
  exist : ∀ old, s.v2p va = .ok (.ok, some old) → err = .exist ∧ s' = s
  others : ∀ va', PageAddr va' → s.Plain va' → va' ≠ va → s'.v2p va' = s.v2p va'

/-- What `mmu_unmap` returns and does. -/
structure Unmaps (s : Ptb) (va : ℕ) (err : Errno) (s' : Ptb) : Prop where
  ok_iff : err = .ok ↔ ∃ pa, s.v2p va = .ok (.ok, some pa)
  unmapped : s'.v2p va = .ok (.notfound, none)
  others : ∀ va', PageAddr va' → s.Plain va' → va' ≠ va → s'.v2p va' = s.v2p va'

/-- Every call that is possible returns and does what it should. -/
structure Contract (s : Ptb) : Prop where
  map : ∀ page va pa usr wtb, s.Possible (.map page va pa usr wtb) →
    ∃ err s', s.call (.map page va pa usr wtb) = .ok (err, s') ∧ Maps s page va pa usr wtb err s'
  unmap : ∀ va, s.Possible (.unmap va) → ∃ err s', s.call (.unmap va) = .ok (err, s') ∧ Unmaps s va err s'

section Runs

variable {s s' : Ptb} {va : ℕ}

theorem v2p_eq (h : s.Inv) (hplain : s.Plain va) : s.v2p va = .ok (translation (s.entryAt va)) :=
  mmuV2p_eq h.directory hplain

theorem v2p_eq_notfound (h : s.Inv) (hplain : s.Plain va) :
    s.v2p va = .ok (.notfound, none) ↔ s.entryAt va = none := by
  rw [v2p_eq h hplain]
  cases s.entryAt va <;> simp [translation]

theorem v2p_eq_some (h : s.Inv) (hplain : s.Plain va) :
    (∃ pa, s.v2p va = .ok (.ok, some pa)) ↔ (s.entryAt va).isSome := by
  rw [v2p_eq h hplain]
  cases s.entryAt va <;> simp [translation]

theorem Entered.others {entry : Option ℕ} (hentered : Entered s s' va entry) (h : s.Inv)
    (hva : PageAddr va) {va' : ℕ} (hva' : PageAddr va') (hplain : s.Plain va') (hne : va' ≠ va) :
    s'.v2p va' = s.v2p va' := by
  rw [v2p_eq hentered.inv (hentered.plain va' hplain), v2p_eq h hplain, entryAt, hentered.lookup,
    if_neg fun heq ↦ hne (eq_of_slot_place hva hva' heq.1 heq.2), entryAt]

theorem Entered.entryAt {entry : Option ℕ} (hentered : Entered s s' va entry) : s'.entryAt va = entry := by
  rw [Ptb.entryAt, hentered.lookup, if_pos ⟨rfl, rfl⟩]

theorem v2p_of_entryAt (h : s.Inv) (hplain : s.Plain va) {pa usr wtb : ℕ} (hpa : PageAddr pa)
    (hentry : s.entryAt va = some (pxe pa usr wtb)) : s.v2p va = .ok (.ok, some pa) := by
  have hattrs := attrs_lt usr wtb
  have hword : pxe pa usr wtb < addressSpace ∧ pxe pa usr wtb / pageSize * pageSize = pa := by
    rw [pxe_eq hpa.1]
    unfold PageAddr pageSize addressSpace at *
    omega
  rw [v2p_eq h hplain, hentry, translation, pxeAddr_eq hword.1, hword.2]

theorem Entered.v2p_self {pa usr wtb : ℕ} (hentered : Entered s s' va (some (pxe pa usr wtb)))
    (hpa : PageAddr pa) (hplain : s.Plain va) : s'.v2p va = .ok (.ok, some pa) :=
  v2p_of_entryAt hentered.inv (hentered.plain va hplain) hpa hentered.entryAt

theorem Inv.maps (h : s.Inv) {page : Option ℕ} {pa usr wtb : ℕ} (hpossible : s.Possible (.map page va pa usr wtb)) :
    ∃ err s', s.call (.map page va pa usr wtb) = .ok (err, s') ∧ Maps s page va pa usr wtb err s' := by
  obtain ⟨hva, hpa, hplain, hpage⟩ := hpossible
  obtain ⟨htable, rfl, hrun⟩ | ⟨htable, hsome, hrun⟩ | ⟨hserved, hnone, s', hrun, hentered, -⟩ :=
    ptbMap_cases h hva hpa hplain hpage usr wtb
  · refine ⟨_, _, hrun, ?_, ?_, ?_, fun _ _ _ _ ↦ rfl⟩
    · simp [htable]
    · simp
    · intro old hold
      have hentry := (v2p_eq_some h hplain).mp ⟨old, hold⟩
      simp [entryAt_of_not_hasTable htable] at hentry
  · refine ⟨_, _, hrun, ?_, ?_, fun _ _ ↦ ⟨rfl, rfl⟩, fun _ _ _ _ ↦ rfl⟩
    all_goals grind [v2p_eq_notfound]
  · refine ⟨_, _, hrun, ?_, fun _ ↦ ⟨hentered.v2p_self hpa hplain, ?_⟩, ?_, fun va' ↦ hentered.others h hva⟩
    · exact iff_of_true rfl ⟨(v2p_eq_notfound h hplain).mpr hnone, hserved⟩
    · refine ⟨_, hentered.entryAt, ?_, ?_⟩
      · rw [pxe_and hpa.1 (by decide), attrs_and_ptU]
      · rw [pxe_and hpa.1 (by decide), attrs_and_ptW]
    grind [v2p_eq_some]

theorem Inv.unmaps (h : s.Inv) (hpossible : s.Possible (.unmap va)) :
    ∃ err s', s.call (.unmap va) = .ok (err, s') ∧ Unmaps s va err s' := by
  obtain ⟨hva, hplain⟩ := hpossible
  obtain ⟨hnone, hrun⟩ | ⟨hsome, m, hrun, hentered⟩ := mmuUnmap_cases h hva hplain
  · refine ⟨.notfound, s, by simp [call, hrun], ?_, ?_,
      fun _ _ _ _ ↦ rfl⟩
    all_goals grind [v2p_eq_notfound]
  · refine ⟨.ok, { s with mem := m }, by simp [call, hrun], ?_,
      ?_, fun va' ↦ hentered.others h hva⟩
    · exact iff_of_true rfl ((v2p_eq_some h hplain).mpr hsome)
    · exact (v2p_eq_notfound hentered.inv (hentered.plain va hplain)).mpr hentered.entryAt

theorem init_spec (h : system.init s) : s.Inv ∧ ∀ va < kernBase, s.Plain va ∧ s.tables.dir (slotOf va) = none := by
  obtain ⟨m, kpde, p, hkern, hp, hsetup⟩ := h
  obtain ⟨s', hsetup', hinv, hpde, hwords⟩ := ptbSetup_spec hkern hp
  rw [hsetup'] at hsetup
  simp only [Except.ok.injEq, Prod.mk.injEq, Option.some_inj, true_and] at hsetup
  rw [hsetup] at hinv hpde hwords
  refine ⟨hinv, fun va hva ↦ ?_⟩
  have hslot : slotOf va < 768 := by
    refine show pdeIdx va < 768 from ?_
    rw [pdeIdx_eq]
    unfold kernBase at hva
    omega
  have hzero : s.mem.word (s.pde + slotOf va * 4) = 0 := by rw [hpde, hwords, if_pos hslot]
  refine ⟨.inl ?_, ?_⟩
  · rw [hzero, Nat.zero_and]
  · simp only [tables, PhysMem.tables, hzero]
    rfl

theorem inv_step {c : Call} (h : s.Inv) (hserved : s.Served c) (hstep : system.step s c s') : s'.Inv := by
  obtain ⟨hpossible, err, hrun⟩ := hstep
  cases c with
  | map page va pa usr wtb =>
    obtain ⟨hva, hpa, hplain, hpage⟩ := hpossible
    obtain ⟨htable, rfl, -⟩ | ⟨-, -, hrun'⟩ | ⟨-, -, s'', hrun', hentered, -⟩ :=
      ptbMap_cases h hva hpa hplain hpage usr wtb
    · simp [Served, htable] at hserved
    · obtain ⟨-, rfl⟩ := ok_pair_inj (hrun'.symm.trans hrun)
      exact h
    · obtain ⟨-, rfl⟩ := ok_pair_inj (hrun'.symm.trans hrun)
      exact hentered.inv
  | unmap va =>
    obtain ⟨⟨err', m⟩, hunmap, hret⟩ := bind_eq_ok.mp hrun
    cases hret
    obtain ⟨-, hrun'⟩ | ⟨-, m', hrun', hentered⟩ := mmuUnmap_cases h hpossible.1 hpossible.2
    · obtain ⟨-, rfl⟩ := ok_pair_inj (hrun'.symm.trans hunmap)
      exact h
    grind [hentered.inv]

/-- In runs in which every call finds the pages it needs, every possible call returns and does what it
should. -/
theorem served_run_contract (h : system.Run Served s) : s.Contract := by
  have hinv : s.Inv := h.invariant (P := Inv) (fun s hinit ↦ (init_spec hinit).1) fun s c s' hs hserved hstep ↦
    inv_step hs hserved hstep
  exact ⟨fun _ _ _ _ _ ↦ hinv.maps, fun _ ↦ hinv.unmaps⟩

end Runs

/-! ### Examples -/

/-- A kernel directory at `0x1000` with a table at `0x3000` for the first kernel slot. -/
def exampleMem : PhysMem :=
  PhysMem.blank.set (0x1000 + 768 * 4) (0x3000 ||| ptP ||| ptW)

theorem exampleMem_dir (i : Fin 1024) : (exampleMem.tables 0x1000).dir i = if i = 768 then some 3 else none := by
  by_cases hi : i = 768
  · subst hi
    decide +kernel
  · have hne : 0x1000 + (i : ℕ) * 4 ≠ 0x1000 + 768 * 4 := by
      intro heq
      exact hi (Fin.ext (show (i : ℕ) = 768 by omega))
    simp only [PhysMem.tables, exampleMem, word_set_of_ne hne, word_blank, if_neg hi]
    decide

theorem exampleMem_directory : exampleMem.Directory 0x1000 := by
  refine ⟨by decide, by decide, ?_, ?_⟩
  · intro i i' f hf hf'
    rw [exampleMem_dir] at hf hf'
    split_ifs at hf hf' with hi hi'
    rw [hi, hi']
  grind [exampleMem_dir]

theorem exampleMem_spare : Spare exampleMem 0x1000 0x2000 := by
  refine ⟨by decide, by decide, fun i ↦ ?_⟩
  rw [exampleMem_dir]
  split_ifs <;> decide

theorem exampleSetup : ∃ s, system.init s ∧ s.Unused 0x4000 ∧ s.Unused 0x5000 := by
  obtain ⟨s, hsetup, -, hpde, hwords⟩ := ptbSetup_spec exampleMem_directory exampleMem_spare
  have hdir : ∀ i f, s.tables.dir i = some f → f = 3 := by
    intro i f hf
    have hkern := exampleMem_dir i
    simp only [tables, PhysMem.tables, hpde, hwords] at hf hkern
    split_ifs at hf hkern
    · cases hf
    · cases hf
    · exact Option.some_inj.mp (hf.symm.trans hkern)
    · cases hf.symm.trans hkern
  refine ⟨s, ⟨_, _, _, exampleMem_directory, exampleMem_spare, hsetup⟩, ?_, ?_⟩
  all_goals exact ⟨by decide, by rw [hpde]; decide, fun i hi ↦ absurd (hdir i _ hi) (by decide)⟩

/-- `ptb_map` of the page `0x5000`, the table being the page `0x4000`. -/
theorem served_run_contract_example :
    ∃ s, system.Run Served s ∧ s.v2p 0x8048000 = .ok (.ok, some 0x5000) ∧ s.Contract := by
  obtain ⟨s, hinit, hunused, -⟩ := exampleSetup
  obtain ⟨hinv, huser⟩ := init_spec hinit
  obtain ⟨hplain, hdir⟩ := huser 0x8048000 (by decide)
  have hpossible : s.Possible (.map (some 0x4000) 0x8048000 0x5000 1 1) :=
    ⟨by decide, by decide, hplain, fun p hp ↦ by rwa [← Option.some_inj.mp hp]⟩
  obtain ⟨err, s', hrun, hmaps⟩ := (served_run_contract (.init hinit)).map _ _ _ _ _ hpossible
  have hrun' : system.Run Served s' :=
    .step (a := .map (some 0x4000) 0x8048000 0x5000 1 1) (.init hinit) (.inr rfl)
      ⟨hpossible, err, hrun⟩
  have hunmapped := (v2p_eq_notfound hinv hplain).mpr (TwoLevel.lookup_of_dir_none hdir _)
  grind [hmaps.ok_iff, hmaps.mapped, served_run_contract]

/-- After a `ptb_map` that has found no page for a table, another `ptb_map` never returns. -/
theorem reachable_endless_map :
    ∃ s c, system.Reachable s ∧ s.Possible c ∧ s.call c = .error .endless ∧ ¬ s.Contract := by
  obtain ⟨s, hinit, hunused, -⟩ := exampleSetup
  obtain ⟨hinv, huser⟩ := init_spec hinit
  obtain ⟨hplain, hdir⟩ := huser 0x8048000 (by decide)
  have htable : ¬ s.HasTable 0x8048000 := by simp [HasTable, hdir]
  have hfail : s.call (.map none 0x8048000 0x5000 1 1) = .ok (.nomem, { s with lock := true }) := by
    obtain ⟨-, -, hrun⟩ | ⟨htable', -⟩ | ⟨htable' | hpage, -⟩ :=
      ptbMap_cases hinv (show PageAddr 0x8048000 by decide) (show PageAddr 0x5000 by decide) hplain
        (fun p (hp : none = some p) ↦ by cases hp) 1 1
    · exact hrun
    · exact absurd htable' htable
    · exact absurd htable' htable
    · cases hpage
  have hreach : system.Reachable { s with lock := true } :=
    .step (a := .map none 0x8048000 0x5000 1 1) (.init hinit) trivial
      ⟨⟨by decide, by decide, hplain, fun p hp ↦ by cases hp⟩, _, hfail⟩
  have hpossible : ({ s with lock := true } : Ptb).Possible (.map (some 0x4000) 0x8048000 0x5000 1 1) :=
    ⟨by decide, by decide, hplain, fun p hp ↦ by rwa [← Option.some_inj.mp hp]⟩
  have hendless : ({ s with lock := true } : Ptb).call (.map (some 0x4000) 0x8048000 0x5000 1 1) =
      .error .endless := by rfl
  refine ⟨_, _, hreach, hpossible, hendless, fun hcontract ↦ ?_⟩
  grind [hcontract.map]

end Ptb

end Lanthorn
