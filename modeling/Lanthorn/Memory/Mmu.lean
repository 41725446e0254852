import Mathlib.Data.Nat.Bitwise
import Lanthorn.Kernel.Basic
import Lanthorn.Library.TwoLevel

/-!
# `arch/x86/src/mm/mmu.c`

Page directories and page tables in a physical memory of 32-bit words. `mmu_pm_get`, `mmu_pm_set` and
`mmu_pp_clean` reach a physical page through a window in the kernel's own tables; here they read and
write the memory. The window `TMP1` itself and its mapping are left out, so that what a call keeps is
said of all other memory; so is invalidating the processor's copy of an entry.

A directory and its tables are a two-level table (`PhysMem.tables`), whose look-up is what `mmu_v2p`
computes (`mmuV2p_eq`). Writing a word of a table sets an entry (`tables_set`), and writing a directory
word after clearing a page adds a table (`tables_clean_set`).
-/

namespace Lanthorn

open Function Library

/-! ### Entries -/

/-- `PT_P`, `PT_W`, `PT_U` of `arch/mmu.h` and `PDE_PS`. -/
def ptP : ℕ := 1
def ptW : ℕ := 2
def ptU : ℕ := 4
def pdePs : ℕ := 128

def wordMax : ℕ := addressSpace - 1

/-- `PDE_MASK`, `PTE_MASK`, `PXE_ATTR_MASK`. -/
def pdeMask : ℕ := (wordMax >>> 22) <<< 22
def pteMask : ℕ := (wordMax >>> 22) <<< 12
def pxeAttrMask : ℕ := wordMax >>> 20

/-- `PDE_IDX`. -/
def pdeIdx (addr : ℕ) : ℕ := (addr &&& pdeMask) >>> 22

/-- `PTE_IDX`. -/
def pteIdx (addr : ℕ) : ℕ := (addr &&& pteMask) >>> 12

/-- `PDE_OFFSET`. -/
def pdeOffset (addr : ℕ) : ℕ := pdeIdx addr * 4

/-- `PTE_OFFSET`. -/
def pteOffset (addr : ℕ) : ℕ := pteIdx addr * 4

/-- An entry without its attributes, `& (~PXE_ATTR_MASK)`. -/
def pxeAddr (entry : ℕ) : ℕ := entry &&& (wordMax - pxeAttrMask)

def pxe (addr usr wtb : ℕ) : ℕ :=
  addr ||| ptP ||| (if usr ≠ 0 then ptU else 0) ||| (if wtb ≠ 0 then ptW else 0)

theorem pdeIdx_eq (va : ℕ) : pdeIdx va = va / 4194304 % 1024 := by
  rw [pdeIdx, Nat.shiftRight_and_distrib, Nat.shiftRight_eq_div_pow va]
  exact Nat.and_two_pow_sub_one_eq_mod _ 10

theorem pteIdx_eq (va : ℕ) : pteIdx va = va / pageSize % 1024 := by
  rw [pteIdx, Nat.shiftRight_and_distrib, Nat.shiftRight_eq_div_pow va]
  exact Nat.and_two_pow_sub_one_eq_mod _ 10

theorem pxeAddr_eq {w : ℕ} (h : w < addressSpace) : pxeAddr w = w / pageSize * pageSize := by
  have hdiv : pxeAddr w / 2 ^ 12 = w / 2 ^ 12 % 2 ^ 20 := by
    rw [pxeAddr, Nat.and_div_two_pow]
    exact Nat.and_two_pow_sub_one_eq_mod _ 20
  have hmod : pxeAddr w % 2 ^ 12 = 0 := by
    rw [pxeAddr, Nat.and_mod_two_pow]
    exact Nat.and_zero _
  unfold addressSpace at h
  unfold pageSize
  omega

def attrs (usr wtb : ℕ) : ℕ :=
  ptP ||| (if usr ≠ 0 then ptU else 0) ||| (if wtb ≠ 0 then ptW else 0)

theorem attrs_lt (usr wtb : ℕ) : attrs usr wtb < 8 := by
  unfold attrs
  split_ifs <;> decide

theorem pxe_eq {addr : ℕ} (hunit : addr % pageSize = 0) (usr wtb : ℕ) :
    pxe addr usr wtb = addr + attrs usr wtb := by
  have hsplit : 2 ^ 12 * (addr / 2 ^ 12) = addr := by
    unfold pageSize at hunit
    omega
  have hattrs := attrs_lt usr wtb
  have hor := Nat.two_pow_add_eq_or_of_lt (i := 12) (b := attrs usr wtb) (by omega) (addr / 2 ^ 12)
  rw [hsplit] at hor
  rw [hor, pxe, attrs, Nat.or_assoc, Nat.or_assoc, Nat.or_assoc]

theorem pxe_and {addr mask : ℕ} (hunit : addr % pageSize = 0) (hmask : mask < pageSize) (usr wtb : ℕ) :
    pxe addr usr wtb &&& mask = attrs usr wtb &&& mask := by
  have hmask' : mask % 2 ^ 12 = mask := Nat.mod_eq_of_lt hmask
  have hlow : ∀ w, w &&& mask = w % 2 ^ 12 &&& mask := by
    intro w
    have hlt : w &&& mask < 2 ^ 12 := Nat.lt_of_le_of_lt Nat.and_le_right hmask
    rw [← Nat.mod_eq_of_lt hlt, Nat.and_mod_two_pow, hmask']
  have hattrs := attrs_lt usr wtb
  rw [hlow, pxe_eq hunit, hlow (attrs usr wtb)]
  congr 1
  unfold pageSize at hunit
  omega

theorem attrs_and_ptP (usr wtb : ℕ) : attrs usr wtb &&& ptP ≠ 0 := by
  unfold attrs
  split_ifs <;> decide

theorem attrs_and_pdePs (usr wtb : ℕ) : attrs usr wtb &&& pdePs = 0 := by
  unfold attrs
  split_ifs <;> decide

theorem attrs_and_ptU (usr wtb : ℕ) : attrs usr wtb &&& ptU ≠ 0 ↔ usr ≠ 0 := by
  unfold attrs
  split_ifs with husr hwtb hwtb <;> simp [husr, ptP, ptU, ptW]

theorem attrs_and_ptW (usr wtb : ℕ) : attrs usr wtb &&& ptW ≠ 0 ↔ wtb ≠ 0 := by
  unfold attrs
  split_ifs with husr hwtb hwtb <;> simp [hwtb, ptP, ptU, ptW]

/-! ### Physical memory -/

/-- Physical memory as 32-bit words, by their addresses. -/
structure PhysMem where
  word : ℕ → ℕ
  word_lt : ∀ pa, word pa < addressSpace

namespace PhysMem

def blank : PhysMem where
  word _ := 0
  word_lt _ := by decide

@[simp] theorem word_blank (x : ℕ) : blank.word x = 0 := rfl

def set (m : PhysMem) (pa val : ℕ) : PhysMem where
  word := update m.word pa (val % addressSpace)
  word_lt x := by
    rw [update_apply]
    split_ifs
    · exact Nat.mod_lt _ (by decide)
    · exact m.word_lt x

def clean (m : PhysMem) (pa : ℕ) : PhysMem where
  word x := if pa ≤ x ∧ x < pa + pageSize then 0 else m.word x
  word_lt x := by
    split_ifs
    · decide
    · exact m.word_lt x

/-- `phyops_memcpy_p2p` of a page. -/
def memcpyP2p (m : PhysMem) (pad pas : ℕ) : PhysMem where
  word x := if pad ≤ x ∧ x < pad + pageSize then m.word (pas + (x - pad)) else m.word x
  word_lt x := by split_ifs <;> exact m.word_lt _

/-- A byte of memory; the low byte of a word comes first. -/
def byte (m : PhysMem) (pa : ℕ) : ℕ := m.word (pa / 4 * 4) / 256 ^ (pa % 4) % 256

theorem byte_memcpyP2p {m : PhysMem} {pad pas i : ℕ} (hpad : pad % pageSize = 0) (hpas : pas % pageSize = 0)
    (hi : i < pageSize) : (m.memcpyP2p pad pas).byte (pad + i) = m.byte (pas + i) := by
  simp only [pageSize] at hpad hpas hi
  have hword : (m.memcpyP2p pad pas).word ((pad + i) / 4 * 4) = m.word ((pas + i) / 4 * 4) := by
    refine (if_pos (by simp only [pageSize]; omega)).trans (congrArg m.word ?_)
    omega
  rw [byte, byte, hword, show (pad + i) % 4 = (pas + i) % 4 by omega]

theorem byte_memcpyP2p_of_outside {m : PhysMem} {pad pas a : ℕ} (hpad : pad % pageSize = 0)
    (ha : ¬ (pad ≤ a ∧ a < pad + pageSize)) : (m.memcpyP2p pad pas).byte a = m.byte a := by
  simp only [pageSize] at hpad ha
  have hword : (m.memcpyP2p pad pas).word (a / 4 * 4) = m.word (a / 4 * 4) :=
    if_neg (by simp only [pageSize]; omega)
  rw [byte, byte, hword]

theorem word_set_self (m : PhysMem) (pa val : ℕ) : (m.set pa val).word pa = val % addressSpace :=
  update_self _ _ _

theorem word_set_of_ne {m : PhysMem} {pa x : ℕ} (h : x ≠ pa) (val : ℕ) : (m.set pa val).word x = m.word x :=
  update_of_ne h _ _

/-- `mmu_pm_get`. -/
def mmuPmGet (m : PhysMem) (pa : ℕ) : Result ℕ := do
  assert (pa % 4 = 0)
  return m.word pa

/-- `mmu_pm_set`. -/
def mmuPmSet (m : PhysMem) (pa val : ℕ) : Result PhysMem := do
  assert (pa % 4 = 0)
  return m.set pa val

/-- `mmu_pp_clean`. -/
def mmuPpClean (m : PhysMem) (pa : ℕ) : Result PhysMem := do
  assert (pa % pageSize = 0)
  return m.clean pa

/-- `mmu_map`. -/
def mmuMap (m : PhysMem) (pde va pa usr wtb : ℕ) : Result (Errno × PhysMem) := do
  assert (pde % pageSize = 0 ∧ va % pageSize = 0 ∧ pa % pageSize = 0)
  let pte ← m.mmuPmGet (wordAdd pde (pdeOffset va))
  if pte &&& ptP = 0 then return (.notfound, m)
  else do
    let pte := pxeAddr pte
    let pg ← m.mmuPmGet (wordAdd pte (pteOffset va))
    if pg &&& ptP ≠ 0 then return (.exist, m)
    else do
      let m ← m.mmuPmSet (wordAdd pte (pteOffset va)) (pxe pa usr wtb)
      return (.ok, m)

/-- `mmu_unmap`. -/
def mmuUnmap (m : PhysMem) (pde va : ℕ) : Result (Errno × PhysMem) := do
  assert (pde % pageSize = 0 ∧ va % pageSize = 0)
  let pte ← m.mmuPmGet (wordAdd pde (pdeOffset va))
  if pte &&& ptP = 0 then return (.notfound, m)
  else do
    let pte := pxeAddr pte
    let pg ← m.mmuPmGet (wordAdd pte (pteOffset va))
    if pg &&& ptP = 0 then return (.notfound, m)
    else do
      let m ← m.mmuPmSet (wordAdd pte (pteOffset va)) 0
      return (.ok, m)

/-- The loop of `mmu_sync_kern_space`, from an offset on. -/
def syncLoop (kpde pde addr size : ℕ) : ℕ → ℕ → PhysMem → Result PhysMem
  | 0, _, _ => throw .endless
  | fuel + 1, offset, m =>
    if offset < size then do
      let entry ← m.mmuPmGet (wordAdd kpde (pdeOffset (wordAdd addr offset)))
      let m ← m.mmuPmSet (wordAdd pde (pdeOffset (wordAdd addr offset))) entry
      syncLoop kpde pde addr size fuel (wordAdd offset (pageSize * pageSize / 4)) m
    else return m

/-- `mmu_sync_kern_space`. -/
def mmuSyncKernSpace (m : PhysMem) (kpde pde addr size : ℕ) : Result PhysMem := do
  assert (addr ≥ kernBase ∧ ¬ (wordAdd addr size > 0 ∧ wordAdd addr size < kernBase))
  syncLoop kpde pde addr size addressSpace 0 m

/-- `mmu_v2p`: the error code and the physical address. -/
def mmuV2p (m : PhysMem) (pde v : ℕ) : Result (Errno × Option ℕ) := do
  let pte ← m.mmuPmGet (wordAdd pde (pdeOffset v))
  if pte &&& ptP = 0 then return (.notfound, none)
  else do
    let pte := pxeAddr pte
    let pa ← m.mmuPmGet (wordAdd pte (pteOffset v))
    if pa &&& ptP = 0 then return (.notfound, none)
    else return (.ok, some (pxeAddr pa))

/-- `mmu_pte_exist`. -/
def mmuPteExist (m : PhysMem) (pde va : ℕ) : Result Bool := do
  assert (pde % pageSize = 0)
  let entry ← m.mmuPmGet (wordAdd pde (pdeOffset va))
  return entry &&& ptP ≠ 0

/-- `mmu_pte_get`: the error code and the address of the table. -/
def mmuPteGet (m : PhysMem) (pde va : ℕ) : Result (Errno × Option ℕ) := do
  assert (pde % pageSize = 0)
  let pte ← m.mmuPmGet (wordAdd pde (pdeOffset va))
  if pte &&& ptP = 0 then return (.notfound, none) else return (.ok, some (pxeAddr pte))

/-- `mmu_pte_set`. -/
def mmuPteSet (m : PhysMem) (pde va pte usr wtb : ℕ) : Result PhysMem := do
  let exist ← m.mmuPteExist pde va
  assert (exist = false)
  m.mmuPmSet (wordAdd pde (pdeOffset va)) (pxe pte usr wtb)

/-! ### The tables of a directory -/

def slotOf (va : ℕ) : Fin 1024 := ⟨pdeIdx va, by rw [pdeIdx_eq]; exact Nat.mod_lt _ (by decide)⟩
def placeOf (va : ℕ) : Fin 1024 := ⟨pteIdx va, by rw [pteIdx_eq]; exact Nat.mod_lt _ (by decide)⟩

/-- The number of the page of the table that a directory word names, if it is present and not for a
large page. -/
def tableOf (w : ℕ) : Option ℕ := if w &&& ptP = 0 ∨ w &&& pdePs ≠ 0 then none else some (w / pageSize)

def entryOf (w : ℕ) : Option ℕ := if w &&& ptP = 0 then none else some w

def tables (m : PhysMem) (pde : ℕ) : TwoLevel (Fin 1024) ℕ (Fin 1024) ℕ where
  dir i := tableOf (m.word (pde + i * 4))
  entry f j := if f * pageSize = pde then none else entryOf (m.word (f * pageSize + j * 4))

def Plain (m : PhysMem) (pde va : ℕ) : Prop :=
  m.word (pde + slotOf va * 4) &&& ptP = 0 ∨ m.word (pde + slotOf va * 4) &&& pdePs = 0

structure Directory (m : PhysMem) (pde : ℕ) : Prop where
  unit : pde % pageSize = 0
  bound : pde < addressSpace
  exclusive : (m.tables pde).Exclusive
  apart : ∀ i f, (m.tables pde).dir i = some f → f * pageSize ≠ pde

theorem eq_of_slot_place {va va' : ℕ} (hva : va % pageSize = 0 ∧ va < addressSpace)
    (hva' : va' % pageSize = 0 ∧ va' < addressSpace) (hslot : slotOf va' = slotOf va)
    (hplace : placeOf va' = placeOf va) : va' = va := by
  simp only [slotOf, placeOf, Fin.mk.injEq, pdeIdx_eq, pteIdx_eq] at hslot hplace
  unfold pageSize addressSpace at *
  omega

section Words

variable {m : PhysMem} {pde va : ℕ}

variable {pa w f p kpde : ℕ}

theorem mmuPmGet_of_unit (h : pa % 4 = 0) : m.mmuPmGet pa = .ok (m.word pa) := by simp [mmuPmGet, h]

theorem mmuPmSet_of_unit {val : ℕ} (h : pa % 4 = 0) : m.mmuPmSet pa val = .ok (m.set pa val) := by
  simp [mmuPmSet, h]

theorem wordAdd_page {page offset : ℕ} (hunit : page % pageSize = 0) (hbound : page < addressSpace)
    (h : offset < 1024) : wordAdd page (offset * 4) = page + offset * 4 ∧ (page + offset * 4) % 4 = 0 := by
  unfold wordAdd pageSize addressSpace at *
  omega

theorem get_directory (hpde : pde % pageSize = 0) (hbound : pde < addressSpace) (va : ℕ) :
    m.mmuPmGet (wordAdd pde (pdeOffset va)) = .ok (m.word (pde + slotOf va * 4)) := by
  grind [wordAdd_page, slotOf, pdeOffset, mmuPmGet_of_unit]

theorem get_table (hw : w < addressSpace) (va : ℕ) :
    wordAdd (pxeAddr w) (pteOffset va) = w / pageSize * pageSize + placeOf va * 4 ∧
      (w / pageSize * pageSize + placeOf va * 4) % 4 = 0 := by
  have hpage : w / pageSize * pageSize % pageSize = 0 := Nat.mul_mod_left _ _
  have hbound : w / pageSize * pageSize < addressSpace :=
    Nat.lt_of_le_of_lt (Nat.div_mul_le_self _ _) hw
  rw [pxeAddr_eq hw]
  exact wordAdd_page hpage hbound (placeOf va).isLt

theorem tableOf_eq_some (h : tableOf w = some f) : w &&& ptP ≠ 0 ∧ f = w / pageSize := by grind [tableOf]

theorem Plain.absent (h : m.Plain pde va) (hnone : (m.tables pde).dir (slotOf va) = none) :
    m.word (pde + slotOf va * 4) &&& ptP = 0 := by
  simp only [tables, tableOf] at hnone
  obtain habsent | hsmall := h
  · exact habsent
  · by_contra hpresent
    simp [hpresent, hsmall] at hnone

theorem directory_word (h : m.Directory pde) (hdir : (m.tables pde).dir (slotOf va) = some f) :
    m.word (pde + slotOf va * 4) &&& ptP ≠ 0 ∧ f = m.word (pde + slotOf va * 4) / pageSize ∧
      f * pageSize ≠ pde := by
  obtain ⟨hpresent, hf⟩ := tableOf_eq_some hdir
  exact ⟨hpresent, hf, h.apart _ f hdir⟩

theorem lookup_word (h : m.Directory pde) (hdir : (m.tables pde).dir (slotOf va) = some f) :
    (m.tables pde).lookup (slotOf va) (placeOf va) = entryOf (m.word (f * pageSize + placeOf va * 4)) := by
  rw [TwoLevel.lookup_of_dir hdir]
  exact if_neg (h.apart _ f hdir)

/-- What `mmu_v2p` returns for an entry. -/
def translation : Option ℕ → Errno × Option ℕ
  | none => (.notfound, none)
  | some w => (.ok, some (pxeAddr w))

theorem mmuV2p_eq (h : m.Directory pde) (hplain : m.Plain pde va) :
    m.mmuV2p pde va = .ok (translation ((m.tables pde).lookup (slotOf va) (placeOf va))) := by
  rw [mmuV2p, get_directory h.unit h.bound]
  cases hdir : (m.tables pde).dir (slotOf va) with
  | none =>
    rw [TwoLevel.lookup_of_dir_none hdir]
    simp [hplain.absent hdir, translation]
  | some f =>
    obtain ⟨hpresent, rfl, -⟩ := directory_word h hdir
    obtain ⟨hadd, hunit⟩ := get_table (m.word_lt (pde + slotOf va * 4)) va
    rw [lookup_word h hdir, entryOf]
    simp only [if_neg hpresent, hadd, mmuPmGet_of_unit hunit, ok_bind]
    split_ifs <;> rfl

theorem mmuMap_eq (h : m.Directory pde) {usr wtb : ℕ} (hva : va % pageSize = 0)
    (hpa : pa % pageSize = 0) (hdir : (m.tables pde).dir (slotOf va) = some f) : m.mmuMap pde va pa usr wtb =
      .ok (if ((m.tables pde).lookup (slotOf va) (placeOf va)).isSome then (.exist, m)
        else (.ok, m.set (f * pageSize + placeOf va * 4) (pxe pa usr wtb))) := by
  rw [mmuMap, get_directory h.unit h.bound, assert_of_true ⟨h.unit, hva, hpa⟩, lookup_word h hdir]
  obtain ⟨hpresent, rfl, -⟩ := directory_word h hdir
  obtain ⟨hadd, hunit⟩ := get_table (m.word_lt (pde + slotOf va * 4)) va
  simp only [if_neg hpresent, hadd, mmuPmGet_of_unit hunit, mmuPmSet_of_unit hunit, entryOf, ok_bind]
  split_ifs <;> simp_all

theorem mmuUnmap_of_mapped (h : m.Directory pde) (hva : va % pageSize = 0)
    (hdir : (m.tables pde).dir (slotOf va) = some f)
    (hmapped : ((m.tables pde).lookup (slotOf va) (placeOf va)).isSome) :
    m.mmuUnmap pde va = .ok (.ok, m.set (f * pageSize + placeOf va * 4) 0) := by
  rw [mmuUnmap, get_directory h.unit h.bound, assert_of_true ⟨h.unit, hva⟩]
  rw [lookup_word h hdir, entryOf] at hmapped
  obtain ⟨hpresent, rfl, -⟩ := directory_word h hdir
  obtain ⟨hadd, hunit⟩ := get_table (m.word_lt (pde + slotOf va * 4)) va
  simp only [if_neg hpresent, hadd, mmuPmGet_of_unit hunit, mmuPmSet_of_unit hunit, ok_bind]
  split_ifs at hmapped ⊢ with habsent
  · cases hmapped
  · rfl

theorem mmuUnmap_of_unmapped (h : m.Directory pde) (hva : va % pageSize = 0) (hplain : m.Plain pde va)
    (hunmapped : (m.tables pde).lookup (slotOf va) (placeOf va) = none) :
    m.mmuUnmap pde va = .ok (.notfound, m) := by
  rw [mmuUnmap, get_directory h.unit h.bound, assert_of_true ⟨h.unit, hva⟩]
  cases hdir : (m.tables pde).dir (slotOf va) with
  | none => simp [hplain.absent hdir]
  | some f =>
    rw [lookup_word h hdir, entryOf] at hunmapped
    obtain ⟨hpresent, rfl, -⟩ := directory_word h hdir
    obtain ⟨hadd, hunit⟩ := get_table (m.word_lt (pde + slotOf va * 4)) va
    simp only [if_neg hpresent, hadd, mmuPmGet_of_unit hunit, ok_bind]
    split_ifs at hunmapped ⊢ with habsent
    rfl

/-! ### Writing tables -/

theorem word_inj {f' : ℕ} {j j' : Fin 1024} : f' * pageSize + j' * 4 = f * pageSize + j * 4 ↔ f' = f ∧ j' = j := by
  grind [pageSize]

section

variable (hpde : pde % pageSize = 0)
include hpde

theorem tables_set (hf : f * pageSize ≠ pde) (j : Fin 1024) (w : ℕ) : (m.set (f * pageSize + j * 4) w).tables pde =
      (m.tables pde).setEntry f j (entryOf (w % addressSpace)) := by
  obtain ⟨d, rfl⟩ : ∃ d, pde = d * pageSize := ⟨pde / pageSize, by
    rw [Nat.div_mul_cancel (Nat.dvd_of_mod_eq_zero hpde)]⟩
  have hne : d ≠ f := fun heq ↦ hf (by rw [heq])
  ext1
  · funext i
    simp [tables, TwoLevel.setEntry, set, update_apply, word_inj, hne]
  · funext f' j'
    simp only [tables, TwoLevel.setEntry, set, update_apply, word_inj]
    by_cases hf' : f' = f
    · subst hf'
      by_cases hj' : j' = j <;> simp [hf, hj']
    · simp [hf']

theorem tables_clean_set (hp : p * pageSize ≠ pde) (i : Fin 1024) (hw : tableOf (w % addressSpace) = some p) :
    ((m.clean (p * pageSize)).set (pde + i * 4) w).tables pde = (m.tables pde).addTable i p := by
  obtain ⟨d, rfl⟩ : ∃ d, pde = d * pageSize := ⟨pde / pageSize, by
    rw [Nat.div_mul_cancel (Nat.dvd_of_mod_eq_zero hpde)]⟩
  have hne : d ≠ p := fun heq ↦ hp (by rw [heq])
  have hclean : ∀ (f : ℕ) (j : Fin 1024), (m.clean (p * pageSize)).word (f * pageSize + j * 4) =
      if f = p then 0 else m.word (f * pageSize + j * 4) := by grind [clean, pageSize]
  ext1
  · funext i'
    simp only [tables, TwoLevel.addTable, set, update_apply, word_inj, hclean, true_and, if_neg hne]
    split_ifs
    · exact hw
    · rfl
  · funext f j
    simp only [tables, TwoLevel.addTable, set, update_apply, word_inj, hclean]
    by_cases hf : f = p
    · subst hf
      simp [hp, Ne.symm hne, entryOf]
    · by_cases hfd : f = d
      · simp [hfd, hne]
      · simp [hf, hfd]

theorem plain_set (hf : f * pageSize ≠ pde) (j : Fin 1024) (w : ℕ) (hplain : m.Plain pde va) :
    (m.set (f * pageSize + j * 4) w).Plain pde va := by
  obtain ⟨d, rfl⟩ : ∃ d, pde = d * pageSize := ⟨pde / pageSize, by
    rw [Nat.div_mul_cancel (Nat.dvd_of_mod_eq_zero hpde)]⟩
  have hne : d ≠ f := fun heq ↦ hf (by rw [heq])
  simpa [Plain, set, update_apply, word_inj, hne] using hplain

theorem word_clean_directory (hunit : p % pageSize = 0) (hp : p ≠ pde) (i : Fin 1024) :
    (m.clean p).word (pde + i * 4) = m.word (pde + i * 4) := by
  have hi := i.isLt
  refine if_neg ?_
  unfold pageSize at *
  omega

theorem mmuPteSet_eq (hbound : pde < addressSpace) (habsent : m.word (pde + slotOf va * 4) &&& ptP = 0)
    (pte usr wtb : ℕ) : m.mmuPteSet pde va pte usr wtb = .ok (m.set (pde + slotOf va * 4) (pxe pte usr wtb)) := by
  obtain ⟨hadd, hunit⟩ := wordAdd_page hpde hbound (slotOf va).isLt
  rw [mmuPteSet, mmuPteExist, assert_of_true hpde, get_directory hpde hbound,
    show pdeOffset va = slotOf va * 4 from rfl, hadd, mmuPmSet_of_unit hunit]
  simp [habsent]

theorem plain_clean_set (hp : p * pageSize ≠ pde) (i : Fin 1024) (hw : w % addressSpace &&& pdePs = 0)
    (hplain : m.Plain pde va) : ((m.clean (p * pageSize)).set (pde + i * 4) w).Plain pde va := by
  simp only [Plain, set, update_apply, word_clean_directory hpde (Nat.mul_mod_left p pageSize) hp]
  split_ifs
  · exact .inr hw
  · exact hplain

end

/-! ### The kernel part of a directory -/

/-- The rounds of the loop of `mmu_sync_kern_space`: one for every part of a directory slot's size. -/
def syncRounds (size : ℕ) : ℕ := (size + 4194303) / 4194304

theorem syncLoop_round {addr size : ℕ} (hkpde : kpde % pageSize = 0 ∧ kpde < addressSpace)
    (hpde : pde % pageSize = 0 ∧ pde < addressSpace) (hend : addr + size ≤ addressSpace)
    (hsize : size + 4194304 ≤ addressSpace) {k : ℕ} (hk : k < syncRounds size) (fuel : ℕ) (m : PhysMem) :
    addr / 4194304 + k < 1024 ∧ syncLoop kpde pde addr size (fuel + 1) (k * 4194304) m =
      syncLoop kpde pde addr size fuel ((k + 1) * 4194304)
        (m.set (pde + (addr / 4194304 + k) * 4) (m.word (kpde + (addr / 4194304 + k) * 4))) := by
  have hlt : k * 4194304 < size := by
    unfold syncRounds at hk
    omega
  have hslot : addr / 4194304 + k < 1024 := by
    unfold addressSpace at *
    omega
  have hoffset : pdeOffset (wordAdd addr (k * 4194304)) = (addr / 4194304 + k) * 4 := by
    rw [pdeOffset, pdeIdx_eq]
    unfold wordAdd addressSpace at *
    omega
  have hnext : wordAdd (k * 4194304) (pageSize * pageSize / 4) = (k + 1) * 4194304 := by
    unfold wordAdd pageSize addressSpace at *
    omega
  obtain ⟨hkadd, hkunit⟩ := wordAdd_page hkpde.1 hkpde.2 hslot
  obtain ⟨hadd, hunit⟩ := wordAdd_page hpde.1 hpde.2 hslot
  grind [syncLoop, mmuPmGet_of_unit, mmuPmSet_of_unit, ok_bind]

theorem syncLoop_end (kpde pde addr size fuel : ℕ) (m : PhysMem) :
    syncLoop kpde pde addr size (fuel + 1) (syncRounds size * 4194304) m = .ok m := by
  have hend : ¬ syncRounds size * 4194304 < size := by
    unfold syncRounds
    omega
  rw [syncLoop, if_neg hend]
  rfl

theorem word_copy (hkpde : kpde % pageSize = 0) (hpde : pde % pageSize = 0) {i j : ℕ}
    (hi : i < 1024) (hj : j < 1024) :
    (m.set (pde + j * 4) (m.word (kpde + j * 4))).word (kpde + i * 4) = m.word (kpde + i * 4) := by
  by_cases heq : kpde + i * 4 = pde + j * 4
  · have hsame : kpde = pde ∧ i = j := by
      unfold pageSize at *
      omega
    rw [hsame.1, hsame.2, word_set_self]
    exact Nat.mod_eq_of_lt (m.word_lt _)
  · exact word_set_of_ne heq _

theorem syncLoop_copies {addr size : ℕ} (hkpde : kpde % pageSize = 0 ∧ kpde < addressSpace)
    (hpde : pde % pageSize = 0 ∧ pde < addressSpace) (hend : addr + size ≤ addressSpace)
    (hsize : size + 4194304 ≤ addressSpace) {n k fuel : ℕ} (hk : k + n = syncRounds size)
    (hfuel : n < fuel) (m : PhysMem) : ∃ m', syncLoop kpde pde addr size fuel (k * 4194304) m = .ok m' ∧
      (∀ j, k ≤ j → j < syncRounds size → m'.word (pde + (addr / 4194304 + j) * 4) =
        m.word (kpde + (addr / 4194304 + j) * 4)) ∧
      ∀ x, (∀ j, k ≤ j → j < syncRounds size → x ≠ pde + (addr / 4194304 + j) * 4) → m'.word x = m.word x := by
  induction n generalizing k fuel m with
  | zero =>
    obtain ⟨fuel, rfl⟩ := exists_succ hfuel
    obtain rfl : k = syncRounds size := hk
    exact ⟨m, syncLoop_end kpde pde addr size fuel m, fun j hle hlt ↦ by omega, fun _ _ ↦ rfl⟩
  | succ n ih =>
    obtain ⟨fuel, rfl⟩ := exists_succ hfuel
    obtain ⟨hslot, hround⟩ :=
      syncLoop_round hkpde hpde hend hsize (show k < syncRounds size by omega) fuel m
    obtain ⟨m', hrun, hcopied, hrest⟩ := ih (show k + 1 + n = syncRounds size by omega)
      (show n < fuel by omega)
      (m.set (pde + (addr / 4194304 + k) * 4) (m.word (kpde + (addr / 4194304 + k) * 4)))
    refine ⟨m', hround.trans hrun, fun j hle hlt ↦ ?_, fun x hx ↦ ?_⟩
    · by_cases hjk : j = k
      · rw [hrest _ fun i hi _ ↦ by omega, hjk, word_set_self]
        exact Nat.mod_eq_of_lt (m.word_lt _)
      · obtain ⟨hslot', -⟩ := syncLoop_round hkpde hpde hend hsize hlt fuel m
        rw [hcopied j (by omega) hlt, word_copy hkpde.1 hpde.1 hslot' hslot]
    · rw [hrest x fun j hle ↦ hx j (by omega), word_set_of_ne (hx k (Nat.le_refl k) (by omega))]

theorem syncLoop_spec (hkpde : kpde % pageSize = 0 ∧ kpde < addressSpace)
    (hpde : pde % pageSize = 0 ∧ pde < addressSpace) {n fuel : ℕ} (hn : n ≤ 256) (hfuel : n < fuel) (m : PhysMem) :
    ∃ m', syncLoop kpde pde kernBase (addressSpace - kernBase) fuel ((256 - n) * 4194304) m = .ok m' ∧
      (∀ i, 1024 ≤ i + n → i < 1024 → m'.word (pde + i * 4) = m.word (kpde + i * 4)) ∧
      ∀ x, (∀ i, 1024 ≤ i + n → i < 1024 → x ≠ pde + i * 4) → m'.word x = m.word x := by
  have hrounds : syncRounds (addressSpace - kernBase) = 256 := by decide
  have hfirst : kernBase / 4194304 = 768 := by decide
  obtain ⟨m', hrun, hcopied, hrest⟩ := syncLoop_copies hkpde hpde
    (show kernBase + (addressSpace - kernBase) ≤ addressSpace by decide) (by decide)
    (show 256 - n + n = syncRounds (addressSpace - kernBase) by omega) hfuel m
  rw [hrounds, hfirst] at hcopied hrest
  refine ⟨m', hrun, fun i hle hi ↦ ?_, fun x hx ↦ hrest x fun j hle hj ↦ ?_⟩
  · have hcopy := hcopied (i - 768) (by omega) (by omega)
    rwa [show 768 + (i - 768) = i by omega] at hcopy
  · exact hx (768 + j) (by omega) (by omega)

end Words

end PhysMem

end Lanthorn
