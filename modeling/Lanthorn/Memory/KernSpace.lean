import Lanthorn.Memory.Mmu

/-!
# `mmu_sync_kern_space`

The function copies directory entries in steps of the 4 MiB that an entry covers, from the start of the
range on. Where the range begins inside an entry and ends inside a later one, the last step may fall short
of the last entry. `PhysMem.mmuSyncKernSpace_iff` says for which ranges and directories the entries agree
afterwards, and `PhysMem.mmuSyncKernSpace_misses` that the kernel stack of a new thread may be none of
them.
-/

namespace Lanthorn

/-- `KERN_STACK_SIZE` of `thread.h`. -/
def kernStackSize : ℕ := 8 * pageSize

namespace PhysMem

def SameEntry (m : PhysMem) (kpde pde va : ℕ) : Prop :=
  m.word (pde + slotOf va * 4) = m.word (kpde + slotOf va * 4)

/-- The steps of `mmu_sync_kern_space` reach the entry of the last address of a range. -/
def Reaches (addr size : ℕ) : Prop := addr % 4194304 + size ≤ syncRounds size * 4194304

section Sync

variable {m : PhysMem} {kpde pde addr size : ℕ}

theorem slotOf_eq {va : ℕ} (h : va < addressSpace) : (slotOf va : ℕ) = va / 4194304 := by
  refine (pdeIdx_eq va).trans (Nat.mod_eq_of_lt ?_)
  unfold addressSpace at h
  omega

theorem mmuSyncKernSpace_spec (m : PhysMem) (hkpde : kpde % pageSize = 0 ∧ kpde < addressSpace)
    (hpde : pde % pageSize = 0 ∧ pde < addressSpace) (haddr : kernBase ≤ addr) (hend : addr + size ≤ addressSpace) :
    ∃ m', m.mmuSyncKernSpace kpde pde addr size = .ok m' ∧
      (∀ i < 1024, m'.word (kpde + i * 4) = m.word (kpde + i * 4)) ∧ ∀ i < 1024, m'.word (pde + i * 4) =
        if addr / 4194304 ≤ i ∧ i < addr / 4194304 + syncRounds size then m.word (kpde + i * 4)
        else m.word (pde + i * 4) := by
  have hguard : addr ≥ kernBase ∧ ¬ (wordAdd addr size > 0 ∧ wordAdd addr size < kernBase) := by
    unfold wordAdd kernBase addressSpace at *
    omega
  have hsize : size + 4194304 ≤ addressSpace := by
    unfold kernBase addressSpace at *
    omega
  have hrounds : syncRounds size < addressSpace := by
    unfold syncRounds addressSpace at *
    omega
  obtain ⟨m', hrun, hcopied, hrest⟩ := syncLoop_copies hkpde hpde hend hsize
    (Nat.zero_add (syncRounds size)) hrounds m
  rw [Nat.zero_mul] at hrun
  have hentry : ∀ i < 1024, m'.word (pde + i * 4) =
      if addr / 4194304 ≤ i ∧ i < addr / 4194304 + syncRounds size then m.word (kpde + i * 4)
      else m.word (pde + i * 4) := by
    intro i hi
    split_ifs with hin
    · obtain ⟨j, rfl⟩ := Nat.exists_eq_add_of_le hin.1
      exact hcopied j (Nat.zero_le j) (by omega)
    · exact hrest _ fun j _ hj ↦ by omega
  refine ⟨m', ?_, fun i hi ↦ ?_, hentry⟩
  · simp [mmuSyncKernSpace, hguard, hrun]
  · by_cases heq : kpde = pde
    · subst heq
      rw [hentry i hi]
      split_ifs <;> rfl
    · refine hrest _ fun j _ hj ↦ ?_
      unfold pageSize syncRounds kernBase addressSpace at *
      omega

/-- After `mmu_sync_kern_space` the entries for the user part are unchanged, and the entries for the range
are the same in both directories exactly if the steps reach the last of them, or it was the same
before. -/
theorem mmuSyncKernSpace_iff (m : PhysMem) (hkpde : kpde % pageSize = 0 ∧ kpde < addressSpace)
    (hpde : pde % pageSize = 0 ∧ pde < addressSpace) (haddr : kernBase ≤ addr) (hend : addr + size ≤ addressSpace) :
    ∃ m', m.mmuSyncKernSpace kpde pde addr size = .ok m' ∧
      (∀ va < kernBase, m'.word (pde + slotOf va * 4) = m.word (pde + slotOf va * 4)) ∧
      ((∀ va, addr ≤ va → va < addr + size → m'.SameEntry kpde pde va) ↔
        size = 0 ∨ Reaches addr size ∨ m.SameEntry kpde pde (addr + size - 1)) := by
  obtain ⟨m', hrun, hkern, hentry⟩ := mmuSyncKernSpace_spec m hkpde hpde haddr hend
  refine ⟨m', hrun, fun va hva ↦ ?_, fun hsame ↦ ?_, fun hcond va hle hlt ↦ ?_⟩
  · grind [slotOf_eq, kernBase]
  · -- the entry of the last address has been copied or was the same
    by_cases hzero : size = 0
    · exact .inl hzero
    by_cases hreach : Reaches addr size
    · exact .inr (.inl hreach)
    have hlast := hsame (addr + size - 1) (by omega) (by omega)
    grind [slotOf_eq, SameEntry, Reaches]
  · have hslot := slotOf_eq (show va < addressSpace by omega)
    rw [SameEntry, hentry _ (slotOf va).isLt, hkern _ (slotOf va).isLt]
    split_ifs with hin
    · rfl
    -- the one entry that the steps do not reach is that of the last address
    obtain rfl | hreach | hlast := hcond
    · omega
    · unfold Reaches syncRounds at *
      omega
    · have hslot' := slotOf_eq (show addr + size - 1 < addressSpace by omega)
      have heq : slotOf va = slotOf (addr + size - 1) := by
        rw [Fin.ext_iff]
        unfold syncRounds at hin
        omega
      rw [heq]
      exact hlast

end Sync

/-- A directory at `0x1000` with a table for the second kernel slot, and an empty one at `0x2000`. -/
def exampleDirectories : PhysMem :=
  PhysMem.blank.set (0x1000 + 769 * 4) (0x7000 ||| ptP ||| ptW)

/-- A kernel stack that ends in the first slot. -/
theorem mmuSyncKernSpace_example : ∃ m',
    exampleDirectories.mmuSyncKernSpace 0x1000 0x2000 0xC03F8000 kernStackSize = .ok m' ∧
      ∀ va, 0xC03F8000 ≤ va → va < 0xC03F8000 + kernStackSize → m'.SameEntry 0x1000 0x2000 va := by
  obtain ⟨m', hrun, -, hiff⟩ := mmuSyncKernSpace_iff exampleDirectories
    (show 0x1000 % pageSize = 0 ∧ 0x1000 < addressSpace by decide)
    (show 0x2000 % pageSize = 0 ∧ 0x2000 < addressSpace by decide) (show kernBase ≤ 0xC03F8000 by decide)
    (show 0xC03F8000 + kernStackSize ≤ addressSpace by decide)
  exact ⟨m', hrun, hiff.mpr (.inr (.inl (by unfold Reaches; decide)))⟩

/-- A kernel stack that begins in the first slot and ends in the second: the entry of the second is not
copied. -/
theorem mmuSyncKernSpace_misses : ∃ m',
    exampleDirectories.mmuSyncKernSpace 0x1000 0x2000 0xC03FC000 kernStackSize = .ok m' ∧
      0xC0400000 < 0xC03FC000 + kernStackSize ∧ m'.word (0x2000 + slotOf 0xC0400000 * 4) = 0 ∧
      m'.word (0x1000 + slotOf 0xC0400000 * 4) = 0x7003 := by
  have hview : (exampleDirectories.mmuSyncKernSpace 0x1000 0x2000 0xC03FC000 kernStackSize).map
      (fun m ↦ (m.word (0x2000 + slotOf 0xC0400000 * 4), m.word (0x1000 + slotOf 0xC0400000 * 4))) =
      .ok (0, 0x7003) := by decide +kernel
  cases hrun : exampleDirectories.mmuSyncKernSpace 0x1000 0x2000 0xC03FC000 kernStackSize with
  | error err => simp [hrun, Except.map] at hview
  | ok m' =>
    simp only [hrun, Except.map, Except.ok.injEq, Prod.mk.injEq] at hview
    exact ⟨m', rfl, by decide, hview⟩

end PhysMem

end Lanthorn
