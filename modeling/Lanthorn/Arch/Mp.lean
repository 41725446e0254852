import Lanthorn.Kernel.Basic

/-!
# The table of processors

The loop of `mp_init` in `mp.c` over the entries of a table that `mpconfig` has accepted, with any bytes, and `cpu_new`
of `cpu.c`. `Mp.mpInit_iff`: the loop ends if and only if it meets the five known types of entries only, and then
there is a CPU for each processor entry, in their order, as long as there is room. At an entry of another type the
cursor stays where it is, for ever. Assumes: the table ends 20 bytes below the end of the
address space or before.
-/

namespace Lanthorn.Mp

open List

/-- The size of an entry of a known type: `MPPROC`, `MPBUS`, `MPIOAPIC`, `MPIOINTR` and `MPLINTR`. -/
def entrySize : ℕ → Option ℕ
  | 0 => some 20
  | 1 | 2 | 3 | 4 => some 8
  | _ => none

/-- `cpu_new` and the store of the `apicid`, with `CONFIG_NR_CPU_MAX` CPUs. -/
def cpuNew (nrCpu : ℕ) (cpus : List ℕ) (apicid : ℕ) : Errno × List ℕ :=
  if nrCpu ≤ cpus.length then (.noslot, cpus) else (.ok, cpus ++ [apicid])

/-- The loop of `mp_init` over the bytes of memory from `addr` to `stop`, with `err` and the CPUs. -/
def mpLoop (nrCpu : ℕ) (mem : ℕ → ℕ) (stop : ℕ) : ℕ → ℕ → Errno × List ℕ → Result (Errno × List ℕ)
  | 0, _, _ => .error .endless
  | fuel + 1, addr, (err, cpus) =>
    if addr < stop then
      match mem addr with
      | 0 => mpLoop nrCpu mem stop fuel (wordAdd addr 20) (cpuNew nrCpu cpus (mem (addr + 1)))
      | 1 | 2 | 3 | 4 => mpLoop nrCpu mem stop fuel (wordAdd addr 8) (err, cpus)
      | _ => mpLoop nrCpu mem stop fuel addr (err, cpus)
    else .ok (err, cpus)

/-- The entries from an address on, all of known types. -/
inductive Known (mem : ℕ → ℕ) (stop : ℕ) : ℕ → List ℕ → Prop
  | done {addr : ℕ} (hstop : stop ≤ addr) : Known mem stop addr []
  | entry {addr size : ℕ} {entries : List ℕ} (hlt : addr < stop) (hsize : entrySize (mem addr) = some size)
    (hrest : Known mem stop (addr + size) entries) : Known mem stop addr (addr :: entries)

/-- What an entry does to the CPUs. -/
def visit (nrCpu : ℕ) (mem : ℕ → ℕ) (st : Errno × List ℕ) (addr : ℕ) : Errno × List ℕ :=
  if mem addr = 0 then cpuNew nrCpu st.2 (mem (addr + 1)) else st

/-- The ids of the processors among entries. -/
def apicids (mem : ℕ → ℕ) (entries : List ℕ) : List ℕ :=
  (entries.filter fun addr ↦ mem addr = 0).map fun addr ↦ mem (addr + 1)

variable {nrCpu stop fuel addr size : ℕ} {mem : ℕ → ℕ} {st : Errno × List ℕ} {entries : List ℕ}

theorem entrySize_bound {type : ℕ} (h : entrySize type = some size) : 8 ≤ size ∧ size ≤ 20 := by
  unfold entrySize at h
  split at h <;> cases h <;> decide

theorem mpLoop_known (hlt : addr < stop) (hstop : stop + 20 ≤ addressSpace)
    (hsize : entrySize (mem addr) = some size) :
    mpLoop nrCpu mem stop (fuel + 1) addr st = mpLoop nrCpu mem stop fuel (addr + size)
    (visit nrCpu mem st addr) := by
  have hbound := entrySize_bound hsize
  have hadd : wordAdd addr size = addr + size := wordAdd_of_lt (by omega)
  rw [mpLoop, if_pos hlt, visit]
  unfold entrySize at hsize
  split at hsize <;> simp_all

theorem mpLoop_unknown (hlt : addr < stop) (hsize : entrySize (mem addr) = none) :
    mpLoop nrCpu mem stop (fuel + 1) addr st = mpLoop nrCpu mem stop fuel addr st := by
  rw [mpLoop, if_pos hlt]
  unfold entrySize at hsize
  split at hsize <;> simp_all

theorem Known.mpLoop_eq (h : Known mem stop addr entries) (hstop : stop + 20 ≤ addressSpace)
    (hfuel : entries.length < fuel) :
    mpLoop nrCpu mem stop fuel addr st = .ok (entries.foldl (visit nrCpu mem) st) := by
  induction h generalizing fuel st with
  | done h =>
    obtain ⟨fuel, rfl⟩ := exists_succ hfuel
    rw [mpLoop, if_neg (by omega)]
    rfl
  | entry hlt hsize _ ih =>
    obtain ⟨fuel, rfl⟩ := exists_succ hfuel
    rw [mpLoop_known hlt hstop hsize, ih (by simpa using hfuel), foldl_cons]

/-- A loop that ends has met known types only. -/
theorem known_of_mpLoop {st' : Errno × List ℕ} (hstop : stop + 20 ≤ addressSpace)
    (h : mpLoop nrCpu mem stop fuel addr st = .ok st') : ∃ entries, Known mem stop addr entries := by
  induction fuel generalizing addr st with
  | zero => cases h
  | succ fuel ih =>
    by_cases hlt : addr < stop
    · cases hsize : entrySize (mem addr) with
      | none => exact ih (mpLoop_unknown hlt hsize ▸ h)
      | some size =>
        obtain ⟨entries, hknown⟩ := ih (mpLoop_known hlt hstop hsize ▸ h)
        exact ⟨_, .entry hlt hsize hknown⟩
    · exact ⟨[], .done (by omega)⟩

/-- The walk from entry to entry that meets no unknown type ends. -/
theorem known_of_meets {meets : ℕ → Prop} (hnext : ∀ entry < stop, meets entry →
      ∃ size, entrySize (mem entry) = some size ∧ meets (entry + size)) (h : meets addr) :
    ∃ entries, Known mem stop addr entries := by
  induction hn : stop - addr using Nat.strongRecOn generalizing addr with
  | ind n ih =>
    by_cases hlt : addr < stop
    · obtain ⟨size, hsize, hmeets⟩ := hnext addr hlt h
      have hbound := entrySize_bound hsize
      obtain ⟨entries, hknown⟩ := ih (stop - (addr + size)) (by omega) hmeets rfl
      exact ⟨_, .entry hlt hsize hknown⟩
    · exact ⟨[], .done (by omega)⟩

theorem Known.bounds (h : Known mem stop addr entries) :
    (∀ entry ∈ entries, addr ≤ entry ∧ entry < stop) ∧ entries.length ≤ stop - addr := by
  induction h with
  | done => simp
  | entry hlt hsize _ ih =>
    have hbound := entrySize_bound hsize
    grind

theorem foldl_visit (entries : List ℕ) (hroom : st.2.length ≤ nrCpu) :
    (entries.foldl (visit nrCpu mem) st).2 = (st.2 ++ apicids mem entries).take nrCpu := by
  induction entries generalizing st with
  | nil => simpa [apicids] using (take_of_length_le hroom).symm
  | cons addr entries ih =>
    rw [foldl_cons]
    by_cases hproc : mem addr = 0
    · by_cases hfull : nrCpu ≤ st.2.length
      · have hvisit : (visit nrCpu mem st addr).2 = st.2 := by simp [visit, cpuNew, hproc, hfull]
        rw [ih (by rwa [hvisit]), hvisit, take_append, take_append]
        simp [show nrCpu - st.2.length = 0 by omega]
      · have hvisit : (visit nrCpu mem st addr).2 = st.2 ++ [mem (addr + 1)] := by
          simp [visit, cpuNew, hproc, hfull]
        rw [ih (by rw [hvisit, length_append, length_singleton]; omega), hvisit]
        simp [apicids, hproc]
    · rw [visit, if_neg hproc, ih hroom]
      simp [apicids, hproc]

/-- When the loop ends, where it looks, and the CPUs that there are then. -/
theorem mpInit_iff (hstop : stop + 20 ≤ addressSpace) (err : Errno) :
    ((∃ fuel st, mpLoop nrCpu mem stop fuel addr (err, []) = .ok st) ↔ ∃ entries, Known mem stop addr entries) ∧
    ∀ entries, Known mem stop addr entries → (∀ entry ∈ entries, addr ≤ entry ∧ entry < stop) ∧
      ∀ fuel, stop - addr < fuel → ∃ err', mpLoop nrCpu mem stop fuel addr (err, []) =
        .ok (err', (apicids mem entries).take nrCpu) := by
  refine ⟨⟨?_, ?_⟩, fun entries h ↦ ⟨h.bounds.1, fun fuel hfuel ↦
    ⟨(entries.foldl (visit nrCpu mem) (err, [])).1, ?_⟩⟩⟩
  · rintro ⟨fuel, st, h⟩
    exact known_of_mpLoop hstop h
  · rintro ⟨entries, h⟩
    exact ⟨_, _, h.mpLoop_eq hstop (Nat.lt_succ_self _)⟩
  · rw [h.mpLoop_eq hstop (Nat.lt_of_le_of_lt h.bounds.2 hfuel)]
    exact congrArg _ (Prod.ext rfl (foldl_visit entries (Nat.zero_le _)))

/-- A table at 44 with two processors and a bus, and room for one CPU. -/
theorem mpInit_iff_example : ∃ err, mpLoop 1 (fun addr ↦ if addr = 84 then 1 else 0) 92 100 44 (.ok, []) =
    .ok (err, [0]) := by
  have hknown : Known (fun addr ↦ if addr = 84 then 1 else 0) 92 44 [44, 64, 84] :=
    .entry (by decide) rfl (.entry (by decide) rfl (.entry (by decide) rfl (.done (by decide))))
  exact ((mpInit_iff (by decide) .ok).2 _ hknown).2 100 (by decide)

end Lanthorn.Mp
