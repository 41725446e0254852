import Lanthorn.Memory.PtbFork

/-!
# Copying a page into a directory

What `ptb_map` writes: the word of the directory for its slot, and the table of that slot. `Ptb.copyTo` is the
branch of `vm_fork` on a `UM_NORMAL` region: the contents of a physical page are copied to a new page, and the
new page is mapped.

`Ptb.copyTo_steady` says what holds of the tables in any case, and what is mapped and what memory holds
afterwards if the address was not mapped.
-/

namespace Lanthorn

open Library PhysMem

namespace Ptb

section Map

variable {s s' : Ptb} {va pa : ℕ}

/-! ### `ptb_map` -/

theorem ptbMap_hasTable (h : s.Inv) (hva : PageAddr va) (hpa : PageAddr pa) (hplain : s.Plain va) {f : ℕ}
    (hdir : s.tables.dir (slotOf va) = some f) (table : Option ℕ) (usr wtb : ℕ) :
    s.ptbMap table va pa usr wtb = .ok (if (s.entryAt va).isSome then (.exist, s)
      else (.ok, { s with mem := s.mem.set (f * pageSize + placeOf va * 4) (pxe pa usr wtb) })) := by
  obtain ⟨pte, hget⟩ := mmuPteGet_eq h hplain
  simp only [hdir, Option.isSome_some, if_true] at hget
  have hmap : s.mem.mmuMap s.pde va pa usr wtb = _ := mmuMap_eq h.directory hva.1 hpa.1 hdir
  have hlock := h.unlocked
  have hrun : s.ptbMap table va pa usr wtb = ({ s with lock := true } : Ptb).mapUnlock va pa usr wtb := by
    simp [ptbMap, hva.1, hpa.1, spinLock_of_inv h, hget]
  rw [hrun, mapUnlock, hmap]
  cases hentry : s.entryAt va with
  | none =>
    simp only [entryAt, tables] at hentry
    simp [hentry, spinUnlock, hlock]
  | some w =>
    simp only [entryAt, tables] at hentry
    simp [hentry, spinUnlock, ← hlock]

theorem ptbMap_newTable (h : s.Inv) (hva : PageAddr va) (hpa : PageAddr pa) (hplain : s.Plain va) {p : ℕ}
    (hdir : s.tables.dir (slotOf va) = none) (hp : s.Unused p) (usr wtb : ℕ) :
    ∃ m, s.ptbMap (some p) va pa usr wtb =
        .ok (.ok, { s with mem := m.set (p / pageSize * pageSize + placeOf va * 4) (pxe pa usr wtb) }) ∧
      ({ s with mem := m } : Ptb).Inv ∧
      ({ s with mem := m } : Ptb).tables = s.tables.addTable (slotOf va) (p / pageSize) ∧
      ∀ q x, PageAddr q → q ≠ p → q ≠ s.pde → q ≤ x → x < q + pageSize → m.word x = s.mem.word x := by
  obtain ⟨pte, hget⟩ := mmuPteGet_eq h hplain
  simp only [hdir, Option.isSome_none, Bool.false_eq_true, if_false] at hget
  obtain ⟨m, hclean, hset, hinv, hplain', htables, -, hkept⟩ := entered_addTable h hp hplain hdir usr
  have hdir' : ({ s with mem := m } : Ptb).tables.dir (slotOf va) = some (p / pageSize) := by
    rw [htables]
    simp [TwoLevel.addTable]
  have hnone : ({ s with mem := m } : Ptb).entryAt va = none := by
    rw [entryAt, htables, TwoLevel.lookup_addTable hdir hp.2.2, TwoLevel.lookup_of_dir_none hdir]
  refine ⟨m, ?_, hinv, htables, hkept⟩
  have hmap : m.mmuMap s.pde va pa usr wtb = _ := mmuMap_eq hinv.directory hva.1 hpa.1 hdir'
  have hlock := h.unlocked
  simp only [entryAt, tables] at hnone
  rw [hnone] at hmap
  simp [ptbMap, mapUnlock, hva.1, hpa.1, spinLock_of_inv h, hget, hclean, hset, hmap, spinUnlock, hlock]

/-- The table of the slot of an address after `ptb_map`, and the tables of the other slots as before. -/
def DirAfter (s s' : Ptb) (table : Option ℕ) (va : ℕ) : Prop :=
  s.HasTable va ∧ s'.tables.dir = s.tables.dir ∨ ¬ s.HasTable va ∧ ∃ p, table = some p ∧
      s'.tables.dir = Function.update s.tables.dir (slotOf va) (some (p / pageSize))

/-- What holds of the tables after `ptb_map`, whether it has mapped the address or found it mapped. -/
structure Steady (s s' : Ptb) (table : Option ℕ) (va : ℕ) : Prop where
  inv : s'.Inv
  pde : s'.pde = s.pde
  plain : ∀ va', s.Plain va' → s'.Plain va'
  dir : DirAfter s s' table va
  unused : ∀ p, s.Unused p → (s.HasTable va ∨ table ≠ some p) → s'.Unused p

theorem dir_set (h : s.Inv) {f : ℕ} (hf : f * pageSize ≠ s.pde) (j : Fin 1024) (w : ℕ) :
    ({ s with mem := s.mem.set (f * pageSize + j * 4) w } : Ptb).tables.dir = s.tables.dir := by
  rw [tables, tables_set h.directory.unit hf]
  rfl

theorem ptbMap_steady (h : s.Inv) (hva : PageAddr va) (hpa : PageAddr pa) (hplain : s.Plain va)
    {table : Option ℕ} (htable : ¬ s.HasTable va → ∃ p, table = some p ∧ s.Unused p) (usr wtb : ℕ) :
    ∃ err s', s.ptbMap table va pa usr wtb = .ok (err, s') ∧ Steady s s' table va ∧
      (s.entryAt va = none → err = .ok ∧ Entered s s' va (some (pxe pa usr wtb)) ∧
        ∀ q x, PageAddr q → q ≠ s.pde → (∀ f, s'.tables.dir (slotOf va) = some f → f * pageSize ≠ q) →
          q ≤ x → x < q + pageSize → s'.mem.word x = s.mem.word x) := by
  have hword : ∀ (m : PhysMem) (f q x w : ℕ), PageAddr q → f * pageSize ≠ q → q ≤ x → x < q + pageSize →
      (m.set (f * pageSize + placeOf va * 4) w).word x = m.word x := by
    intro m f q x w hq hne hx hx'
    have hplace := (placeOf va).isLt
    have hunit := hq.1
    refine word_set_of_ne ?_ w
    unfold pageSize at *
    omega
  by_cases hhas : s.HasTable va
  · obtain ⟨f, hdir⟩ := Option.isSome_iff_exists.mp hhas
    have hrun := ptbMap_hasTable h hva hpa hplain hdir table usr wtb
    by_cases hsome : (s.entryAt va).isSome
    · rw [if_pos hsome] at hrun
      refine ⟨.exist, s, hrun, ⟨h, rfl, fun _ hp ↦ hp, .inl ⟨hhas, rfl⟩, fun _ hp _ ↦ hp⟩, fun hnone ↦ ?_⟩
      rw [hnone] at hsome
      cases hsome
    · rw [if_neg hsome] at hrun
      have hnone : s.entryAt va = none := Option.not_isSome_iff_eq_none.mp hsome
      have hdir' := dir_set h (h.directory.apart _ f hdir) (placeOf va) (pxe pa usr wtb)
      obtain ⟨hno, -⟩ | ⟨-, hexist, -⟩ | ⟨-, -, s', hrun', hentered, hunused⟩ :=
        ptbMap_cases h hva hpa hplain (show ∀ p, none = some p → s.Unused p by simp) usr wtb
      · exact absurd hhas hno
      · exact absurd hexist hsome
      · rw [ptbMap_hasTable h hva hpa hplain hdir none, if_neg hsome] at hrun'
        cases hrun'
        refine ⟨.ok, _, hrun, ⟨hentered.inv, rfl, hentered.plain, .inl ⟨hhas, hdir'⟩,
          fun p hp _ ↦ hunused p hp (by simp)⟩, fun _ ↦ ⟨rfl, hentered, fun q x hq _ hne hx hx' ↦ ?_⟩⟩
        exact hword s.mem f q x _ hq (hne f (by rw [hdir', hdir])) hx hx'
  · obtain ⟨p, rfl, hp⟩ := htable hhas
    have hdir : s.tables.dir (slotOf va) = none := by simpa [HasTable] using hhas
    obtain ⟨m, hrun, hinv, htables, hkept⟩ := ptbMap_newTable h hva hpa hplain hdir hp usr wtb
    obtain ⟨-, hnone, -⟩ | ⟨hyes, -⟩ | ⟨-, hentry, s', hrun', hentered, hunused⟩ :=
      ptbMap_cases h hva hpa hplain (fun q (hq : some p = some q) ↦ Option.some_inj.mp hq ▸ hp) usr wtb
    · cases hnone
    · exact absurd hyes hhas
    · obtain ⟨-, rfl⟩ := ok_pair_inj (hrun.symm.trans hrun')
      have hpage : p / pageSize * pageSize = p := Nat.div_mul_cancel (Nat.dvd_of_mod_eq_zero hp.1.1)
      have hdir' := dir_set hinv (f := p / pageSize) (by rw [hpage]; exact hp.2.1) (placeOf va)
        (pxe pa usr wtb)
      rw [htables] at hdir'
      refine ⟨.ok, _, hrun, ⟨hentered.inv, rfl, hentered.plain, .inr ⟨hhas, p, rfl, hdir'⟩, fun q hq hqp ↦
        hunused q hq (hqp.resolve_left hhas)⟩, fun _ ↦ ⟨rfl, hentered, fun q x hq hqd hne hx hx' ↦ ?_⟩⟩
      have hself : p / pageSize * pageSize ≠ q := hne _ (by rw [hdir']; simp [TwoLevel.addTable])
      grind

/-! ### The branch of `vm_fork` -/

/-- A page of `vm_fork`: its contents are copied and it is mapped, whatever `ptb_map` returns. -/
def copyTo (s : Ptb) (table : Option ℕ) (va page old : ℕ) : Result Ptb := do
  let (_, s) ← ({ s with mem := s.mem.memcpyP2p page old } : Ptb).ptbMap table va page 1 1
  return s

/-- The address is mapped to the copy of a page, and nothing else has changed. -/
structure Copies (s s' : Ptb) (va page old : ℕ) : Prop where
  entry : s'.entryAt va = some (pxe page 1 1)
  others : ∀ va', PageAddr va' → va' ≠ va → s'.entryAt va' = s.entryAt va'
  contents : ∀ i < pageSize, s'.mem.word (page + i) = s.mem.word (old + i)
  kept : ∀ q x, PageAddr q → q ≠ s.pde → q ≠ page →
    (∀ f, s'.tables.dir (slotOf va) = some f → f * pageSize ≠ q) → q ≤ x → x < q + pageSize →
    s'.mem.word x = s.mem.word x

variable {page : ℕ}

theorem memcpy_kept (h : s.Inv) (hpage : s.Unused page) (old : ℕ) :
    ({ s with mem := s.mem.memcpyP2p page old } : Ptb).Inv ∧
      ({ s with mem := s.mem.memcpyP2p page old } : Ptb).tables.dir = s.tables.dir ∧
      (∀ va, ({ s with mem := s.mem.memcpyP2p page old } : Ptb).Plain va ↔ s.Plain va) ∧
      (∀ va, ({ s with mem := s.mem.memcpyP2p page old } : Ptb).entryAt va = s.entryAt va) ∧
      ∀ p, ({ s with mem := s.mem.memcpyP2p page old } : Ptb).Unused p ↔ s.Unused p := by
  obtain ⟨hinv, hdir, hplain, hlookup⟩ := h.of_agree hpage
    (show ∀ x, x < page ∨ page + pageSize ≤ x → (s.mem.memcpyP2p page old).word x = s.mem.word x from
      fun x hx ↦ if_neg (by omega))
  refine ⟨hinv, hdir, hplain, fun va ↦ hlookup _ _, fun p ↦ ?_⟩
  rw [Unused, Unused, hdir]

theorem copyTo_steady (h : s.Inv) (hva : PageAddr va) (hplain : s.Plain va) (hpage : s.Unused page)
    {table : Option ℕ} (htable : ¬ s.HasTable va → ∃ p, table = some p ∧ s.Unused p) (old : ℕ) :
    ∃ s', s.copyTo table va page old = .ok s' ∧ Steady s s' table va ∧
      (s.entryAt va = none → (∀ p, table = some p → ¬ s.HasTable va → p ≠ page) → Copies s s' va page old) := by
  obtain ⟨hinv, hdir, hplain', hentry, hunused⟩ := memcpy_kept h hpage old
  have hhas : ({ s with mem := s.mem.memcpyP2p page old } : Ptb).HasTable va ↔ s.HasTable va := by
    rw [HasTable, HasTable, hdir]
  have htable' : ¬ ({ s with mem := s.mem.memcpyP2p page old } : Ptb).HasTable va →
      ∃ p, table = some p ∧ ({ s with mem := s.mem.memcpyP2p page old } : Ptb).Unused p := by grind
  obtain ⟨err, s', hrun, hsteady, hmapped⟩ :=
    ptbMap_steady hinv hva hpage.1 ((hplain' va).mpr hplain) htable' 1 1
  have hdir' : DirAfter s s' table va := by
    have hafter := hsteady.dir
    rwa [DirAfter, hhas, hdir] at hafter
  refine ⟨s', bind_eq_ok.mpr ⟨_, hrun, rfl⟩, ⟨hsteady.inv, hsteady.pde, fun va' hp ↦
    hsteady.plain va' ((hplain' va').mpr hp), hdir', fun p hp hp' ↦
    hsteady.unused p ((hunused p).mpr hp) (hp'.imp_left hhas.mpr)⟩, fun hnone hne ↦ ?_⟩
  obtain ⟨-, hentered, hkept⟩ := hmapped ((hentry va).trans hnone)
  refine ⟨hentered.entryAt, fun va' hva' hva'' ↦ ?_, fun i hi ↦ ?_, fun q x hq hqd hqp hqf hx hx' ↦ ?_⟩
  · rw [entryAt, hentered.lookup, if_neg fun heq ↦ hva'' (eq_of_slot_place hva hva' heq.1 heq.2)]
    exact hentry va'
  · -- the page of the copy is no table
    have hnotable : ∀ f, s'.tables.dir (slotOf va) = some f → f * pageSize ≠ page := by
      rintro f hf rfl
      obtain ⟨hyes, hsame⟩ | ⟨hno, p, rfl, hnew⟩ := hdir'
      · refine hpage.2.2 (slotOf va) ?_
        rw [← hsame, hf, Nat.mul_div_cancel _ (by decide)]
      · rw [hnew, Function.update_self] at hf
        obtain rfl := Option.some_inj.mp hf
        obtain ⟨p', hp', hp''⟩ := htable hno
        obtain rfl := Option.some_inj.mp hp'
        exact hne p rfl hno (Nat.div_mul_cancel (Nat.dvd_of_mod_eq_zero hp''.1.1)).symm
    rw [hkept page (page + i) hpage.1 hpage.2.1 hnotable (Nat.le_add_right _ _) (Nat.add_lt_add_left hi _)]
    refine (if_pos ⟨Nat.le_add_right _ _, Nat.add_lt_add_left hi _⟩).trans ?_
    rw [Nat.add_sub_cancel_left]
  · rw [hkept q x hq hqd hqf hx hx']
    refine if_neg ?_
    have hq_unit := hq.1
    have hp_unit := hpage.1.1
    unfold pageSize at *
    omega

theorem copyTo_noTable (h : s.Inv) (hva : PageAddr va) (hplain : s.Plain va) (hpage : s.Unused page)
    (htable : ¬ s.HasTable va) (old : ℕ) : ∃ s', s.copyTo none va page old = .ok s' ∧ s'.lock = true := by
  obtain ⟨hinv, hdir, hplain', -, -⟩ := memcpy_kept h hpage old
  have hhas : ¬ ({ s with mem := s.mem.memcpyP2p page old } : Ptb).HasTable va := by rwa [HasTable, hdir]
  obtain ⟨-, -, hrun⟩ | ⟨hyes, -⟩ | ⟨hyes, -⟩ := ptbMap_cases hinv hva hpage.1 ((hplain' va).mpr hplain)
    (show ∀ p, none = some p → Unused _ p by simp) 1 1
  · exact ⟨_, bind_eq_ok.mpr ⟨_, hrun, rfl⟩, rfl⟩
  · exact absurd hyes hhas
  · exact absurd hyes (by simpa using hhas)

theorem copyTo_locked (hlock : s.lock = true) (table : Option ℕ) (va page old : ℕ) :
    ∀ s', s.copyTo table va page old ≠ .ok s' := by
  intro s' hrun
  obtain ⟨⟨err, t⟩, hmap, -⟩ := bind_eq_ok.mp hrun
  obtain ⟨-, -, hmap⟩ := bind_eq_ok.mp hmap
  obtain ⟨t', hspin, -⟩ := bind_eq_ok.mp hmap
  simp [spinLock, hlock, throw, throwThe, MonadExceptOf.throw] at hspin

end Map

end Ptb

end Lanthorn
