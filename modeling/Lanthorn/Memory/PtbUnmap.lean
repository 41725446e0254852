import Lanthorn.Memory.Ptb

/-!
# `ptb_unmap`

What `ptb_unmap` tells its caller. It throws the code of `mmu_unmap` away and returns that of `mmu_pte_get`,
which asks for a table and not for an entry.

`Ptb.translate` is the translation of the processor, large pages included. `ptb_unmap` reports and does what
it should exactly if there is no large page and the address is mapped whenever it has a table
(`Ptb.ptbUnmap_truthful_iff`). A neighbour in the same table is enough for `E_OK` on an address that is not
mapped (`Ptb.ptbUnmap_untruthful`).
-/

namespace Lanthorn

open Library PhysMem

namespace Ptb

def Large (s : Ptb) (va : ℕ) : Prop :=
  s.mem.word (s.pde + slotOf va * 4) &&& ptP ≠ 0 ∧ s.mem.word (s.pde + slotOf va * 4) &&& pdePs ≠ 0

instance (s : Ptb) (va : ℕ) : Decidable (s.Large va) := inferInstanceAs (Decidable (_ ∧ _))

def largeSize : ℕ := 1024 * pageSize

def translate (s : Ptb) (va : ℕ) : Option ℕ :=
  if s.Large va then
    some (s.mem.word (s.pde + slotOf va * 4) / largeSize * largeSize + va % largeSize)
  else (s.entryAt va).map fun entry ↦ pxeAddr entry + va % pageSize

def Mapped (s : Ptb) (va : ℕ) : Prop := (s.translate va).isSome

def OthersKept (s s' : Ptb) (va : ℕ) : Prop :=
  ∀ va' < addressSpace, va' / pageSize ≠ va / pageSize → s'.translate va' = s.translate va'

/-- `ptb_unmap` returns `E_OK` exactly for a mapped address, which it takes out; otherwise it returns
`E_NOTFOUND` and changes nothing. -/
def UnmapTruthful (s : Ptb) (va : ℕ) : Prop :=
  ∃ err s', s.ptbUnmap va = .ok (err, s') ∧ (err = .ok ↔ s.Mapped va) ∧
    (s.Mapped va → ¬ s'.Mapped va ∧ OthersKept s s' va) ∧ (¬ s.Mapped va → err = .notfound ∧ s' = s)

/-- `ptb_unmap` after `ptb_map` restores every translation. -/
def UndoesMap (s : Ptb) (page : Option ℕ) (va pa usr wtb : ℕ) : Prop :=
  ∃ err s₁ err' s₂, s.ptbMap page va pa usr wtb = .ok (err, s₁) ∧ s₁.ptbUnmap va = .ok (err', s₂) ∧
    ∀ va' < addressSpace, s₂.translate va' = s.translate va'

section Unmap

variable {s s' : Ptb} {va va' : ℕ}

theorem not_large (hplain : s.Plain va) : ¬ s.Large va := by
  rintro ⟨hpresent, hlarge⟩
  exact hplain.elim hpresent hlarge

theorem large_of_not_plain (h : ¬ s.Plain va) : s.Large va := not_or.mp h

theorem mapped_iff (hplain : s.Plain va) : s.Mapped va ↔ (s.entryAt va).isSome := by
  rw [Mapped, translate, if_neg (not_large hplain), Option.isSome_map]

theorem plain_of_not_mapped (h : ¬ s.Mapped va) : s.Plain va := by
  by_contra hplain
  simp [Mapped, translate, if_pos (large_of_not_plain hplain)] at h

theorem page_eq_of_slot_place (hva : va < addressSpace) (hva' : va' < addressSpace)
    (hslot : slotOf va' = slotOf va) (hplace : placeOf va' = placeOf va) : va' / pageSize = va / pageSize := by
  simp only [slotOf, placeOf, Fin.mk.injEq, pdeIdx_eq, pteIdx_eq] at hslot hplace
  unfold pageSize addressSpace at *
  omega

theorem translate_eq_none (hplain : s.Plain va) (hnone : s.entryAt va = none)
    (hpage : va' / pageSize = va / pageSize) : s.translate va' = none := by
  have hslot : slotOf va' = slotOf va := by
    refine Fin.ext (show pdeIdx va' = pdeIdx va from ?_)
    rw [pdeIdx_eq, pdeIdx_eq]
    unfold pageSize at hpage
    omega
  have hplace : placeOf va' = placeOf va := by
    refine Fin.ext (show pteIdx va' = pteIdx va from ?_)
    rw [pteIdx_eq, pteIdx_eq, hpage]
  grind [Plain, PhysMem.Plain, translate, not_large, entryAt]

section

variable {entry : Option ℕ} (hentered : Entered s s' va entry)
include hentered

theorem Entered.large_iff : s'.Large va' ↔ s.Large va' := by
  constructor
  · intro hlarge
    by_contra hplain
    exact not_large (hentered.plain va' (not_and_or.mp hplain |>.imp not_not.mp not_not.mp)) hlarge
  grind [hentered.present, Large, hentered.pde]

theorem Entered.translate_eq (hentry : s'.entryAt va' = s.entryAt va') : s'.translate va' = s.translate va' := by
  unfold translate
  by_cases hlarge : s.Large va'
  · rw [if_pos hlarge, if_pos (hentered.large_iff.mpr hlarge), hentered.pde, hentered.present _ hlarge.1]
  · rw [if_neg hlarge, if_neg (hentered.large_iff.not.mpr hlarge), hentry]

theorem Entered.othersKept (hva : PageAddr va) : OthersKept s s' va := by
  intro va' hva' hne
  refine hentered.translate_eq ?_
  rw [Ptb.entryAt, hentered.lookup, if_neg, Ptb.entryAt]
  exact fun heq ↦ hne (page_eq_of_slot_place hva.2 hva' heq.1 heq.2)

end

theorem ptbUnmap_cases (h : s.Inv) (hva : PageAddr va) (hplain : s.Plain va) :
    (¬ s.HasTable va ∧ s.entryAt va = none ∧ s.ptbUnmap va = .ok (.notfound, s)) ∨
      (s.HasTable va ∧ s.entryAt va = none ∧ s.ptbUnmap va = .ok (.ok, s)) ∨
      (s.HasTable va ∧ (s.entryAt va).isSome ∧ ∃ s', s.ptbUnmap va = .ok (.ok, s') ∧ Entered s s' va none) := by
  obtain ⟨pte, hget⟩ := mmuPteGet_eq h hplain
  have hunlock : ({ s with lock := true } : Ptb).spinUnlock = s := by simp [spinUnlock, ← h.unlocked]
  obtain ⟨hnone, hrun⟩ | ⟨hsome, m, hrun, hentered⟩ := mmuUnmap_cases h hva hplain
  · have hcall : s.ptbUnmap va = .ok (if (s.tables.dir (slotOf va)).isSome then .ok else .notfound, s) := by
      simp [ptbUnmap, hva.1, spinLock_of_inv h, hrun, hget, hunlock]
    by_cases htable : (s.tables.dir (slotOf va)).isSome
    · exact .inr (.inl ⟨htable, hnone, by rw [hcall, if_pos htable]⟩)
    · exact .inl ⟨htable, hnone, by rw [hcall, if_neg htable]⟩
  · have htable : s.HasTable va := by
      by_contra htable
      simp [entryAt_of_not_hasTable htable] at hsome
    obtain ⟨f, hf⟩ := Option.isSome_iff_exists.mp htable
    obtain ⟨pte', hget'⟩ := mmuPteGet_eq hentered.inv (hentered.plain va hplain)
    rw [hentered.dir hf] at hget'
    refine .inr (.inr ⟨htable, hsome, { s with mem := m }, ?_, hentered⟩)
    simp [ptbUnmap, hva.1, spinLock_of_inv h, hrun, hget', spinUnlock, h.unlocked]

theorem ptbUnmap_large (h : s.Inv) (hlarge : s.Large va) {err : Errno} (hrun : s.ptbUnmap va = .ok (err, s')) :
    s'.pde = s.pde ∧ (s'.mem = s.mem ∨ ∃ x, s'.mem = s.mem.set x 0) := by
  obtain ⟨_, -, hrun⟩ := bind_eq_ok.mp hrun
  obtain ⟨_, hlock, hrun⟩ := bind_eq_ok.mp hrun
  obtain rfl := Except.ok.inj ((spinLock_of_inv h).symm.trans hlock)
  obtain ⟨⟨err', m⟩, hunmap, hrun⟩ := bind_eq_ok.mp hrun
  obtain ⟨⟨err'', pte⟩, -, hrun⟩ := bind_eq_ok.mp hrun
  cases hrun
  refine ⟨rfl, ?_⟩
  obtain ⟨_, -, hunmap⟩ := bind_eq_ok.mp hunmap
  obtain ⟨_, hget, hunmap⟩ := bind_eq_ok.mp hunmap
  obtain rfl := Except.ok.inj ((get_directory h.directory.unit h.directory.bound va).symm.trans hget)
  rw [if_neg hlarge.1] at hunmap
  obtain ⟨pg, -, hunmap⟩ := bind_eq_ok.mp hunmap
  split_ifs at hunmap
  · cases hunmap
    exact .inl rfl
  · obtain ⟨_, hset, hunmap⟩ := bind_eq_ok.mp hunmap
    cases hunmap
    obtain ⟨_, -, hset⟩ := bind_eq_ok.mp hset
    exact .inr ⟨_, (Except.ok.inj hset).symm⟩

theorem exists_neighbour (hva : va < addressSpace) :
    ∃ va' < addressSpace, va' / pageSize ≠ va / pageSize ∧ slotOf va' = slotOf va := by
  refine ⟨va / largeSize * largeSize + (va % largeSize + pageSize) % largeSize, ?_, ?_, Fin.ext ?_⟩
  · unfold largeSize pageSize addressSpace at *
    omega
  · unfold largeSize pageSize
    omega
  · refine show pdeIdx _ = pdeIdx va from ?_
    rw [pdeIdx_eq, pdeIdx_eq]
    unfold largeSize pageSize
    omega

theorem not_unmapTruthful_of_large (h : s.Inv) (hva : PageAddr va) (hlarge : s.Large va) :
    ¬ s.UnmapTruthful va := by
  rintro ⟨err, s', hrun, -, hremoved, -⟩
  have hmapped : s.Mapped va := by simp [Mapped, translate, if_pos hlarge]
  obtain ⟨hunmapped, hothers⟩ := hremoved hmapped
  have hplain' := plain_of_not_mapped hunmapped
  obtain ⟨hpde, hmem⟩ := ptbUnmap_large h hlarge hrun
  have hword : s'.mem.word (s.pde + slotOf va * 4) ≠ s.mem.word (s.pde + slotOf va * 4) := by
    intro hword
    refine not_large hplain' ?_
    rw [Large, hpde, hword]
    exact hlarge
  have hzero : s'.mem.word (s.pde + slotOf va * 4) = 0 := by
    obtain hmem | ⟨x, hmem⟩ := hmem
    · rw [hmem] at hword
      exact absurd rfl hword
    · by_cases hx : s.pde + slotOf va * 4 = x
      · rw [hmem, hx, word_set_self]
        rfl
      · rw [hmem, word_set_of_ne hx] at hword
        exact absurd rfl hword
  obtain ⟨va', hva', hne, hslot⟩ := exists_neighbour hva.2
  have hsome : (s.translate va').isSome := by
    rw [translate, if_pos (by rw [Large, hslot]; exact hlarge), Option.isSome_some]
  have hnone : s'.translate va' = none := by
    have hdir : s'.tables.dir (slotOf va') = none := by
      simp only [tables, PhysMem.tables, hpde, hslot, hzero]
      rfl
    rw [translate, if_neg (not_large (.inl ?_)), entryAt, TwoLevel.lookup_of_dir_none hdir, Option.map_none]
    rw [hpde, hslot, hzero, Nat.zero_and]
  rw [← hothers va' hva' hne, hnone] at hsome
  cases hsome

/-- `ptb_unmap` reports and does what it should exactly if there is no large page and an address with a table
is mapped. After `ptb_map` of an address that is not mapped it restores every translation, unless
`ptb_map` has found no page for a table. -/
theorem ptbUnmap_truthful_iff (h : s.Inv) (hva : PageAddr va) :
    (s.UnmapTruthful va ↔ s.Plain va ∧ (s.HasTable va → s.Mapped va)) ∧
      ∀ page pa usr wtb, PageAddr pa → (∀ p, page = some p → s.Unused p) → ¬ s.Mapped va →
        (s.UndoesMap page va pa usr wtb ↔ s.HasTable va ∨ page.isSome) := by
  constructor
  · by_cases hplain : s.Plain va
    · have hmapped := mapped_iff hplain
      obtain ⟨htable, hnone, hrun⟩ | ⟨htable, hnone, hrun⟩ | ⟨htable, hsome, s', hrun, hentered⟩ :=
        ptbUnmap_cases h hva hplain
      · have hunmapped : ¬ s.Mapped va := by simp [hmapped, hnone]
        exact iff_of_true ⟨.notfound, s, hrun, iff_of_false (by simp) hunmapped,
          fun hm ↦ absurd hm hunmapped, fun _ ↦ ⟨rfl, rfl⟩⟩ ⟨hplain, fun ht ↦ absurd ht htable⟩
      · have hunmapped : ¬ s.Mapped va := by simp [hmapped, hnone]
        refine iff_of_false ?_ fun hcond ↦ hunmapped (hcond.2 htable)
        rintro ⟨err, s', hrun', hiff, -⟩
        grind
      · have hm : s.Mapped va := hmapped.mpr hsome
        refine iff_of_true ⟨.ok, s', hrun, iff_of_true rfl hm, fun _ ↦ ⟨?_, hentered.othersKept hva⟩,
          fun hunmapped ↦ absurd hm hunmapped⟩ ⟨hplain, fun _ ↦ hm⟩
        rw [mapped_iff (hentered.plain va hplain), hentered.entryAt]
        simp
    grind [not_unmapTruthful_of_large, large_of_not_plain]
  · intro page pa usr wtb hpa hpage hunmapped
    have hplain := plain_of_not_mapped hunmapped
    obtain ⟨htable, rfl, hrun⟩ | ⟨-, hsome, -⟩ | ⟨hserved, hnone, s₁, hrun, hentered, -⟩ :=
      ptbMap_cases h hva hpa hplain hpage usr wtb
    · -- the lock is held, and `ptb_unmap` waits for it
      refine iff_of_false ?_ (by simp [htable])
      rintro ⟨err, s₁, err', s₂, hmap, hunmap, -⟩
      obtain ⟨-, rfl⟩ := ok_pair_inj (hrun.symm.trans hmap)
      obtain ⟨_, -, hunmap⟩ := bind_eq_ok.mp hunmap
      obtain ⟨_, hlock, -⟩ := bind_eq_ok.mp hunmap
      cases hlock
    · exact absurd ((mapped_iff hplain).mpr hsome) hunmapped
    · refine iff_of_true ?_ hserved
      have hplain₁ := hentered.plain va hplain
      have hsome₁ : (s₁.entryAt va).isSome := by
        rw [hentered.entryAt]
        rfl
      obtain ⟨-, hnone₁, -⟩ | ⟨-, hnone₁, -⟩ | ⟨-, -, s₂, hrun₂, hentered₂⟩ :=
        ptbUnmap_cases hentered.inv hva hplain₁
      · simp [hnone₁] at hsome₁
      · simp [hnone₁] at hsome₁
      · refine ⟨.ok, s₁, .ok, s₂, hrun, hrun₂, fun va' hva' ↦ ?_⟩
        by_cases hpage : va' / pageSize = va / pageSize
        · rw [translate_eq_none hplain hnone hpage,
            translate_eq_none (hentered₂.plain va hplain₁) hentered₂.entryAt hpage]
        · rw [hentered₂.othersKept hva va' hva' hpage, hentered.othersKept hva va' hva' hpage]

end Unmap

/-! ### Examples -/

theorem exampleMapped : ∃ s s' : Ptb, s.Inv ∧ s.Plain 0x8048000 ∧ ¬ s.HasTable 0x8048000 ∧ s.Unused 0x4000 ∧
      s.ptbMap (some 0x4000) 0x8048000 0x5000 1 1 = .ok (.ok, s') ∧
      Entered s s' 0x8048000 (some (pxe 0x5000 1 1)) := by
  obtain ⟨s, hinit, hunused, -⟩ := exampleSetup
  obtain ⟨hinv, huser⟩ := init_spec hinit
  obtain ⟨hplain, hdir⟩ := huser 0x8048000 (by decide)
  have htable : ¬ s.HasTable 0x8048000 := by simp [HasTable, hdir]
  obtain ⟨-, hpage, -⟩ | ⟨htable', -⟩ | ⟨-, -, s', hrun, hentered, -⟩ :=
    ptbMap_cases hinv (show PageAddr 0x8048000 by decide) (show PageAddr 0x5000 by decide) hplain
      (fun p (hp : some 0x4000 = some p) ↦ Option.some_inj.mp hp ▸ hunused) 1 1
  all_goals grind

/-- `ptb_unmap` of an address without a table, of a page that is mapped, and after `ptb_map`. -/
theorem ptbUnmap_truthful_example :
    ∃ s s' : Ptb, s.UnmapTruthful 0x8048000 ∧ s.UndoesMap (some 0x4000) 0x8048000 0x5000 1 1 ∧
      s.ptbMap (some 0x4000) 0x8048000 0x5000 1 1 = .ok (.ok, s') ∧ s'.UnmapTruthful 0x8048000 := by
  obtain ⟨s, s', hinv, hplain, htable, hunused, hrun, hentered⟩ := exampleMapped
  have hva : PageAddr 0x8048000 := by decide
  obtain ⟨hiff, hundo⟩ := ptbUnmap_truthful_iff hinv hva
  have hunmapped : ¬ s.Mapped 0x8048000 := by
    rw [mapped_iff hplain, entryAt_of_not_hasTable htable]
    simp
  have hmapped : s'.Mapped 0x8048000 := by
    rw [mapped_iff (hentered.plain _ hplain), hentered.entryAt]
    rfl
  refine ⟨s, s', hiff.mpr ⟨hplain, fun ht ↦ absurd ht htable⟩, ?_, hrun, ?_⟩
  · exact (hundo _ _ 1 1 (by decide) (fun p hp ↦ Option.some_inj.mp hp ▸ hunused) hunmapped).mpr (.inr rfl)
  grind [ptbUnmap_truthful_iff, hentered.inv, hentered.plain]

/-- With a page mapped at `0x8048000`, `ptb_unmap` of the next one returns `E_OK`. -/
theorem ptbUnmap_untruthful : ∃ s : Ptb, s.Inv ∧ ¬ s.Mapped 0x8049000 ∧ s.ptbUnmap 0x8049000 = .ok (.ok, s) ∧
      ¬ s.UnmapTruthful 0x8049000 := by
  obtain ⟨s, s', hinv, hplain, htable, -, -, hentered⟩ := exampleMapped
  have hslot : slotOf 0x8049000 = slotOf 0x8048000 := by decide
  have hplain' : s'.Plain 0x8049000 := by
    rw [Plain, PhysMem.Plain, hslot]
    exact hentered.plain _ hplain
  have hnone : s'.entryAt 0x8049000 = none := by
    have hdir : s.tables.dir (slotOf 0x8048000) = none := by simpa [HasTable] using htable
    rw [entryAt, hentered.lookup, if_neg (by decide), hslot, TwoLevel.lookup_of_dir_none hdir]
  have hunmapped : ¬ s'.Mapped 0x8049000 := by simp [mapped_iff hplain', hnone]
  have htable' : s'.HasTable 0x8049000 := by grind [HasTable, hentered.entryAt, entryAt_of_not_hasTable]
  obtain ⟨htable'', -⟩ | ⟨-, -, hrun⟩ | ⟨-, hsome, -⟩ :=
    ptbUnmap_cases hentered.inv (show PageAddr 0x8049000 by decide) hplain'
  · exact absurd htable' htable''
  · refine ⟨s', hentered.inv, hunmapped, hrun, ?_⟩
    rintro ⟨err, s'', hrun', hiff, -⟩
    grind
  · simp [hnone] at hsome

end Ptb

end Lanthorn
