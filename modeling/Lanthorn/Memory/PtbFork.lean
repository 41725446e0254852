import Lanthorn.Memory.KernSpace
import Lanthorn.Memory.Ptb

/-!
# `ptb_fork` and the pages of `vm_fork`

`ptb_setup` and `ptb_fork` build the directory of a new process in a page from `page_alloc`. Both copy the kernel
part of the directory of `proc_0`; `ptb_fork` does not clear the page before.

`Ptb.StartsEmpty` says what a new directory should be: no tables and no translations for the user part, the entries
of `proc_0` for the kernel part, and room for every page that `vm_fork` maps. The directory of `ptb_setup` always
is, and that of `ptb_fork` exactly if the page had no present words in its user part
(`Ptb.ptbFork_startsEmpty_iff`). Otherwise what was left in the page translates addresses of the new process
(`Ptb.ptbFork_stale`).
-/

namespace Lanthorn

open Library PhysMem

namespace Ptb

/-- `ptb_fork`, with the directory `kpde` of `proc_0`. -/
def ptbFork (m : PhysMem) (kpde : ℕ) (page : Option ℕ) : Result (Errno × Option Ptb) :=
  match page with
  | none => return (.nomem, none)
  | some pden => do
    let m ← m.mmuSyncKernSpace kpde pden kernBase (addressSpace - kernBase)
    return (.ok, some ⟨m, pden, false⟩)

/-- A `UM_NORMAL` region that `vm_fork` copies: its address and its physical page, the page for the copy,
and the page for a table that `page_alloc` has if `ptb_map` asks for one. -/
structure ForkPage where
  addr : ℕ
  old : ℕ
  page : ℕ
  table : ℕ

/-- A round of the first loop of `vm_fork` on a `UM_NORMAL` region: what `ptb_map` returns, which `vm_fork`
does not look at. -/
def vmForkPage (s : Ptb) (c : ForkPage) : Result (Errno × Ptb) :=
  ({ s with mem := s.mem.memcpyP2p c.page c.old } : Ptb).ptbMap (some c.table) c.addr c.page 1 1

/-- The first loop of `vm_fork` over the `UM_NORMAL` regions. -/
def vmForkPages (s : Ptb) : List ForkPage → Result (List Errno × Ptb)
  | [] => return ([], s)
  | c :: cs => do
    let (err, s) ← s.vmForkPage c
    let (errs, s) ← s.vmForkPages cs
    return (err :: errs, s)

/-- `page_alloc` returns pages that are not in use. -/
def Supplied (s : Ptb) : List ForkPage → Prop
  | [] => True
  | c :: cs => s.Unused c.page ∧ s.Unused c.table ∧
    ∀ err s', s.vmForkPage c = .ok (err, s') → s'.Supplied cs

def UserPages (cs : List ForkPage) : Prop :=
  (cs.map ForkPage.addr).Nodup ∧ ∀ c ∈ cs, PageAddr c.addr ∧ c.addr < kernBase

/-- A directory for a new process: there are no tables and no translations for the user part, the entries
for the kernel part are those of `proc_0`, and every `ptb_map` of `vm_fork` succeeds. -/
structure StartsEmpty (s : Ptb) (kpde : ℕ) : Prop where
  noTable : ∀ va < kernBase, s.mem.mmuPteGet s.pde va = .ok (.notfound, none)
  untranslated : ∀ va < kernBase, s.v2p va = .ok (.notfound, none)
  kernel : ∀ va, kernBase ≤ va → va < addressSpace → s.mem.SameEntry kpde s.pde va
  maps : ∀ cs, UserPages cs → s.Supplied cs → ∃ errs s', s.vmForkPages cs = .ok (errs, s') ∧ ∀ err ∈ errs, err = .ok

section Fork

variable {s : Ptb} {m m' : PhysMem} {kpde p : ℕ}

/-! ### The pages of `vm_fork` -/

theorem Inv.of_agree (h : s.Inv) (hp : s.Unused p)
    (hagree : ∀ x, x < p ∨ p + pageSize ≤ x → m'.word x = s.mem.word x) :
    ({ s with mem := m' } : Ptb).Inv ∧ ({ s with mem := m' } : Ptb).tables.dir = s.tables.dir ∧
      (∀ va, ({ s with mem := m' } : Ptb).Plain va ↔ s.Plain va) ∧
      ∀ i j, ({ s with mem := m' } : Ptb).tables.lookup i j = s.tables.lookup i j := by
  obtain ⟨⟨hunit, -⟩, hne, hfresh⟩ := hp
  have hpde := h.directory.unit
  have hword : ∀ (f : ℕ) (j : Fin 1024), f * pageSize ≠ p →
      m'.word (f * pageSize + j * 4) = s.mem.word (f * pageSize + j * 4) := by
    intro f j hf
    have hj := j.isLt
    refine hagree _ ?_
    unfold pageSize at *
    omega
  have hdirword : ∀ i : Fin 1024, m'.word (s.pde + i * 4) = s.mem.word (s.pde + i * 4) := by grind [pageSize]
  have hdir : (m'.tables s.pde).dir = (s.mem.tables s.pde).dir := by
    funext i
    simp only [PhysMem.tables, hdirword]
  refine ⟨⟨h.unlocked, hpde, h.directory.bound, ?_, ?_⟩, hdir, fun va ↦ ?_, fun i j ↦ ?_⟩
  · exact fun i i' f hf hf' ↦ h.directory.exclusive i i' f (hdir ▸ hf) (hdir ▸ hf')
  · exact fun i f hf ↦ h.directory.apart i f (hdir ▸ hf)
  · simp only [Plain, PhysMem.Plain, hdirword]
  · cases hf : (s.mem.tables s.pde).dir i with
    | none => rw [tables, tables, TwoLevel.lookup_of_dir_none (hdir ▸ hf), TwoLevel.lookup_of_dir_none hf]
    | some f =>
      have hfp : f * pageSize ≠ p := by
        rintro rfl
        exact hfresh i (by rw [Nat.mul_div_cancel _ (by decide)]; exact hf)
      rw [tables, tables, TwoLevel.lookup_of_dir (hdir ▸ hf), TwoLevel.lookup_of_dir hf]
      simp only [PhysMem.tables, hword f j hfp]

theorem vmForkPage_ok (h : s.Inv) {c : ForkPage} (haddr : PageAddr c.addr) (hplain : s.Plain c.addr)
    (hnone : s.entryAt c.addr = none) (hpage : s.Unused c.page) (htable : s.Unused c.table) :
    ∃ s', s.vmForkPage c = .ok (.ok, s') ∧ s'.Inv ∧ (∀ va, s.Plain va → s'.Plain va) ∧
      ∀ va, PageAddr va → va ≠ c.addr → s'.entryAt va = s.entryAt va := by
  obtain ⟨hinv, hdir, hplain', hlookup⟩ :=
    h.of_agree hpage (show ∀ x, x < c.page ∨ c.page + pageSize ≤ x →
      (s.mem.memcpyP2p c.page c.old).word x = s.mem.word x from fun x hx ↦ if_neg (by omega))
  have htable' : ({ s with mem := s.mem.memcpyP2p c.page c.old } : Ptb).Unused c.table :=
    ⟨htable.1, htable.2.1, fun i ↦ by rw [hdir]; exact htable.2.2 i⟩
  obtain ⟨-, hpage', -⟩ | ⟨-, hsome, -⟩ | ⟨-, -, s', hrun, hentered, -⟩ :=
    ptbMap_cases hinv haddr hpage.1 ((hplain' _).mpr hplain)
      (fun q (hq : some c.table = some q) ↦ Option.some_inj.mp hq ▸ htable') 1 1
  · cases hpage'
  · rw [entryAt, hlookup] at hsome
    simp [entryAt] at hnone
    simp [hnone] at hsome
  · refine ⟨s', hrun, hentered.inv, fun va hva ↦ hentered.plain va ((hplain' va).mpr hva), fun va hva hne ↦ ?_⟩
    rw [entryAt, hentered.lookup, if_neg fun heq ↦ hne (eq_of_slot_place haddr hva heq.1 heq.2), hlookup, entryAt]

theorem vmForkPages_ok (h : s.Inv) {cs : List ForkPage} (hplain : ∀ va < kernBase, s.Plain va)
    (hpages : UserPages cs) (hnone : ∀ c ∈ cs, s.entryAt c.addr = none) (hsupplied : s.Supplied cs) :
    ∃ errs s', s.vmForkPages cs = .ok (errs, s') ∧ ∀ err ∈ errs, err = .ok := by
  induction cs generalizing s with
  | nil => exact ⟨[], s, rfl, nofun⟩
  | cons c cs ih =>
    obtain ⟨hnodup, huser⟩ := hpages
    obtain ⟨hfirst, hnodup⟩ := List.nodup_cons.mp hnodup
    obtain ⟨haddr, hlow⟩ := huser c List.mem_cons_self
    obtain ⟨hpage, htable, hrest⟩ := hsupplied
    obtain ⟨s₁, hrun₁, hinv₁, hplain₁, hkept₁⟩ :=
      vmForkPage_ok h haddr (hplain _ hlow) (hnone c List.mem_cons_self) hpage htable
    have hnone₁ : ∀ c' ∈ cs, s₁.entryAt c'.addr = none := by grind
    obtain ⟨errs, s', hrun, hok⟩ := ih hinv₁ (fun va hva ↦ hplain₁ va (hplain va hva))
      ⟨hnodup, fun c' hc' ↦ huser c' (List.mem_cons_of_mem _ hc')⟩ hnone₁ (hrest _ _ hrun₁)
    refine ⟨.ok :: errs, s', ?_, List.forall_mem_cons.mpr ⟨rfl, hok⟩⟩
    simp [vmForkPages, hrun₁, hrun]

/-! ### New directories -/

theorem slotOf_lt_iff {va : ℕ} (h : va < addressSpace) : (slotOf va : ℕ) < 768 ↔ va < kernBase := by
  rw [slotOf_eq h]
  unfold kernBase
  omega

theorem startsEmpty_of_words (hkern : m.Directory kpde) (hp : Spare m kpde p)
    (hkept : ∀ i < 1024, m'.word (kpde + i * 4) = m.word (kpde + i * 4))
    (hkernel : ∀ i < 1024, 768 ≤ i → m'.word (p + i * 4) = m.word (kpde + i * 4))
    (huser : ∀ i < 768, m'.word (p + i * 4) &&& ptP = 0) : StartsEmpty ⟨m', p, false⟩ kpde := by
  obtain ⟨⟨hunit, hlt⟩, -, hspare⟩ := hp
  have habsent : ∀ va < kernBase, m'.word (p + slotOf va * 4) &&& ptP = 0 := fun va hva ↦
    huser _ ((slotOf_lt_iff (by unfold kernBase addressSpace at *; omega)).mpr hva)
  have hdir : ∀ (i : Fin 1024) f, (m'.tables p).dir i = some f → (m.tables kpde).dir i = some f := by
    grind [tableOf_eq_some, PhysMem.tables]
  have hinv : Inv ⟨m', p, false⟩ := by
    refine ⟨rfl, hunit, hlt, ?_, ?_⟩
    · exact fun i i' f hf hf' ↦ hkern.exclusive i i' f (hdir i f hf) (hdir i' f hf')
    · rintro i f hf rfl
      refine hspare i ?_
      rw [Nat.mul_div_cancel _ (by decide)]
      exact hdir i f hf
  have hplain : ∀ va < kernBase, Plain ⟨m', p, false⟩ va := fun va hva ↦ .inl (habsent va hva)
  have hnone : ∀ va < kernBase, entryAt ⟨m', p, false⟩ va = none := by
    intro va hva
    refine TwoLevel.lookup_of_dir_none ?_ _
    simp [tables, PhysMem.tables, tableOf, habsent va hva]
  refine ⟨fun va hva ↦ ?_, fun va hva ↦ ?_, fun va hva hva' ↦ ?_, fun cs hpages hsupplied ↦ ?_⟩
  · rw [mmuPteGet, assert_of_true hunit, get_directory hunit hlt]
    simp [habsent va hva]
  · exact (v2p_eq_notfound hinv (hplain va hva)).mpr (hnone va hva)
  · grind [slotOf_lt_iff, SameEntry]
  · exact vmForkPages_ok hinv hplain hpages (fun c hc ↦ hnone _ (hpages.2 c hc).2) hsupplied

theorem syncKernel_spec (m : PhysMem) (hkpde : kpde % pageSize = 0 ∧ kpde < addressSpace)
    (hp : p % pageSize = 0 ∧ p < addressSpace) :
    ∃ m', m.mmuSyncKernSpace kpde p kernBase (addressSpace - kernBase) = .ok m' ∧
      (∀ i < 1024, m'.word (kpde + i * 4) = m.word (kpde + i * 4)) ∧
      (∀ i < 1024, 768 ≤ i → m'.word (p + i * 4) = m.word (kpde + i * 4)) ∧
      ∀ i < 768, m'.word (p + i * 4) = m.word (p + i * 4) := by
  have hfirst : kernBase / 4194304 = 768 := by decide
  have hrounds : syncRounds (addressSpace - kernBase) = 256 := by decide
  obtain ⟨m', hrun, hkept, hentry⟩ := mmuSyncKernSpace_spec m hkpde hp (Nat.le_refl kernBase)
    (show kernBase + (addressSpace - kernBase) ≤ addressSpace by decide)
  grind

/-- The directory that `ptb_setup` builds is always as it should be. That of `ptb_fork` is exactly if no
word of the user part of its page was present before. -/
theorem ptbFork_startsEmpty_iff (hkern : m.Directory kpde) (hp : Spare m kpde p) :
    (∃ s, ptbSetup m kpde (some p) = .ok (.ok, some s) ∧ s.StartsEmpty kpde) ∧
      ∃ s, ptbFork m kpde (some p) = .ok (.ok, some s) ∧
        (s.StartsEmpty kpde ↔ ∀ i < 768, m.word (p + i * 4) &&& ptP = 0) := by
  obtain ⟨⟨hunit, hlt⟩, hne, -⟩ := id hp
  refine ⟨?_, ?_⟩
  · obtain ⟨m', hrun, hkept, hkernel, huser⟩ :=
      syncKernel_spec (m.clean p) ⟨hkern.unit, hkern.bound⟩ ⟨hunit, hlt⟩
    have hclean : ∀ i < 1024, (m.clean p).word (kpde + i * 4) = m.word (kpde + i * 4) := fun i hi ↦
      word_clean_directory hkern.unit hunit hne ⟨i, hi⟩
    refine ⟨⟨m', p, false⟩, ?_, startsEmpty_of_words hkern hp (fun i hi ↦ ?_) (fun i hi hhigh ↦ ?_) fun i hi ↦ ?_⟩
    · simp [ptbSetup, mmuPpClean, hunit, hrun]
    · rw [hkept i hi, hclean i hi]
    · rw [hkernel i hi hhigh, hclean i hi]
    · have hzero : (m.clean p).word (p + i * 4) = 0 := if_pos ⟨by omega, by unfold pageSize; omega⟩
      rw [huser i hi, hzero, Nat.zero_and]
  · obtain ⟨m', hrun, hkept, hkernel, huser⟩ := syncKernel_spec m ⟨hkern.unit, hkern.bound⟩ ⟨hunit, hlt⟩
    refine ⟨⟨m', p, false⟩, ?_, fun hempty i hi ↦ ?_, fun hclean ↦ startsEmpty_of_words hkern hp hkept
      hkernel fun i hi ↦ by rw [huser i hi, hclean i hi]⟩
    · simp [ptbFork, hrun]
    · -- a present word is a table for its slot
      have hva : i * 4194304 < kernBase := by
        unfold kernBase
        omega
      have hslot : (slotOf (i * 4194304) : ℕ) = i := by
        rw [slotOf_eq (by unfold kernBase addressSpace at *; omega)]
        omega
      have hget := hempty.noTable _ hva
      rw [mmuPteGet, assert_of_true hunit, get_directory hunit hlt, hslot] at hget
      rw [← huser i hi]
      by_contra hpresent
      simp [hpresent] at hget

end Fork

/-! ### Examples -/

/-- A fork with a clean page at `0x2000`. -/
theorem ptbFork_startsEmpty_example :
    ∃ s, ptbFork exampleMem 0x1000 (some 0x2000) = .ok (.ok, some s) ∧ s.StartsEmpty 0x1000 := by
  obtain ⟨-, s, hrun, hiff⟩ := ptbFork_startsEmpty_iff exampleMem_directory exampleMem_spare
  refine ⟨s, hrun, hiff.mpr fun i hi ↦ ?_⟩
  have hne : 0x2000 + i * 4 ≠ 0x1000 + 768 * 4 := by omega
  rw [exampleMem, word_set_of_ne hne]
  exact Nat.zero_and _

/-- The page at `0x2000` still holds a word for a table at `0x6000`, with the page `0x9000` at
`0x8048000`. -/
def exampleStale : PhysMem :=
  (exampleMem.set (0x2000 + 32 * 4) 0x6007).set (0x6000 + 0x48 * 4) 0x9007

/-- After a fork with the page at `0x2000`, the new process reaches the page `0x9000`, and `vm_fork` cannot
map its own page there. -/
theorem ptbFork_stale : ∃ s s', exampleStale.Directory 0x1000 ∧ Spare exampleStale 0x1000 0x2000 ∧
      ptbFork exampleStale 0x1000 (some 0x2000) = .ok (.ok, some s) ∧ s.v2p 0x8048000 = .ok (.ok, some 0x9000) ∧
      s.vmForkPages [⟨0x8048000, 0xA000, 0x4000, 0x5000⟩] = .ok ([.exist], s') ∧ ¬ s.StartsEmpty 0x1000 := by
  have hdir : (exampleStale.tables 0x1000).dir = (exampleMem.tables 0x1000).dir := by
    grind [PhysMem.tables, exampleStale, word_set_of_ne]
  have hdirectory : exampleStale.Directory 0x1000 :=
    ⟨by decide, by decide, by unfold TwoLevel.Exclusive; rw [hdir]; exact exampleMem_directory.exclusive,
      by rw [hdir]; exact exampleMem_directory.apart⟩
  have hspare : Spare exampleStale 0x1000 0x2000 :=
    ⟨by decide, by decide, by rw [hdir]; exact exampleMem_spare.2.2⟩
  obtain ⟨m', hsync, -⟩ := syncKernel_spec exampleStale ⟨hdirectory.unit, hdirectory.bound⟩ hspare.1
  have hfork : ptbFork exampleStale 0x1000 (some 0x2000) = .ok (.ok, some ⟨m', 0x2000, false⟩) := by
    simp [ptbFork, hsync]
  have hview : (do
      let m' ← exampleStale.mmuSyncKernSpace 0x1000 0x2000 kernBase (addressSpace - kernBase)
      let found ← v2p ⟨m', 0x2000, false⟩ 0x8048000
      let (errs, _) ← vmForkPages ⟨m', 0x2000, false⟩ [⟨0x8048000, 0xA000, 0x4000, 0x5000⟩]
      return (found, errs) : Result _) = .ok ((.ok, some 0x9000), [.exist]) := by decide +kernel
  obtain ⟨_, hsync', hview⟩ := bind_eq_ok.mp hview
  obtain rfl := Except.ok.inj (hsync.symm.trans hsync')
  obtain ⟨found, hfound, hview⟩ := bind_eq_ok.mp hview
  obtain ⟨⟨errs, s'⟩, hpages, hview⟩ := bind_eq_ok.mp hview
  cases hview
  refine ⟨_, s', hdirectory, hspare, hfork, hfound, hpages, fun hempty ↦ ?_⟩
  have hnone := hempty.untranslated 0x8048000 (by decide)
  rw [hfound] at hnone
  cases hnone

end Ptb

end Lanthorn
