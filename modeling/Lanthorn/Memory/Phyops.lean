import Lanthorn.Memory.Mmu

/-!
# `arch/x86/src/mm/phyops.c`

Copies between physical memory and virtual memory, byte by byte through two windows of one page, `TMP1` and `TMP2`.
A window is the physical page that its entry of the page table holds. It may hold one while its lock is free: boot maps
`TMP2`, and `mmu_pm_get`, `mmu_pm_set` and `mmu_pp_clean` leave `TMP1` mapped. A loop keeps the page of each side in
a window and moves the window on when the next byte lies behind its end.

Memory is physical. A virtual address stands for the physical byte to which `translate` leads it.

Each function is one invariant over its loop (`Copied`), and the three are in `phyops_copies`. Only
`phyops_memcpy_p2p` uses `TMP2`, so the other two leave it as it was (`phyopsMemcpyV2p_leaves_window`).
`phyopsMemcpyP2p_page` says that on a whole page the copy is `PhysMem.memcpyP2p`, which the other modules use.
-/

namespace Lanthorn

open Function

/-- The two windows of `mmu.c`. -/
inductive Tmp
  | one
  | two
  deriving DecidableEq, Repr

/-- Physical memory, the page in each window, and the locks of the windows. -/
structure Windows where
  mem : ℕ → BitVec 8
  page : Tmp → Option ℕ
  locked : Tmp → Bool

namespace Windows

def setTmp (s : Windows) (w : Tmp) (page : Option ℕ) (locked : Bool) : Windows :=
  { s with page := update s.page w page, locked := update s.locked w locked }

/-- `mmu_get_tmp1` and `mmu_get_tmp2`. A lock that is held is never released to its holder. -/
def mmuGetTmp (w : Tmp) (s : Windows) (pa : ℕ) : Result Windows := do
  assert (pa % pageSize = 0)
  if s.locked w then throw .endless
  return s.setTmp w (some pa) true

/-- `mmu_put_tmp1` and `mmu_put_tmp2`. -/
def mmuPutTmp (w : Tmp) (s : Windows) : Windows := s.setTmp w none false

def tmpAddr (s : Windows) (w : Tmp) (offset : ℕ) : Result ℕ :=
  match s.page w with
  | some pp => return pp + offset
  | none => throw .unset

def write (s : Windows) (a : ℕ) (byte : BitVec 8) : Windows := { s with mem := update s.mem a byte }

/-- The start of a round: the window moves on when the byte `i + pa` lies behind its page `pp`. -/
def nextWindow (w : Tmp) (pa i pp : ℕ) (s : Windows) : Result (ℕ × Windows) :=
  if wordAdd i pa ≥ wordAdd pp pageSize then do
    let pp := wordAdd pp pageSize
    let s ← mmuGetTmp w (s.mmuPutTmp w) pp
    return (pp, s)
  else return (pp, s)

/-- A round of `phyops_memcpy_v2p` and `phyops_memcpy_p2v`, which move a byte to or from the window. -/
def tmpRound (pa : ℕ) (move : ℕ → ℕ → Windows → Windows) : ℕ × Windows → ℕ → Result (ℕ × Windows)
  | (pp, s), i => do
    let (pp, s) ← nextWindow .one pa i pp s
    let byte ← s.tmpAddr .one (wordAdd i pa % pageSize)
    return (pp, move i byte s)

/-- `phyops_memcpy_v2p` and `phyops_memcpy_p2v`, but for the way in which a byte is moved. -/
def memcpyTmp (pa size : ℕ) (move : ℕ → ℕ → Windows → Windows) (s : Windows) : Result Windows := do
  let pp := roundDown pa pageSize
  let s ← mmuGetTmp .one s pp
  let (_, s) ← (List.range size).foldlM (tmpRound pa move) (pp, s)
  return s.mmuPutTmp .one

/-- `phyops_memcpy_v2p`. -/
def phyopsMemcpyV2p (translate : ℕ → ℕ) (s : Windows) (pa va size : ℕ) : Result Windows :=
  memcpyTmp pa size (fun i tmp s ↦ s.write tmp (s.mem (translate (wordAdd va i)))) s

/-- `phyops_memcpy_p2v`. -/
def phyopsMemcpyP2v (translate : ℕ → ℕ) (s : Windows) (va pa size : ℕ) : Result Windows :=
  memcpyTmp pa size (fun i tmp s ↦ s.write (translate (wordAdd va i)) (s.mem tmp)) s

/-- A round of `phyops_memcpy_p2p`. -/
def p2pRound (pad pas : ℕ) : (ℕ × ℕ) × Windows → ℕ → Result ((ℕ × ℕ) × Windows)
  | ((ppd, pps), s), i => do
    let (pps, s) ← nextWindow .two pas i pps s
    let (ppd, s) ← nextWindow .one pad i ppd s
    let dst ← s.tmpAddr .one (wordAdd i pad % pageSize)
    let src ← s.tmpAddr .two (wordAdd i pas % pageSize)
    return ((ppd, pps), s.write dst (s.mem src))

/-- `phyops_memcpy_p2p`. -/
def phyopsMemcpyP2p (s : Windows) (pad pas size : ℕ) : Result Windows := do
  let ppd := roundDown pad pageSize
  let pps := roundDown pas pageSize
  let s ← mmuGetTmp .one s ppd
  let s ← mmuGetTmp .two s pps
  let (_, s) ← (List.range size).foldlM (p2pRound pad pas) ((ppd, pps), s)
  return (s.mmuPutTmp .two).mmuPutTmp .one

/-! ### One step -/

/-- The first `count` bytes are copied, and nothing else is changed. -/
structure Copied (mem mem' : ℕ → BitVec 8) (dst src : ℕ → ℕ) (count : ℕ) : Prop where
  copied : ∀ i < count, mem' (dst i) = mem (src i)
  others : ∀ a, (∀ i < count, a ≠ dst i) → mem' a = mem a

theorem Copied.step {mem mem' : ℕ → BitVec 8} {dst src : ℕ → ℕ} {count : ℕ} (h : Copied mem mem' dst src count)
    (hdst : ∀ i < count, dst count ≠ dst i) (hsrc : ∀ i < count, src count ≠ dst i) :
    Copied mem (update mem' (dst count) (mem' (src count))) dst src (count + 1) := by
  obtain ⟨hcopied, hothers⟩ := h
  constructor <;> grind

theorem foldlM_range {σ : Type} {f : σ → ℕ → Result σ} {I : ℕ → σ → Prop} (size : ℕ)
    (hstep : ∀ i < size, ∀ s, I i s → ∃ s', f s i = .ok s' ∧ I (i + 1) s') {s : σ} (h : I 0 s) :
    ∃ s', (List.range size).foldlM f s = .ok s' ∧ I size s' := by
  induction size with
  | zero => exact ⟨s, rfl, h⟩
  | succ size ih =>
    obtain ⟨s₁, hrun₁, h₁⟩ := ih fun i hi ↦ hstep i (by omega)
    obtain ⟨s', hrun, h'⟩ := hstep size (by omega) s₁ h₁
    exact ⟨s', by simp [List.range_succ, hrun₁, hrun], h'⟩

/-- A window holds a page, which is the page of an address or ends just before it. -/
structure Shows (s : Windows) (w : Tmp) (pp addr : ℕ) : Prop where
  page : s.page w = some pp
  locked : s.locked w = true
  aligned : pp % pageSize = 0
  le : pp ≤ addr
  ge : addr ≤ pp + pageSize

theorem Shows.congr {s t : Windows} {w : Tmp} {pp addr : ℕ} (h : s.Shows w pp addr)
    (hpage : t.page w = s.page w) (hlocked : t.locked w = s.locked w) : t.Shows w pp addr :=
  ⟨hpage.trans h.page, hlocked.trans h.locked, h.aligned, h.le, h.ge⟩

/-- Both windows are unmapped and their locks free. -/
def Idle (s : Windows) : Prop := ∀ w, s.page w = none ∧ s.locked w = false

/-- The locks of both windows are free, whatever the windows hold. -/
def Unlocked (s : Windows) : Prop := ∀ w, s.locked w = false

def lastPage : ℕ := addressSpace - pageSize

/-- What mapping a page does: it keeps the memory and the other window. -/
structure Mapped (s s' : Windows) (w : Tmp) : Prop where
  mem : s'.mem = s.mem
  page : ∀ v ≠ w, s'.page v = s.page v
  locked : ∀ v ≠ w, s'.locked v = s.locked v

variable {s : Windows} {w : Tmp} {pa pp i size : ℕ}

theorem mapped_setTmp (s : Windows) (w : Tmp) (page : Option ℕ) (locked : Bool) :
    Mapped s (s.setTmp w page locked) w :=
  ⟨rfl, fun _ hv ↦ by simp [setTmp, hv], fun _ hv ↦ by simp [setTmp, hv]⟩

theorem wordAdd_byte (hbound : pa + i < lastPage) : wordAdd i pa = pa + i := by
  simp only [lastPage, addressSpace, pageSize] at hbound
  rw [wordAdd_of_lt (by simp only [addressSpace]; omega), Nat.add_comm]

theorem mmuGetTmp_spec (h : s.locked w = false) (pa : ℕ) :
    ∃ s', mmuGetTmp w s (roundDown pa pageSize) = .ok s' ∧ s'.Shows w (roundDown pa pageSize) pa ∧
      Mapped s s' w := by
  have haligned : roundDown pa pageSize % pageSize = 0 := Nat.mul_mod_left _ _
  refine ⟨s.setTmp w (some (roundDown pa pageSize)) true, by simp [mmuGetTmp, haligned, h],
    ⟨by simp [setTmp], by simp [setTmp], haligned, ?_, ?_⟩, mapped_setTmp ..⟩
  all_goals
    simp only [roundDown, pageSize]
    omega

theorem nextWindow_spec (h : s.Shows w pp (pa + i)) (hbound : pa + i < lastPage) :
    ∃ pp' s', nextWindow w pa i pp s = .ok (pp', s') ∧ s'.Shows w pp' (pa + i) ∧ pa + i < pp' + pageSize ∧
      Mapped s s' w := by
  have haligned := h.aligned
  have hle := h.le
  have hge := h.ge
  have hnext : wordAdd pp pageSize = pp + pageSize := by
    refine wordAdd_of_lt ?_
    simp only [lastPage, addressSpace, pageSize] at *
    omega
  simp only [nextWindow, hnext, wordAdd_byte hbound]
  split_ifs with hbehind
  · have haligned' : (pp + pageSize) % pageSize = 0 := by rw [Nat.add_mod_right, haligned]
    refine ⟨pp + pageSize, (s.setTmp w none false).setTmp w (some (pp + pageSize)) true,
      by simp [mmuGetTmp, mmuPutTmp, haligned', setTmp], ⟨by simp [setTmp], by simp [setTmp], haligned', ?_, ?_⟩,
      ?_, rfl, fun v hv ↦ by simp [setTmp, hv], fun v hv ↦ by simp [setTmp, hv]⟩
    all_goals
      simp only [pageSize] at *
      omega
  · exact ⟨pp, s, rfl, h, by omega, rfl, fun _ _ ↦ rfl, fun _ _ ↦ rfl⟩

theorem Shows.tmpAddr (h : s.Shows w pp (pa + i)) (hlt : pa + i < pp + pageSize) (hbound : pa + i < lastPage) :
    s.tmpAddr w (wordAdd i pa % pageSize) = .ok (pa + i) := by
  obtain ⟨hpage, -, haligned, hle, -⟩ := h
  simp only [Windows.tmpAddr, hpage, wordAdd_byte hbound, pure_eq, Except.ok.injEq]
  simp only [pageSize] at *
  omega

/-! ### The copies -/

/-- The loop of `phyops_memcpy_v2p` and `phyops_memcpy_p2v`, whose rounds write `dst i` from `src i`. -/
theorem memcpyTmp_copies {move : ℕ → ℕ → Windows → Windows} {dst src : ℕ → ℕ} (hunlocked : s.Unlocked)
    (hbound : pa + size ≤ lastPage) (hmove : ∀ i < size, ∀ t, move i (pa + i) t = t.write (dst i) (t.mem (src i)))
    (hdisjoint : ∀ i < size, ∀ j < size, src i ≠ dst j) (hdistinct : ∀ i < size, ∀ j < size, dst i = dst j → i = j) :
    ∃ s', memcpyTmp pa size move s = .ok s' ∧ s'.page = update s.page .one none ∧ s'.Unlocked ∧
      Copied s.mem s'.mem dst src size := by
  obtain ⟨s₁, hrun₁, hshows₁, hmapped₁⟩ := mmuGetTmp_spec (hunlocked .one) pa
  obtain ⟨⟨pp, s₂⟩, hrun, -, hpage, hlocked, hcopied⟩ := foldlM_range size (f := tmpRound pa move)
    (I := fun i (pp, t) ↦ t.Shows .one pp (pa + i) ∧ t.page .two = s.page .two ∧ t.locked .two = false ∧
      Copied s.mem t.mem dst src i)
    (fun i hi ⟨pp, t⟩ ⟨hshows, hpage, hlocked, hcopied⟩ ↦ by
      obtain ⟨pp', t₁, hrun₁, hshows₁, hlt, hmapped⟩ := nextWindow_spec hshows (by omega)
      refine ⟨(pp', t₁.write (dst i) (t₁.mem (src i))), ?_, ⟨hshows₁.page, hshows₁.locked, hshows₁.aligned, ?_, ?_⟩,
        (hmapped.page .two (by decide)).trans hpage, (hmapped.locked .two (by decide)).trans hlocked, ?_⟩
      · simp [tmpRound, hrun₁, hshows₁.tmpAddr hlt (by omega), hmove i hi]
      · have hle := hshows₁.le
        omega
      · omega
      · rw [← hmapped.mem] at hcopied
        exact hcopied.step (fun j hj heq ↦ absurd (hdistinct i hi j (by omega) heq) (by omega))
          fun j hj ↦ hdisjoint i hi j (by omega))
    (s := (roundDown pa pageSize, s₁)) ⟨hshows₁, hmapped₁.page .two (by decide),
      (hmapped₁.locked .two (by decide)).trans (hunlocked .two), by simp, by simp [hmapped₁.mem]⟩
  refine ⟨s₂.mmuPutTmp .one, by simp [memcpyTmp, hrun₁, hrun], funext fun w ↦ ?_, fun w ↦ ?_, hcopied⟩
  · cases w <;> simp [mmuPutTmp, setTmp, hpage]
  · cases w <;> simp [mmuPutTmp, setTmp, hlocked]

/-- The loop of `phyops_memcpy_p2p`, which has a page in each window. -/
theorem phyopsMemcpyP2p_copies {pad pas : ℕ} (hunlocked : s.Unlocked) (hd : pad + size ≤ lastPage)
    (hs : pas + size ≤ lastPage) (hdisjoint : ∀ i < size, ∀ j < size, pas + i ≠ pad + j) :
    ∃ s', phyopsMemcpyP2p s pad pas size = .ok s' ∧ s'.Idle ∧
      Copied s.mem s'.mem (fun i ↦ pad + i) (fun i ↦ pas + i) size := by
  obtain ⟨s₁, hrun₁, hshows₁, hmapped₁⟩ := mmuGetTmp_spec (hunlocked .one) pad
  obtain ⟨s₂, hrun₂, hshows₂, hmapped₂⟩ :=
    mmuGetTmp_spec (w := .two) ((hmapped₁.locked .two (by decide)).trans (hunlocked .two)) pas
  obtain ⟨⟨pps, s₃⟩, hrun, -, -, hcopied⟩ := foldlM_range size (f := p2pRound pad pas)
    (I := fun i (pps, t) ↦ t.Shows .one pps.1 (pad + i) ∧ t.Shows .two pps.2 (pas + i) ∧
      Copied s.mem t.mem (fun i ↦ pad + i) (fun i ↦ pas + i) i)
    (fun i hi ⟨⟨ppd, pps⟩, t⟩ ⟨hshowsd, hshowss, hcopied⟩ ↦ by
      obtain ⟨pps', t₁, hrun₁, hshows₁, hlt₁, hmapped₁⟩ := nextWindow_spec hshowss (by omega)
      obtain ⟨ppd', t₂, hrun₂, hshows₂, hlt₂, hmapped₂⟩ := nextWindow_spec
        (hshowsd.congr (hmapped₁.page .one (by decide)) (hmapped₁.locked .one (by decide))) (by omega)
      have hshows₁ := hshows₁.congr (hmapped₂.page .two (by decide)) (hmapped₂.locked .two (by decide))
      have hle₁ := hshows₁.le
      have hle₂ := hshows₂.le
      refine ⟨((ppd', pps'), t₂.write (pad + i) (t₂.mem (pas + i))), ?_,
        ⟨hshows₂.page, hshows₂.locked, hshows₂.aligned, by omega, by omega⟩,
        ⟨hshows₁.page, hshows₁.locked, hshows₁.aligned, by omega, by omega⟩, ?_⟩
      · simp [p2pRound, hrun₁, hrun₂, hshows₂.tmpAddr hlt₂ (by omega), hshows₁.tmpAddr hlt₁ (by omega)]
      · rw [← hmapped₁.mem, ← hmapped₂.mem] at hcopied
        exact hcopied.step (by omega) fun j hj ↦ hdisjoint i hi j (by omega))
    (s := ((roundDown pad pageSize, roundDown pas pageSize), s₂))
    ⟨hshows₁.congr (hmapped₂.page .one (by decide)) (hmapped₂.locked .one (by decide)), hshows₂, by simp,
      by simp [hmapped₂.mem, hmapped₁.mem]⟩
  refine ⟨(s₃.mmuPutTmp .two).mmuPutTmp .one, by simp [phyopsMemcpyP2p, hrun₁, hrun₂, hrun], fun w ↦ ?_, hcopied⟩
  cases w <;> simp [mmuPutTmp, setTmp]

theorem wordAdd_virtual {va : ℕ} (hv : va + size ≤ lastPage) (hi : i < size) : wordAdd va i = va + i := by
  rw [wordAdd, Nat.add_comm va i]
  exact (wordAdd_byte (by omega)).trans (Nat.add_comm ..)

theorem phyopsMemcpyV2p_copies {translate : ℕ → ℕ} {va : ℕ} (hunlocked : s.Unlocked) (hp : pa + size ≤ lastPage)
    (hv : va + size ≤ lastPage) (hdisjoint : ∀ i < size, ∀ j < size, translate (va + i) ≠ pa + j) :
    ∃ s', phyopsMemcpyV2p translate s pa va size = .ok s' ∧ s'.page = update s.page .one none ∧
      s'.Unlocked ∧ Copied s.mem s'.mem (fun i ↦ pa + i) (fun i ↦ translate (va + i)) size :=
  memcpyTmp_copies hunlocked hp (fun i hi t ↦ by rw [wordAdd_virtual hv hi]) hdisjoint fun i _ j _ heq ↦ by omega

/-- The three functions copy `size` bytes in order, change no other byte, and leave both locks released.
`phyops_memcpy_p2p` leaves both windows unmapped, the other two unmap `TMP1` and leave `TMP2` as it was.

Assumes: the locks of the windows are free, both ranges end below the last page, the source is disjoint from the
destination, and the bytes of a virtual destination are different ones. -/
theorem phyops_copies (hunlocked : s.Unlocked) (translate : ℕ → ℕ) :
    (∀ pad pas size, pad + size ≤ lastPage → pas + size ≤ lastPage → (∀ i < size, ∀ j < size, pas + i ≠ pad + j) →
      ∃ s', phyopsMemcpyP2p s pad pas size = .ok s' ∧ s'.Idle ∧
        Copied s.mem s'.mem (fun i ↦ pad + i) (fun i ↦ pas + i) size) ∧
    (∀ pa va size, pa + size ≤ lastPage → va + size ≤ lastPage →
      (∀ i < size, ∀ j < size, translate (va + i) ≠ pa + j) →
      ∃ s', phyopsMemcpyV2p translate s pa va size = .ok s' ∧ s'.page = update s.page .one none ∧ s'.Unlocked ∧
        Copied s.mem s'.mem (fun i ↦ pa + i) (fun i ↦ translate (va + i)) size) ∧
    ∀ va pa size, va + size ≤ lastPage → pa + size ≤ lastPage →
      (∀ i < size, ∀ j < size, pa + i ≠ translate (va + j)) →
      (∀ i < size, ∀ j < size, translate (va + i) = translate (va + j) → i = j) →
      ∃ s', phyopsMemcpyP2v translate s va pa size = .ok s' ∧ s'.page = update s.page .one none ∧ s'.Unlocked ∧
        Copied s.mem s'.mem (fun i ↦ translate (va + i)) (fun i ↦ pa + i) size := by
  refine ⟨fun pad pas size hd hs hdisjoint ↦ phyopsMemcpyP2p_copies hunlocked hd hs hdisjoint,
    fun pa va size hp hv hdisjoint ↦ phyopsMemcpyV2p_copies hunlocked hp hv hdisjoint,
    fun va pa size hv hp hdisjoint hdistinct ↦ ?_⟩
  exact memcpyTmp_copies hunlocked hp (fun i hi t ↦ by rw [wordAdd_virtual hv hi]) hdisjoint hdistinct

/-- A copy of two bytes over the end of a page, with both windows mapped before it. -/
theorem phyops_copies_example : ∃ s', phyopsMemcpyP2p ⟨fun a ↦ BitVec.ofNat 8 a, fun _ ↦ some 0x5000, fun _ ↦ false⟩
    4095 20 2 = .ok s' ∧ s'.mem 4095 = 20#8 ∧ s'.mem 4096 = 21#8 ∧ s'.Idle := by
  obtain ⟨s', hrun, hidle, hcopied⟩ :=
    (phyops_copies (s := ⟨fun a ↦ BitVec.ofNat 8 a, fun _ ↦ some 0x5000, fun _ ↦ false⟩) (fun _ ↦ rfl) id).1
      4095 20 2 (by decide) (by decide) (by decide)
  exact ⟨s', hrun, hcopied.copied 0 (by decide), hcopied.copied 1 (by decide), hidle⟩

/-- A window that is mapped before `phyops_memcpy_v2p` can be mapped after it: `TMP2` with the page that boot has
left there. -/
theorem phyopsMemcpyV2p_leaves_window :
    (phyopsMemcpyV2p id ⟨fun a ↦ BitVec.ofNat 8 a, fun _ ↦ some 0x5000, fun _ ↦ false⟩ 0x1000 0x3000 2).map
      (fun s ↦ (s.page .one, s.page .two)) = .ok (none, some 0x5000) := by rfl

/-! ### Whole pages -/

/-- The bytes of a memory of words. -/
def Holds (s : Windows) (m : PhysMem) : Prop := ∀ a, (s.mem a).toNat = m.byte a

theorem Holds.memcpyP2p {s' : Windows} {m : PhysMem} {pad pas : ℕ} (h : s.Holds m) (hpad : pad % pageSize = 0)
    (hpas : pas % pageSize = 0) (hcopied : Copied s.mem s'.mem (fun i ↦ pad + i) (fun i ↦ pas + i) pageSize) :
    s'.Holds (m.memcpyP2p pad pas) := by
  intro a
  by_cases ha : pad ≤ a ∧ a < pad + pageSize
  · obtain ⟨i, rfl⟩ := Nat.exists_eq_add_of_le ha.1
    rw [hcopied.copied i (by omega), h, PhysMem.byte_memcpyP2p hpad hpas (by omega)]
  · rw [hcopied.others a (by omega), h, PhysMem.byte_memcpyP2p_of_outside hpad ha]

/-- On two different pages `phyops_memcpy_p2p` is `PhysMem.memcpyP2p`. -/
theorem phyopsMemcpyP2p_page {m : PhysMem} {pad pas : ℕ} (h : s.Holds m) (hunlocked : s.Unlocked)
    (hpad : pad % pageSize = 0) (hpas : pas % pageSize = 0) (hne : pas ≠ pad) (hd : pad + pageSize ≤ lastPage)
    (hs : pas + pageSize ≤ lastPage) :
    ∃ s', phyopsMemcpyP2p s pad pas pageSize = .ok s' ∧ s'.Idle ∧ s'.Holds (m.memcpyP2p pad pas) := by
  obtain ⟨s', hrun, hidle, hcopied⟩ := phyopsMemcpyP2p_copies hunlocked hd hs (by simp only [pageSize] at *; omega)
  exact ⟨s', hrun, hidle, h.memcpyP2p hpad hpas hcopied⟩

end Windows

end Lanthorn
