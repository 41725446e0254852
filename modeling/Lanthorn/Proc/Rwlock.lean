import Lanthorn.Kernel.Basic
import Lanthorn.Library.Run
import Mathlib

/-!
# The spinning readers-writer lock

`spin_read_lock`, `spin_write_lock`, `spin_read_unlock` and `spin_write_unlock` of `spinlock.h`, for any number of
contexts below `2 ^ 31`. A step is one read, compare-exchange, addition or store of the counter, a signed word; the
value that a compare-exchange expects may be stale. `Rwlock.rwlock_contract`: in every interleaving there is one
writer and no reader, or no writer and as many readers as the counter says, and no assertion fails.
-/

namespace Lanthorn

open Function Library

/-- What a context takes the lock for. -/
inductive Access
  | read
  | write
  deriving DecidableEq, Repr

namespace Access

/-- The test of `atomic_add_unless(&lock->lock, 1, -1)` and `atomic_add_if(&lock->lock, -1, 0)`. -/
def may : Access → ℤ → Bool
  | .read, c => c ≠ -1
  | .write, c => c = 0

/-- What they add. -/
def amount : Access → ℤ
  | .read => 1
  | .write => -1

/-- The condition of the assertions. -/
def asserted : Access → ℤ → Bool
  | .read, c => 0 < c
  | .write, c => c = -1

end Access

/-- Where a context stands. -/
inductive RwPoint
  | idle
  /-- Before the read of the counter. -/
  | reads (a : Access)
  /-- After the read of `c`, before the test and the compare-exchange. -/
  | tries (a : Access) (c : ℤ)
  /-- Before the assertion behind the loop. -/
  | taken (a : Access)
  | locked (a : Access)
  /-- After the assertion of the release. -/
  | leaves (a : Access)
  deriving DecidableEq, Repr

/-- What a context has the lock for. -/
def RwPoint.holds : RwPoint → Option Access
  | .taken a | .locked a | .leaves a => some a
  | _ => none

/-- The counter and the contexts. -/
structure Rwlock (ι : Type) where
  lock : ℤ
  point : ι → RwPoint

namespace Rwlock

variable {ι : Type} [DecidableEq ι]

def goto (s : Rwlock ι) (now : ι) (p : RwPoint) : Rwlock ι :=
  { s with point := update s.point now p }

/-- The next step of a context, which calls `spin_read_lock` or `spin_write_lock` if it is idle. -/
def act (s : Rwlock ι) (step : ι × Access) : Result (Rwlock ι) :=
  match s.point step.1 with
  | .idle => .ok (s.goto step.1 (.reads step.2))
  | .reads a => .ok (s.goto step.1 (.tries a s.lock))
  | .tries a c =>
    if ¬ a.may c then .ok (s.goto step.1 (.reads a))
    else if s.lock = c then .ok ({ s with lock := signed (c + a.amount) }.goto step.1 (.taken a))
    else .ok (s.goto step.1 (.tries a s.lock))
  | .taken a => do
    assert (a.asserted s.lock)
    return s.goto step.1 (.locked a)
  | .locked a => do
    assert (a.asserted s.lock)
    return s.goto step.1 (.leaves a)
  | .leaves .read => .ok ({ s with lock := signed (s.lock - 1) }.goto step.1 .idle)
  | .leaves .write => .ok ({ s with lock := 0 }.goto step.1 .idle)

/-- Any interleaving after `spin_rwlock_init`. -/
def system : System (Rwlock ι) (ι × Access) := .ofNext (· = ⟨0, fun _ ↦ .idle⟩) act

variable [Fintype ι] {s : Rwlock ι} {now : ι} {a : Access}

/-- The contexts that have the lock for an access. -/
def holders (point : ι → RwPoint) (a : Access) : Finset ι := Finset.univ.filter fun i ↦ (point i).holds = some a

/-- How many contexts have the lock for an access. -/
def count (point : ι → RwPoint) (a : Access) : ℕ := (holders point a).card

/-- The counter and the contexts that have the lock. -/
structure Inv (s : Rwlock ι) : Prop where
  lock_eq : s.lock = count s.point .read - count s.point .write
  single : count s.point .write ≤ 1
  apart : count s.point .write = 0 ∨ count s.point .read = 0

/-- The contexts with the lock when one context moves. -/
theorem count_update {point : ι → RwPoint} {p : RwPoint} {old new : Option Access} (hold : (point now).holds = old)
    (hnew : p.holds = new) (a : Access) : count (update point now p) a + (if old = some a then 1 else 0) =
      count point a + if new = some a then 1 else 0 := by
  have hmem : now ∈ holders point a ↔ old = some a := by simp [holders, hold]
  have hmove : holders (update point now p) a =
      if new = some a then insert now (holders point a) else (holders point a).erase now := by
    ext i
    simp only [holders, update_apply]
    grind
  rw [count, count, hmove]
  grind [Finset.erase_eq_of_notMem]

section

omit [DecidableEq ι]

theorem count_pos (h : (s.point now).holds = some a) : 0 < count s.point a :=
  Finset.card_pos.mpr ⟨now, by simpa [holders] using h⟩

theorem count_le (point : ι → RwPoint) (a : Access) : count point a ≤ Fintype.card ι := Finset.card_le_univ _

/-- Where a context has the lock, its assertions hold. -/
theorem Inv.asserted (h : s.Inv) (hholds : (s.point now).holds = some a) : a.asserted s.lock := by
  have hpos := count_pos hholds
  obtain ⟨hlock, hsingle, hapart⟩ := h
  cases a <;> simp only [Access.asserted, decide_eq_true_eq] <;> omega

end

/-- A step that takes and releases nothing. -/
theorem Inv.goto (h : s.Inv) {p : RwPoint} (hsame : p.holds = (s.point now).holds) : (s.goto now p).Inv := by
  have hcount : ∀ a, count (s.goto now p).point a = count s.point a := by
    intro a
    exact Nat.add_right_cancel (count_update rfl hsame a)
  obtain ⟨hlock, hsingle, hapart⟩ := h
  constructor <;> simpa only [hcount]

section

variable (h : s.Inv) (hcard : Fintype.card ι < 2 ^ 31)
include h hcard

/-- A compare-exchange that succeeds. -/
theorem Inv.take (hmay : a.may s.lock) (hnone : (s.point now).holds = none) :
    ({ s with lock := signed (s.lock + a.amount) }.goto now (.taken a)).Inv := by
  obtain ⟨hlock, hsingle, hapart⟩ := h
  have hread := count_update hnone (show (RwPoint.taken a).holds = some a from rfl) .read
  have hwrite := count_update hnone (show (RwPoint.taken a).holds = some a from rfl) .write
  have hbound := count_le (update s.point now (.taken a)) .read
  cases a with
  | read =>
    simp [Access.may] at hmay hread hwrite
    have hlock' : signed (s.lock + 1) = s.lock + 1 := signed_of_bound (by omega) (by omega)
    constructor <;> simp only [Rwlock.goto, Access.amount, hlock'] <;> omega
  | write =>
    simp [Access.may] at hmay hread hwrite
    have hlock' : signed (s.lock + -1) = s.lock + -1 := signed_of_bound (by omega) (by omega)
    constructor <;> simp only [Rwlock.goto, Access.amount, hlock'] <;> omega

/-- `atomic_add(&lock->lock, -1)`, and `atomic_set(&lock->lock, 0)`. -/
theorem Inv.leave (hholds : (s.point now).holds = some a) :
    ({ s with lock := if a = Access.read then signed (s.lock - 1) else 0 }.goto now .idle).Inv := by
  have hpos := count_pos hholds
  have hbound := count_le s.point .read
  obtain ⟨hlock, hsingle, hapart⟩ := h
  have hread := count_update hholds (show RwPoint.idle.holds = none from rfl) .read
  have hwrite := count_update hholds (show RwPoint.idle.holds = none from rfl) .write
  cases a with
  | read =>
    simp at hread hwrite
    have hlock' : signed (s.lock - 1) = s.lock - 1 := signed_of_bound (by omega) (by omega)
    constructor <;> simp only [Rwlock.goto, if_true, hlock'] <;> omega
  | write =>
    simp at hread hwrite
    constructor <;> simp only [Rwlock.goto, reduceCtorEq, if_false] <;> omega

/-- Every step keeps the invariant, and none fails. -/
theorem Inv.step (step : ι × Access) :
    ∃ s', s.act step = .ok s' ∧ s'.Inv := by
  obtain ⟨now, b⟩ := step
  unfold act
  dsimp only
  cases hat : s.point now with
  | idle => exact ⟨_, rfl, h.goto (by rw [hat]; rfl)⟩
  | reads a => exact ⟨_, rfl, h.goto (by rw [hat]; rfl)⟩
  | tries a c =>
    dsimp only
    split_ifs with hmay hlock
    · subst hlock
      exact ⟨_, rfl, h.take hcard hmay (by rw [hat]; rfl)⟩
    · exact ⟨_, rfl, h.goto (by rw [hat]; rfl)⟩
    · exact ⟨_, rfl, h.goto (by rw [hat]; rfl)⟩
  | taken a =>
    dsimp only
    rw [assert_of_true (h.asserted (show (s.point now).holds = some a by rw [hat]; rfl))]
    exact ⟨_, rfl, h.goto (by rw [hat]; rfl)⟩
  | locked a =>
    dsimp only
    rw [assert_of_true (h.asserted (show (s.point now).holds = some a by rw [hat]; rfl))]
    exact ⟨_, rfl, h.goto (by rw [hat]; rfl)⟩
  | leaves a =>
    have hleave := h.leave hcard (show (s.point now).holds = some a by rw [hat]; rfl)
    cases a with
    | read => exact ⟨_, rfl, hleave⟩
    | write => exact ⟨_, rfl, hleave⟩

end

/-- Who has the lock, and the assertions. -/
structure Contract (s : Rwlock ι) : Prop where
  /-- One writer and no reader, or no writer and as many readers as the counter says. -/
  holders : (∃ i, s.lock = -1 ∧ ∀ j a, (s.point j).holds = some a ↔ j = i ∧ a = .write) ∨
    (∀ i, (s.point i).holds ≠ some .write) ∧ s.lock = count s.point .read
  /-- No step fails. -/
  returns : ∀ step, ∃ s', s.act step = .ok s'

/-- In every interleaving of fewer than `2 ^ 31` contexts. -/
theorem rwlock_contract (hcard : Fintype.card ι < 2 ^ 31) (h : system.Reachable s) : s.Contract := by
  have hinv : s.Inv := by
    refine h.invariant (P := Inv) (fun s hinit ↦ ?_) fun s step s' hinv hstep ↦ ?_
    · subst hinit
      constructor <;> simp [count, holders, RwPoint.holds]
    · obtain ⟨s'', hrun, hinv'⟩ := hinv.step hcard step
      rwa [Except.ok.inj (hrun.symm.trans hstep)] at hinv'
  refine ⟨?_, fun step ↦ ?_⟩
  · obtain ⟨hlock, hsingle, hapart⟩ := hinv
    by_cases hzero : count s.point .write = 0
    · refine .inr ⟨fun i hi ↦ ?_, by omega⟩
      exact absurd (count_pos hi) (by omega)
    · obtain ⟨i, hi⟩ := Finset.card_eq_one.mp (show count s.point .write = 1 by omega)
      have hread : count s.point .read = 0 := by omega
      refine .inl ⟨i, by omega, fun j a ↦ ⟨fun hj ↦ ?_, ?_⟩⟩
      · cases a with
        | read => exact absurd (count_pos hj) (by omega)
        | write => exact ⟨Finset.mem_singleton.mp (hi ▸ Finset.mem_filter.mpr ⟨Finset.mem_univ j, hj⟩), rfl⟩
      · rintro ⟨rfl, rfl⟩
        exact (Finset.mem_filter.mp (hi.symm.subset (Finset.mem_singleton_self j))).2
  · obtain ⟨s', hrun, -⟩ := hinv.step hcard step
    exact ⟨s', hrun⟩

/-- Two contexts read while a third waits to write. -/
theorem rwlock_contract_example : ∃ s : Rwlock (Fin 3), s.lock = 2 ∧ s.point 2 = .reads .write ∧ s.Contract := by
  have hrun : ([(0, .read), (1, .read), (2, .write), (0, .read), (1, .read), (2, .write), (0, .read), (1, .read),
      (1, .read), (2, .write), (2, .write)].foldlM act (⟨0, fun _ ↦ .idle⟩ : Rwlock (Fin 3))).map
      (fun s ↦ (s.lock, s.point 2)) = .ok (2, .reads .write) := by decide +kernel
  obtain ⟨s, hacts, hview⟩ := map_eq_ok.mp hrun
  obtain ⟨hlock, hpoint⟩ := Prod.mk.inj hview
  exact ⟨s, hlock, hpoint, rwlock_contract (by decide) (System.reachable_of_foldlM (.init rfl) hacts)⟩

end Rwlock

end Lanthorn
