import Lanthorn.Proc.Schd
import Mathlib.Data.Fintype.Basic
import Mathlib.Data.Finset.Card

/-!
# The kernel mutex

Model of `mutex.c` for any number of threads that lock and unlock one mutex. Each thread stands at a point of the
code, and a step of a thread takes it to its next point: the steps are the acquisitions of `mutex->lock`, what is
done under it up to the next atomic operation on `count`, the atomic operations, the marking of the thread as
`BLOCKED` together with the release of `mutex->lock` in `schd_block`, and the `schd_run` at the end of a hand-off.
Between its steps a thread may be preempted at any time.

`Mutex.mutex_contract` is the contract in every reachable state, and `Mutex.blocked_depends` says that no wake-up
is lost.
-/

namespace Lanthorn

open Function Library

/-- Where a thread stands in `mutex_lock` and `mutex_unlock`. -/
inductive MutexPoint (τ : Type)
  /-- Not in the mutex: before the first `mutex_lock`, or after a `mutex_unlock`. -/
  | idle
  /-- `mutex_lock` before `spin_lock`. -/
  | lockSpin
  /-- `mutex_lock` before the first assertion and `atomic_sub_and_test`. -/
  | lockTest
  /-- `mutex_lock` where `atomic_sub_and_test` was true. -/
  | lockFree
  /-- `mutex_lock` where it was not, before `list_push_back`. -/
  | lockBusy
  /-- `mutex_lock` before `schd_block` marks the thread. -/
  | lockQueued
  /-- `mutex_lock` in `schd_block` or after it, before the last assertion. -/
  | lockWait
  /-- Between the return of `mutex_lock` and the call of `mutex_unlock`. -/
  | holding
  /-- `mutex_unlock` before the assertion and `owner = NULL`. -/
  | unlockOwner
  /-- `mutex_unlock` before `atomic_add_return`. -/
  | unlockAdd
  /-- `mutex_unlock` before `spin_lock`. -/
  | unlockSpin
  /-- `mutex_unlock` before `list_pop_front`. -/
  | unlockPop
  /-- `mutex_unlock` before `schd_run`. -/
  | unlockRun (thread : τ)
  deriving DecidableEq, Repr

namespace MutexPoint

variable {τ : Type}

/-- Whether `mutex->lock` is held at a point. -/
def HoldsLock : MutexPoint τ → Prop
  | .lockTest | .lockFree | .lockBusy | .lockQueued | .unlockPop => True
  | _ => False

/-- Whether a thread holds, waits for or is being handed the mutex: it has counted itself in `count`
and not yet out again. -/
def Engaged : MutexPoint τ → Prop
  | .lockFree | .lockBusy | .lockQueued | .lockWait | .holding | .unlockOwner | .unlockAdd => True
  | _ => False

instance (p : MutexPoint τ) : Decidable p.Engaged := by cases p <;> unfold Engaged <;> infer_instance

def Bears : MutexPoint τ → Prop
  | .lockFree | .holding | .unlockOwner | .unlockAdd | .unlockSpin | .unlockPop => True
  | _ => False

end MutexPoint

structure Mutex (τ : Type) where
  count : ℤ
  /-- `mutex->lock`: the thread that holds it. -/
  lock : Option τ
  waitLs : List τ
  owner : Option τ
  /-- The `state` of the threads. -/
  state : τ → ThreadState
  point : τ → MutexPoint τ
  /-- The threads put into `wait_ls` and taken from it, in this order. -/
  enqueued : List τ
  granted : List τ

namespace Mutex

variable {τ : Type} [DecidableEq τ]

def goto (m : Mutex τ) (now : τ) (at' : MutexPoint τ) : Mutex τ :=
  { m with point := update m.point now at' }

def setState (m : Mutex τ) (t : τ) (st : ThreadState) : Mutex τ :=
  { m with state := update m.state t st }

/-- `spin_lock`: the thread spins while the lock is held. -/
def spinLock (m : Mutex τ) (now : τ) (at' : MutexPoint τ) : Mutex τ :=
  if m.lock = none then { m with lock := some now }.goto now at' else m

/-- The assertion of `mutex_lock` and its `atomic_sub_and_test`. -/
def lockTest (m : Mutex τ) (now : τ) : Result (Mutex τ) := do
  assert (m.owner ≠ some now)
  let m' := { m with count := m.count - 1 }
  return m'.goto now (if m'.count = 0 then .lockFree else .lockBusy)

/-- The assertion of `mutex_unlock` and `owner = NULL`. -/
def unlockOwner (m : Mutex τ) (now : τ) : Result (Mutex τ) := do
  assert (m.owner = some now)
  return { m with owner := none }.goto now .unlockAdd

/-- `atomic_add_return` of `mutex_unlock`. -/
def unlockAdd (m : Mutex τ) (now : τ) : Mutex τ :=
  let m' := { m with count := m.count + 1 }
  m'.goto now (if m'.count = 1 then .idle else .unlockSpin)

/-- `list_pop_front` of `mutex_unlock`, with the new owner and `spin_unlock`. On an empty list there is
no thread behind the node that it returns. -/
def unlockPop (m : Mutex τ) (now : τ) : Result (Mutex τ) :=
  match m.waitLs with
  | [] => .error .unset
  | t :: rest =>
    .ok ({ m with
      waitLs := rest
      owner := some t
      lock := none
      granted := m.granted ++ [t] }.goto now (.unlockRun t))

/-- The last assertion of `mutex_lock`. -/
def lockWait (m : Mutex τ) (now : τ) : Result (Mutex τ) := do
  assert (m.owner = some now)
  return m.goto now .holding

/-- The `schd_run` of `mutex_unlock`. -/
def unlockRun (m : Mutex τ) (now t : τ) : Result (Mutex τ) := do
  let st ← (m.state t).run
  return (m.setState t st).goto now .idle

def exec (m : Mutex τ) (now : τ) : Result (Mutex τ) :=
  match m.point now with
  | .idle => .ok (m.goto now .lockSpin)
  | .lockSpin => .ok (m.spinLock now .lockTest)
  | .lockTest => m.lockTest now
  | .lockFree => .ok ({ m with owner := some now, lock := none }.goto now .holding)
  | .lockBusy =>
    .ok ({ m with
      waitLs := m.waitLs ++ [now]
      enqueued := m.enqueued ++ [now] }.goto now .lockQueued)
  | .lockQueued => .ok ({ m.setState now .blocked with lock := none }.goto now .lockWait)
  | .lockWait => m.lockWait now
  | .holding => .ok (m.goto now .unlockOwner)
  | .unlockOwner => m.unlockOwner now
  | .unlockAdd => .ok (m.unlockAdd now)
  | .unlockSpin => .ok (m.spinLock now .unlockPop)
  | .unlockPop => m.unlockPop now
  | .unlockRun t => m.unlockRun now t

/-- What happens next: a running thread makes a step, or the scheduler starts or stops one. -/
inductive Action (τ : Type)
  | exec (now : τ)
  | schdule (t : τ)
  | preempt (t : τ)
  deriving DecidableEq, Repr

/-- The outcome of an action; a thread makes a step only while it is `RUNNING`. -/
def act (m : Mutex τ) : Action τ → Result (Mutex τ)
  | .exec now => do
    assert (m.state now = .running)
    m.exec now
  | .schdule t => do
    assert (m.state t = .runnabel)
    return m.setState t .running
  | .preempt t => do
    assert (m.state t = .running)
    return m.setState t .runnabel

/-- After `mutex_init`, with threads of which each is runnable or running. -/
structure Init (m : Mutex τ) : Prop where
  count : m.count = 1
  lock : m.lock = none
  waitLs : m.waitLs = []
  owner : m.owner = none
  enqueued : m.enqueued = []
  granted : m.granted = []
  idle : ∀ t, m.point t = .idle
  state : ∀ t, m.state t = .runnabel ∨ m.state t = .running

def system (τ : Type) [DecidableEq τ] : System (Mutex τ) (Action τ) := .ofNext Init act

/-! ### The invariant -/

def Handed (m : Mutex τ) (t : τ) : Prop := m.point t = .lockWait ∧ t ∉ m.waitLs

def Bearer (m : Mutex τ) (t : τ) : Prop := (m.point t).Bears ∨ m.Handed t

def engaged [Fintype τ] (m : Mutex τ) : Finset τ :=
  Finset.univ.filter fun t ↦ (m.point t).Engaged

/-- How the points of the threads, their states, the lists and the two owners fit together. -/
structure PointInv (m : Mutex τ) : Prop where
  lock_iff : ∀ t, m.lock = some t ↔ (m.point t).HoldsLock
  owner_iff : ∀ t, m.owner = some t ↔ m.point t = .holding ∨ m.point t = .unlockOwner ∨ m.Handed t
  nodup : m.waitLs.Nodup
  of_mem : ∀ t ∈ m.waitLs, m.point t = .lockQueued ∨ m.point t = .lockWait
  queued_mem : ∀ t, m.point t = .lockQueued → t ∈ m.waitLs
  waiting_blocked : ∀ t ∈ m.waitLs, m.point t = .lockWait → m.state t = .blocked
  -- A thread that is about to be woken has been handed the mutex and is still blocked.
  run_blocked : ∀ t u, m.point t = .unlockRun u → m.Handed u ∧ m.state u = .blocked
  run_unique : ∀ t t' u, m.point t = .unlockRun u → m.point t' = .unlockRun u → t = t'
  bearer_unique : ∀ t u, m.Bearer t → m.Bearer u → t = u
  bearer_iff : m.count ≤ 0 ↔ ∃ t, m.Bearer t

structure Inv [Fintype τ] (m : Mutex τ) : Prop where
  points : m.PointInv
  count_eq : m.count = 1 - m.engaged.card
  fifo : m.enqueued = m.granted ++ m.waitLs

section Steps

variable {m m' : Mutex τ} {now t : τ}

omit [DecidableEq τ] in
theorem PointInv.blocked_of_mem (h : m.PointInv) (hat : m.point now = .unlockPop) (ht : t ∈ m.waitLs) :
    m.point t = .lockWait ∧ m.state t = .blocked := by
  have hne : m.point t ≠ .lockQueued := fun hqueued ↦ by
    have hnow := (h.lock_iff now).mpr (by rw [hat]; trivial)
    have ht := (h.lock_iff t).mpr (by rw [hqueued]; trivial)
    obtain rfl := Option.some_inj.mp (hnow.symm.trans ht)
    simp [hat] at hqueued
  grind [h.of_mem, h.waiting_blocked]

/-! ### One step of a thread -/

/-- What a step does, one case for each way in which it succeeds. -/
inductive Step (m : Mutex τ) (now : τ) : Mutex τ → Prop
  | call (hat : m.point now = .idle) : Step m now (m.goto now .lockSpin)
  | lock (hat : m.point now = .lockSpin) (hfree : m.lock = none) :
    Step m now ({ m with lock := some now }.goto now .lockTest)
  | spin : Step m now m
  | test (hat : m.point now = .lockTest) : Step m now ({ m with count := m.count - 1 }.goto now
      (if m.count - 1 = 0 then .lockFree else .lockBusy))
  | own (hat : m.point now = .lockFree) :
    Step m now ({ m with owner := some now, lock := none }.goto now .holding)
  | push (hat : m.point now = .lockBusy) : Step m now ({ m with
      waitLs := m.waitLs ++ [now], enqueued := m.enqueued ++ [now] }.goto now .lockQueued)
  | block (hat : m.point now = .lockQueued) :
    Step m now ({ m.setState now .blocked with lock := none }.goto now .lockWait)
  | wake (hat : m.point now = .lockWait) : Step m now (m.goto now .holding)
  | release (hat : m.point now = .holding) : Step m now (m.goto now .unlockOwner)
  | disown (hat : m.point now = .unlockOwner) :
    Step m now ({ m with owner := none }.goto now .unlockAdd)
  | add (hat : m.point now = .unlockAdd) : Step m now ({ m with count := m.count + 1 }.goto now
      (if m.count + 1 = 1 then .idle else .unlockSpin))
  | relock (hat : m.point now = .unlockSpin) (hfree : m.lock = none) :
    Step m now ({ m with lock := some now }.goto now .unlockPop)
  | pop {t : τ} {rest : List τ} (hat : m.point now = .unlockPop) (hwait : m.waitLs = t :: rest) :
    Step m now ({ m with
      waitLs := rest, owner := some t, lock := none, granted := m.granted ++ [t] }.goto now
        (.unlockRun t))
  | run {t : τ} (hat : m.point now = .unlockRun t) :
    Step m now ((m.setState t .runnabel).goto now .idle)

theorem step_of_exec (hexec : m.exec now = .ok m') : m.Step now m' := by
  unfold exec at hexec
  cases hat : m.point now <;>
    simp only [hat, lockTest, lockWait, unlockOwner, unlockPop, unlockAdd, unlockRun, spinLock,
      bind_eq_ok, assert_eq_ok, ThreadState.run_eq_ok, Except.ok.injEq, exists_const, pure_eq] at hexec
  case idle => exact hexec ▸ .call hat
  case lockSpin => split_ifs at hexec with hfree <;> subst hexec; exacts [.lock hat hfree, .spin]
  case lockTest => exact hexec.2 ▸ .test hat
  case lockFree => exact hexec ▸ .own hat
  case lockBusy => exact hexec ▸ .push hat
  case lockQueued => exact hexec ▸ .block hat
  case lockWait => exact hexec.2 ▸ .wake hat
  case holding => exact hexec ▸ .release hat
  case unlockOwner => exact hexec.2 ▸ .disown hat
  case unlockAdd => exact hexec ▸ .add hat
  case unlockSpin => split_ifs at hexec with hfree <;> subst hexec; exacts [.relock hat hfree, .spin]
  case unlockPop =>
    split at hexec
    · cases hexec
    · next hwait => exact Except.ok.inj hexec ▸ .pop hat hwait
  case unlockRun =>
    obtain ⟨st, ⟨-, rfl⟩, rfl⟩ := hexec
    exact .run hat

theorem PointInv.bearer (h : m.PointInv) (hrunning : m.state now = .running) (hstep : m.Step now m') :
    (∀ t u, m'.Bearer t → m'.Bearer u → t = u) ∧ (m'.count ≤ 0 ↔ ∃ t, m'.Bearer t) := by
  have hfront := fun t (hat : m.point now = .unlockPop) ↦ h.blocked_of_mem (t := t) hat
  obtain ⟨-, -, hnodup, hmem, hqueued, hblocked, hrun, -, hunique, hbearer⟩ := h
  simp only [Handed, Bearer] at hrun hunique hbearer
  cases hstep
  case spin => exact ⟨hunique, hbearer⟩
  all_goals constructor <;>
    simp only [goto, Mutex.setState, Handed, Bearer, update_apply] <;>
    grind [MutexPoint.Bears]

theorem PointInv.step (h : m.PointInv) (hrunning : m.state now = .running)
    (hstep : m.Step now m') : m'.PointInv := by
  have hfront := fun t (hat : m.point now = .unlockPop) ↦ h.blocked_of_mem (t := t) hat
  have hbearer := h.bearer hrunning hstep
  obtain ⟨hlock, howner, hnodup, hmem, hqueued, hblocked, hrun, hrunu, hunique, -⟩ := h
  simp only [Handed, Bearer] at howner hrun hunique
  cases hstep
  case spin => constructor <;> first | assumption | exact hbearer.2
  all_goals
    refine ⟨?_, ?_, ?_, ?_, ?_, ?_, ?_, ?_, hbearer.1, hbearer.2⟩ <;> clear hbearer <;>
    simp only [goto, Mutex.setState, Handed, update_apply] <;>
    grind -ring -linarith [MutexPoint.HoldsLock, MutexPoint.Bears, List.nodup_append]

variable [Fintype τ]

theorem engaged_goto (m : Mutex τ) (now : τ) (at' : MutexPoint τ) : (m.goto now at').engaged =
      if at'.Engaged then insert now m.engaged else m.engaged.erase now := by
  ext t
  simp only [engaged, goto, update_apply]
  grind

theorem count_goto {mid : Mutex τ} {at' : MutexPoint τ} (h : m.count = 1 - m.engaged.card)
    (hpoint : mid.point = m.point) (hcount : mid.count = m.count +
      (if (m.point now).Engaged then 1 else 0) - if at'.Engaged then 1 else 0) :
    (mid.goto now at').count = 1 - (mid.goto now at').engaged.card := by
  have hengaged : mid.engaged = m.engaged := by simp only [engaged, hpoint]
  have hmem : now ∈ m.engaged ↔ (m.point now).Engaged := by simp [engaged]
  rw [engaged_goto, hengaged, show (mid.goto now at').count = mid.count from rfl, hcount, h]
  grind [Finset.erase_eq_of_notMem]

theorem Inv.step (h : m.Inv) (hrunning : m.state now = .running) (hstep : m.Step now m') : m'.Inv := by
  refine ⟨h.points.step hrunning hstep, ?_, ?_⟩ <;> have hcount := h.count_eq <;> have hfifo := h.fifo
  · cases hstep
    case spin => exact hcount
    all_goals
      refine count_goto hcount rfl ?_
      simp only [*, MutexPoint.Engaged]
      try split_ifs <;> simp_all [Mutex.setState]
  · cases hstep <;> grind [goto, Mutex.setState]

theorem Inv.setState (h : m.Inv) (hnow : m.state t ≠ .blocked) (st : ThreadState) : (m.setState t st).Inv := by
  refine ⟨?_, h.count_eq, h.fifo⟩
  obtain ⟨hlock, howner, hnodup, hmem, hqueued, hblocked, hrun, hrunu, hunique, hbearer⟩ := h.points
  constructor <;> simp only [Mutex.setState, Handed, Bearer, update_apply] at * <;> grind

omit [DecidableEq τ] in
/-- While a thread passes the mutex on, there is a thread in `wait_ls` to take it: `count` says that one
has counted itself in, and it is neither the bearer of the mutex nor the holder of the lock. -/
theorem Inv.waitLs_ne_nil (h : m.Inv) (hat : m.point now = .unlockPop) : m.waitLs ≠ [] := by
  have hbearer : m.Bearer now := .inl (by rw [hat]; trivial)
  have hcount := h.points.bearer_iff.mpr ⟨now, hbearer⟩
  have hcard : 0 < m.engaged.card := by
    have := h.count_eq
    omega
  obtain ⟨t, ht⟩ := Finset.card_pos.mp hcard
  have hengaged : (m.point t).Engaged := by simpa [engaged] using ht
  have hne : t ≠ now := by
    rintro rfl
    simp [hat, MutexPoint.Engaged] at hengaged
  have hnot : ¬ m.Bearer t := fun ht ↦ hne (h.points.bearer_unique t now ht hbearer)
  have hfree : ¬ (m.point t).HoldsLock := fun ht ↦ hne (Option.some_inj.mp
    (((h.points.lock_iff t).mpr ht).symm.trans ((h.points.lock_iff now).mpr (by rw [hat]; trivial))))
  intro hnil
  cases hpoint : m.point t <;>
    simp_all [MutexPoint.Engaged, MutexPoint.HoldsLock, Bearer, Handed, MutexPoint.Bears]

theorem inv_step {a : Action τ} (h : m.Inv) (hact : m.act a = .ok m') : m'.Inv := by
  cases a with
  | exec now =>
    obtain ⟨_, hrunning, hexec⟩ := bind_eq_ok.mp hact
    exact h.step (assert_eq_ok.mp hrunning) (step_of_exec hexec)
  | schdule t | preempt t =>
    obtain ⟨_, hst, hexec⟩ := bind_eq_ok.mp hact
    cases hexec
    exact h.setState (by simp [assert_eq_ok.mp hst]) _

omit [DecidableEq τ] in
theorem inv_init (h : m.Init) : m.Inv := by
  obtain ⟨hcount, hlock, hwait, howner, henqueued, hgranted, hidle, -⟩ := h
  have hnone : ∀ t, ¬ m.Bearer t := fun t ↦ by simp [Bearer, Handed, hidle, MutexPoint.Bears]
  refine ⟨?_, ?_, by simp [henqueued, hgranted, hwait]⟩
  · constructor <;> simp_all [Handed, MutexPoint.HoldsLock]
  · simp [hcount, engaged, hidle, MutexPoint.Engaged]

theorem Inv.exec_ok (h : m.Inv) (hrunning : m.state now = .running) : ∃ m', m.exec now = .ok m' := by
  unfold exec
  cases hat : m.point now with
  | idle | lockSpin | lockFree | lockBusy | lockQueued | holding | unlockAdd | unlockSpin => exact ⟨_, rfl⟩
  | lockTest =>
    have howner : m.owner ≠ some now := fun heq ↦ by simpa [hat, Handed] using (h.points.owner_iff now).mp heq
    exact ⟨_, by simp only [lockTest, assert_of_true howner]; rfl⟩
  | lockWait =>
    have hhanded : m.Handed now := ⟨hat, fun hmem ↦ by simpa [hrunning] using h.points.waiting_blocked now hmem hat⟩
    have howner := (h.points.owner_iff now).mpr (.inr (.inr hhanded))
    exact ⟨_, by simp only [lockWait, assert_of_true howner]; rfl⟩
  | unlockOwner =>
    have howner := (h.points.owner_iff now).mpr (.inr (.inl hat))
    exact ⟨_, by simp only [unlockOwner, assert_of_true howner]; rfl⟩
  | unlockPop =>
    cases hwait : m.waitLs with
    | nil => exact absurd hwait (h.waitLs_ne_nil hat)
    | cons t rest => exact ⟨_, by simp only [unlockPop, hwait]; rfl⟩
  | unlockRun t =>
    have hblocked := (h.points.run_blocked now t hat).2
    exact ⟨_, by simp only [unlockRun, hblocked, ThreadState.run]; rfl⟩

end Steps

/-! ### The contract -/

/-- The contract of the mutex in a state.

At most one thread is between the return of `mutex_lock` and the call of `mutex_unlock` (`exclusive`).
`count` is 1 less the number of threads that hold, wait for or are being handed the mutex (`count_eq`).
A thread that is about to take one from `wait_ls` finds one, and it is blocked (`pop_blocked`); it
still is when it is woken (`run_blocked`). The threads have been granted the mutex in the order in which
they went into `wait_ls` (`fifo`). No assertion fails and nothing panics at the next step of any thread
(`no_fault`). -/
structure Contract [Fintype τ] (m : Mutex τ) : Prop where
  exclusive : ∀ t u, m.point t = .holding → m.point u = .holding → t = u
  count_eq : m.count = 1 - m.engaged.card
  pop_blocked : ∀ t, m.point t = .unlockPop → ∃ u rest, m.waitLs = u :: rest ∧ m.state u = .blocked
  run_blocked : ∀ t u, m.point t = .unlockRun u → m.state u = .blocked
  fifo : m.enqueued = m.granted ++ m.waitLs
  no_fault : ∀ t, m.state t = .running → ∃ m', m.exec t = .ok m'

theorem Inv.contract [Fintype τ] {m : Mutex τ} (h : m.Inv) : m.Contract where
  exclusive t u ht hu := h.points.bearer_unique t u (.inl (by rw [ht]; trivial))
    (.inl (by rw [hu]; trivial))
  count_eq := h.count_eq
  pop_blocked t ht := by
    cases hwait : m.waitLs with
    | nil => exact absurd hwait (h.waitLs_ne_nil ht)
    | cons u rest => exact ⟨u, rest, rfl, (h.points.blocked_of_mem ht (by simp [hwait])).2⟩
  run_blocked t u htu := (h.points.run_blocked t u htu).2
  fifo := h.fifo
  no_fault _ ht := h.exec_ok ht

/-- The contract holds in every reachable state. -/
theorem mutex_contract [Fintype τ] {m : Mutex τ} (h : (system τ).Reachable m) : m.Contract :=
  Inv.contract (h.invariant (P := Inv) (fun _ ↦ inv_init) fun _ _ _ hinv hact ↦ inv_step hinv hact)

/-- A mutex after `mutex_init`, with two running threads. -/
def exampleInit : Mutex (Fin 2) where
  count := 1
  lock := none
  waitLs := []
  owner := none
  state _ := .running
  point _ := .idle
  enqueued := []
  granted := []

/-- The first thread takes the mutex, the second waits for it, and the first is about to hand it over. -/
def exampleActions : List (Action (Fin 2)) :=
  [.exec 0, .exec 0, .exec 0, .exec 0, .exec 1, .exec 1, .exec 1, .exec 0, .exec 0, .exec 1, .exec 0,
    .exec 1, .exec 0]

/-- The contract at a state in which the mutex is being handed over. -/
theorem mutex_contract_example :
    ∃ m : Mutex (Fin 2), (system _).Reachable m ∧ m.point 0 = .unlockPop ∧ m.waitLs = [1] ∧
      m.count = 0 ∧ m.Contract := by
  have hrun : (exampleActions.foldlM act exampleInit).map (fun m ↦ (m.point 0, m.waitLs, m.count)) =
      .ok (.unlockPop, [1], 0) := by decide +kernel
  obtain ⟨m, hacts, hrun⟩ := map_eq_ok.mp hrun
  have hinit : exampleInit.Init :=
    ⟨rfl, rfl, rfl, rfl, rfl, rfl, fun _ ↦ rfl, fun _ ↦ .inr rfl⟩
  have hreach : (system _).Reachable m := System.reachable_of_foldlM (.init hinit) hacts
  simp only [Prod.mk.injEq] at hrun
  exact ⟨m, hreach, hrun.1, hrun.2.1, hrun.2.2, mutex_contract hreach⟩

/-! ### No wake-up is lost -/

/-- A blocked thread is in `wait_ls`, or another thread is about to wake it up. -/
def Wakes (m : Mutex τ) : Prop :=
  ∀ t, m.state t = .blocked → m.point t = .lockWait ∧ (t ∈ m.waitLs ∨ ∃ u, m.point u = .unlockRun t)

theorem Wakes.step [Fintype τ] {m m' : Mutex τ} {now : τ} (hwakes : m.Wakes) (h : m.Inv)
    (hrunning : m.state now = .running)
    (hstep : m.Step now m') : m'.Wakes := by
  have hfront := fun t (hat : m.point now = .unlockPop) ↦ h.points.blocked_of_mem (t := t) hat
  have hqueued := h.points.queued_mem
  intro t ht
  unfold Wakes at hwakes
  cases hstep
  case spin => exact hwakes t ht
  all_goals
    simp only [goto, Mutex.setState, update_apply] at ht ⊢
    grind

theorem wakes_act [Fintype τ] {m m' : Mutex τ} {a : Action τ} (hwakes : m.Wakes) (h : m.Inv)
    (hact : m.act a = .ok m') :
    m'.Wakes := by
  cases a with
  | exec now =>
    obtain ⟨_, hrunning, hexec⟩ := bind_eq_ok.mp hact
    exact hwakes.step h (assert_eq_ok.mp hrunning) (step_of_exec hexec)
  | schdule t | preempt t =>
    obtain ⟨_, -, hexec⟩ := bind_eq_ok.mp hact
    cases hexec
    intro u hu
    simp only [Mutex.setState, update_apply] at hu
    split_ifs at hu
    exact hwakes u hu

/-- In every reachable state a blocked thread depends on one that is not blocked: the one that is about to wake it
up, or, if it is in `wait_ls`, the bearer of the mutex or the thread that is about to wake the bearer up. -/
theorem blocked_depends [Fintype τ] {m : Mutex τ} (h : (system τ).Reachable m) {t : τ} (ht : m.state t = .blocked) :
    ∃ u, m.state u ≠ .blocked ∧ (m.point u = .unlockRun t ∨
      t ∈ m.waitLs ∧ (m.Bearer u ∨ ∃ v, m.Bearer v ∧ m.point u = .unlockRun v)) := by
  obtain ⟨hinv, hwakes⟩ : m.Inv ∧ m.Wakes := by
    refine h.invariant (P := fun m ↦ m.Inv ∧ m.Wakes) (fun m hinit ↦ ⟨inv_init hinit, fun t ht ↦ ?_⟩)
      fun m a m' hm hact ↦ ⟨inv_step hm.1 hact, wakes_act hm.2 hm.1 hact⟩
    rcases hinit.state t with hstate | hstate <;> simp [ht] at hstate
  -- A thread that is about to wake another one up is at no point at which it can be blocked.
  have hawake : ∀ u v, m.point u = .unlockRun v → m.state u ≠ .blocked := by
    intro u v hat hblocked
    cases hat.symm.trans (hwakes u hblocked).1
  obtain ⟨hat, hmem | ⟨u, hrun⟩⟩ := hwakes t ht
  · have hcount : m.count ≤ 0 := by
      have hpos : 0 < m.engaged.card := Finset.card_pos.mpr
        ⟨t, Finset.mem_filter.mpr ⟨Finset.mem_univ t, by rw [hat]; trivial⟩⟩
      have hcount := hinv.count_eq
      omega
    obtain ⟨v, hv⟩ := hinv.points.bearer_iff.mp hcount
    by_cases hblocked : m.state v = .blocked
    · obtain ⟨hatv, hmemv | ⟨u, hrun⟩⟩ := hwakes v hblocked
      · simp [Bearer, Handed, hatv, hmemv, MutexPoint.Bears] at hv
      · exact ⟨u, hawake u v hrun, .inr ⟨hmem, .inr ⟨v, hv, hrun⟩⟩⟩
    · exact ⟨v, hblocked, .inr ⟨hmem, .inl hv⟩⟩
  · exact ⟨u, hawake u t hrun, .inl hrun⟩

/-- The second thread is blocked, and the first has the mutex. -/
theorem blocked_depends_example : ∃ m : Mutex (Fin 2), m.state 1 = .blocked ∧ m.waitLs = [1] ∧
    ∃ u, m.state u ≠ .blocked ∧ (m.point u = .unlockRun 1 ∨
      1 ∈ m.waitLs ∧ (m.Bearer u ∨ ∃ v, m.Bearer v ∧ m.point u = .unlockRun v)) := by
  have hrun : (exampleActions.foldlM act exampleInit).map (fun m ↦ (m.state 1, m.waitLs)) = .ok (.blocked, [1]) := by
    decide +kernel
  obtain ⟨m, hacts, hview⟩ := map_eq_ok.mp hrun
  obtain ⟨hstate, hwait⟩ := Prod.mk.inj hview
  have hinit : exampleInit.Init := ⟨rfl, rfl, rfl, rfl, rfl, rfl, fun _ ↦ rfl, fun _ ↦ .inr rfl⟩
  exact ⟨m, hstate, hwait, blocked_depends (System.reachable_of_foldlM (.init hinit) hacts) hstate⟩

end Mutex

end Lanthorn
