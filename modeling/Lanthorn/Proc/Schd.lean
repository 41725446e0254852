import Lanthorn.Kernel.Basic
import Lanthorn.Library.Run
import Mathlib.Data.List.Nodup
import Mathlib.Logic.ExistsUnique
import Mathlib.Logic.Function.Basic

/-!
# The scheduler

Model of `schd.c` and of the two places in `thread.c` where a new thread starts (`pre` and `thread_enclosure`), for
any number of CPUs and threads. A CPU either runs a thread or the loop of `schd_schdule`, and `scheduler.lock` is
taken by one of them and often released by the other: a `task_switch` is made with the lock held, and whoever the
CPU switches to releases it.

The steps are the acquisitions of the lock, what is done while it is held, and its releases; what is done under the
lock, the callback of `task_switch` included, is one step. The lock is not a flag here but the CPU that took it,
and the numbers of acquisitions and releases are counted.

`Schd.scheduler_contract` is the contract in every reachable state.
-/

set_option linter.unusedSectionVars false

namespace Lanthorn

open Function Library

/-- `enum T_STATE` of `thread.h`. -/
inductive ThreadState
  | unschded
  | runnabel
  | running
  | sleeping
  | blocked
  | killed
  deriving DecidableEq, Repr

namespace ThreadState

/-- The state that `schd_run` gives to a thread in a state. -/
def run : ThreadState → Result ThreadState
  | .runnabel | .running | .sleeping | .killed => .error .panic
  | .unschded | .blocked => .ok .runnabel

/-- The state that `schd_kill` gives to a thread in a state; `isNow` says whether it is the thread that
makes the call. -/
def kill (isNow : Bool) : ThreadState → Result ThreadState
  | .killed => .error .panic
  | .runnabel | .sleeping => .ok .killed
  | .running => if isNow then .ok .killed else .error .assertion
  | .unschded | .blocked => .error .panic

theorem run_eq_ok {st st' : ThreadState} :
    st.run = .ok st' ↔ (st = .unschded ∨ st = .blocked) ∧ st' = .runnabel := by cases st <;> simp [run, eq_comm]

theorem kill_eq_ok {isNow : Bool} {st st' : ThreadState} : st.kill isNow = .ok st' ↔
      (st = .runnabel ∨ st = .sleeping ∨ st = .running ∧ isNow = true) ∧ st' = .killed := by
  cases st <;> cases isNow <;> simp [kill, eq_comm]

end ThreadState

/-- Where a thread that is not running goes on when a CPU switches to it. -/
inductive Resume
  /-- A new user thread, at the start of `pre`. -/
  | pre
  /-- A new kernel thread, at the start of `thread_enclosure`. -/
  | enclosure
  /-- After the `task_switch` of `schd_intr`. -/
  | intr
  /-- After the `task_switch` of `schd_block`. -/
  | block
  /-- After the `task_switch` of `schd_kill`, where there is only a `panic`. -/
  | kill
  deriving DecidableEq, Repr

/-- The operations that take `scheduler.lock` on behalf of a thread. -/
inductive SchdOp (τ : Type)
  | run (thread : τ)
  | kill (thread : τ)
  | block (thread : τ)
  | intr
  deriving DecidableEq, Repr

inductive Control (τ : Type)
  /-- The start-up code of the kernel, before `schd_schdule`. -/
  | boot
  /-- At the head of the loop of `schd_schdule`. -/
  | schd
  /-- In that loop after `spin_lock`. -/
  | schdLocked
  /-- In that loop before `spin_unlock`. -/
  | schdUnlock
  /-- In the code of a thread. -/
  | thread
  /-- In an operation, after its `spin_lock`. -/
  | locked (op : SchdOp τ)
  /-- At the `spin_unlock` at the end of `schd_run` or `schd_kill`. -/
  | unlock
  /-- In a thread that has just been switched to. -/
  | resumed (at' : Resume)
  deriving DecidableEq, Repr

/-- Whether `scheduler.lock` is held where a CPU stands. -/
def Control.Holds {τ : Type} : Control τ → Prop
  | .boot | .schd | .thread => False
  | .schdLocked | .schdUnlock | .locked _ | .unlock | .resumed _ => True

def Control.OutOfThread {τ : Type} : Control τ → Prop
  | .boot | .schd | .schdLocked | .schdUnlock => True
  | .thread | .locked _ | .unlock | .resumed _ => False

def Control.AtRelease {τ : Type} : Control τ → Prop
  | .schdUnlock | .unlock | .resumed _ => True
  | .boot | .schd | .schdLocked | .thread | .locked _ => False

structure Schd (κ τ : Type) where
  /-- `scheduler.lock`: the CPU that holds it. -/
  lock : Option κ
  /-- `scheduler.runnable`. -/
  runnable : List τ
  /-- The `state` of the threads that have been created. -/
  state : τ → Option ThreadState
  /-- The `cpuid` of the threads that have been scheduled. -/
  cpuid : τ → Option κ
  saved : τ → Resume
  /-- `cpu_get_task`: the thread, or none for the task of `schd_schdule`. -/
  current : κ → Option τ
  control : κ → Control τ
  /-- How often the lock has been taken and released. -/
  acquired : ℕ
  released : ℕ

namespace Schd

variable {κ τ : Type} [DecidableEq κ] [DecidableEq τ]

def goto (s : Schd κ τ) (c : κ) (at' : Control τ) : Schd κ τ :=
  { s with control := update s.control c at' }

def setState (s : Schd κ τ) (t : τ) (st : ThreadState) : Schd κ τ :=
  { s with state := update s.state t (some st) }

/-- `spin_lock` on a lock that is free; on a lock that is held it spins. -/
def acquire (s : Schd κ τ) (c : κ) : Result (Schd κ τ) := do
  assert (s.lock = none)
  return { s with lock := some c, acquired := s.acquired + 1 }

/-- `spin_unlock`, whoever holds the lock. -/
def release (s : Schd κ τ) : Schd κ τ :=
  { s with lock := none, released := s.released + 1 }

/-- `thread->state`. -/
def stateOf (s : Schd κ τ) (t : τ) : Result ThreadState :=
  match s.state t with
  | none => .error .unset
  | some st => .ok st

/-- `task_switch` from a thread to the scheduler of its CPU, which goes on after its own
`task_switch`. -/
def switchOut (s : Schd κ τ) (c : κ) (t : τ) (at' : Resume) : Schd κ τ :=
  { s with
    saved := update s.saved t at'
    current := update s.current c none }.goto c .schdUnlock

/-- `task_switch` from the scheduler of a CPU to a thread, with `schd_schdule_mid_func`. -/
def switchIn (s : Schd κ τ) (c : κ) (t : τ) : Schd κ τ :=
  { s.setState t .running with
    cpuid := update s.cpuid t (some c)
    current := update s.current c (some t) }.goto c (.resumed (s.saved t))

/-- One iteration of `schd_schdule` after `spin_lock`. -/
def schdule (s : Schd κ τ) (c : κ) : Schd κ τ :=
  match s.runnable with
  | [] => s.goto c .schdUnlock
  | t :: rest => { s with runnable := rest }.switchIn c t

/-- `schd_run` after `spin_lock`. -/
def schdRun (s : Schd κ τ) (c : κ) (t : τ) : Result (Schd κ τ) := do
  let st ← s.stateOf t
  let st' ← st.run
  return { s.setState t st' with runnable := s.runnable ++ [t] }.goto c .unlock

/-- `schd_kill` after `spin_lock`. -/
def schdKill (s : Schd κ τ) (c : κ) (t : τ) : Result (Schd κ τ) := do
  let st ← s.stateOf t
  let st' ← st.kill (s.current c = some t)
  if st = .running then
    return (s.setState t st').switchOut c t .kill
  else
    return { s.setState t st' with runnable := s.runnable.erase t }.goto c .unlock

/-- `schd_block` after `spin_lock`. -/
def schdBlock (s : Schd κ τ) (c : κ) (t : τ) : Schd κ τ :=
  (s.setState t .blocked).switchOut c t .block

/-- `schd_intr_mid_func` after `spin_lock`. -/
def schdIntr (s : Schd κ τ) (c : κ) : Result (Schd κ τ) :=
  match s.current c with
  | none => .error .unset
  | some t => do
    let st ← s.stateOf t
    assert (st = .running)
    return { s.setState t .runnabel with runnable := s.runnable ++ [t] }.switchOut c t .intr

def body (s : Schd κ τ) (c : κ) : SchdOp τ → Result (Schd κ τ)
  | .run t => s.schdRun c t
  | .kill t => s.schdKill c t
  | .block t => .ok (s.schdBlock c t)
  | .intr => s.schdIntr c

/-- What the caller of an operation must be: the start-up code only makes threads run, and
`schd_block` has two assertions before it takes the lock. -/
def mayCall (s : Schd κ τ) (c : κ) : SchdOp τ → Bool
  | .run _ => s.control c = .boot ∨ s.control c = .thread
  | .kill _ | .intr => s.control c = .thread
  | .block t => s.control c = .thread ∧ s.current c = some t ∧ s.state t = some .running

def caller (s : Schd κ τ) (c : κ) : Control τ :=
  if s.current c = none then .boot else .thread

inductive Action (κ τ : Type)
  /-- `schd_schdule` is entered. -/
  | start (c : κ)
  /-- A thread is made by `thread_kern_new` or `thread_user_new`, up to its `schd_run`. -/
  | create (c : κ) (t : τ) (isUser : Bool)
  /-- `spin_lock` in `schd_schdule`. -/
  | schdLock (c : κ)
  /-- The iteration of `schd_schdule`. -/
  | schdule (c : κ)
  /-- `spin_unlock` in `schd_schdule`. -/
  | schdUnlock (c : κ)
  /-- An operation is called and takes the lock. -/
  | call (c : κ) (op : SchdOp τ)
  /-- The operation runs. -/
  | body (c : κ)
  /-- `spin_unlock` at the end of the operation. -/
  | unlock (c : κ)
  /-- `spin_unlock` in a thread that was switched to. -/
  | resume (c : κ)
  deriving DecidableEq, Repr

/-- The outcome of an action. An action that does not belong where the CPU stands is refused by an
assertion; it is then no step, and neither is an action at which the kernel panics. -/
def act (s : Schd κ τ) : Action κ τ → Result (Schd κ τ)
  | .start c => do
    assert (s.control c = .boot)
    return s.goto c .schd
  | .create c t isUser => do
    assert ((s.control c = .boot ∨ s.control c = .thread) ∧ s.state t = none)
    return { s.setState t .unschded with
      saved := update s.saved t (if isUser then .pre else .enclosure) }
  | .schdLock c => do
    assert (s.control c = .schd)
    let s ← s.acquire c
    return s.goto c .schdLocked
  | .schdule c => do
    assert (s.control c = .schdLocked)
    return s.schdule c
  | .schdUnlock c => do
    assert (s.control c = .schdUnlock)
    return s.release.goto c .schd
  | .call c op => do
    assert (s.mayCall c op)
    let s ← s.acquire c
    return s.goto c (.locked op)
  | .body c =>
    match s.control c with
    | .locked op => s.body c op
    | _ => .error .assertion
  | .unlock c => do
    assert (s.control c = .unlock)
    return s.release.goto c (s.caller c)
  | .resume c =>
    match s.control c with
    | .resumed .kill => .error .panic
    | .resumed _ => .ok (s.release.goto c .thread)
    | _ => .error .assertion

/-- Before the first thread is made: the lock is free and every CPU is in its start-up code. -/
def initial (saved : τ → Resume) : Schd κ τ where
  lock := none
  runnable := []
  state _ := none
  cpuid _ := none
  saved := saved
  current _ := none
  control _ := .boot
  acquired := 0
  released := 0

def system (κ τ : Type) [DecidableEq κ] [DecidableEq τ] : System (Schd κ τ) (Action κ τ) :=
  .ofNext (fun s ↦ ∃ saved, s = initial saved) act

/-! ### The lock -/

/-- The lock is held by the CPU that stands where it is held, and all other acquisitions have been
released. -/
structure LockInv (s : Schd κ τ) : Prop where
  lock_iff : ∀ c, s.lock = some c ↔ (s.control c).Holds
  account : s.acquired = s.released + if s.lock = none then 0 else 1

/-! ### The threads -/

/-- The lists and states of the threads agree with each other and with the CPUs. -/
structure ThreadInv (s : Schd κ τ) : Prop where
  nodup : s.runnable.Nodup
  mem_runnable : ∀ t, t ∈ s.runnable ↔ s.state t = some .runnabel
  of_current : ∀ c t, s.current c = some t → s.state t = some .running ∧ s.cpuid t = some c
  exists_current : ∀ t, s.state t = some .running → ∃ c, s.current c = some t
  of_saved_kill : ∀ t st, s.saved t = .kill → s.state t = some st → st = .killed

theorem ThreadInv.current_unique {s : Schd κ τ} {c d : κ} {t : τ} (h : s.ThreadInv)
    (hc : s.current c = some t) (hd : s.current d = some t) : d = c := by
  have hcpu := (h.of_current c t hc).2
  rw [(h.of_current d t hd).2] at hcpu
  exact Option.some_inj.mp hcpu

/-! ### Where the CPUs stand -/

/-- A CPU that stands outside of threads runs none, and what is blocked is the thread that it runs. -/
structure ControlInv (s : Schd κ τ) : Prop where
  out_of_thread : ∀ c, (s.control c).OutOfThread → s.current c = none
  block_current : ∀ c t, s.control c = .locked (.block t) → s.current c = some t
  resumed_ne_kill : ∀ c, s.control c ≠ .resumed .kill

/-! ### The invariant -/

structure Inv (s : Schd κ τ) : Prop where
  lock : s.LockInv
  threads : s.ThreadInv
  control : s.ControlInv

theorem inv_init {saved : τ → Resume} : (initial (κ := κ) saved).Inv where
  lock := ⟨fun c ↦ by simp [initial, Control.Holds], rfl⟩
  threads := ⟨List.nodup_nil, by simp [initial], by simp [initial], by simp [initial],
    by simp [initial]⟩
  control := ⟨fun _ _ ↦ rfl, by simp [initial], by simp [initial]⟩

/-! ### The steps -/

/-- What the actions do, one case for each way in which they succeed. -/
inductive Step (s : Schd κ τ) : Action κ τ → Schd κ τ → Prop
  | start {c : κ} (hat : s.control c = .boot) : Step s (.start c) (s.goto c .schd)
  | create {c : κ} {t : τ} {isUser : Bool} (hnew : s.state t = none) :
    Step s (.create c t isUser) { s.setState t .unschded with
      saved := update s.saved t (if isUser then .pre else .enclosure) }
  | schdLock {c : κ} (hat : s.control c = .schd) (hfree : s.lock = none) :
    Step s (.schdLock c)
      ({ s with lock := some c, acquired := s.acquired + 1 }.goto c .schdLocked)
  | idle {c : κ} (hat : s.control c = .schdLocked) (hempty : s.runnable = []) :
    Step s (.schdule c) (s.goto c .schdUnlock)
  | pick {c : κ} {t : τ} {rest : List τ} (hat : s.control c = .schdLocked)
    (hrunnable : s.runnable = t :: rest) :
    Step s (.schdule c) ({ s with runnable := rest }.switchIn c t)
  | schdUnlock {c : κ} (hat : s.control c = .schdUnlock) :
    Step s (.schdUnlock c) (s.release.goto c .schd)
  | call {c : κ} {op : SchdOp τ} (hmay : s.mayCall c op) (hfree : s.lock = none) :
    Step s (.call c op)
      ({ s with lock := some c, acquired := s.acquired + 1 }.goto c (.locked op))
  | run {c : κ} {t : τ} {st : ThreadState} (hat : s.control c = .locked (.run t))
    (hst : s.state t = some st) (hwas : st = .unschded ∨ st = .blocked) :
    Step s (.body c)
      ({ s.setState t .runnabel with runnable := s.runnable ++ [t] }.goto c .unlock)
  | killOther {c : κ} {t : τ} {st : ThreadState} (hat : s.control c = .locked (.kill t))
    (hst : s.state t = some st) (hwas : st = .runnabel ∨ st = .sleeping) :
    Step s (.body c)
      ({ s.setState t .killed with runnable := s.runnable.erase t }.goto c .unlock)
  | killNow {c : κ} {t : τ} (hat : s.control c = .locked (.kill t)) (hnow : s.current c = some t) :
    Step s (.body c) ((s.setState t .killed).switchOut c t .kill)
  | block {c : κ} {t : τ} (hat : s.control c = .locked (.block t)) :
    Step s (.body c) ((s.setState t .blocked).switchOut c t .block)
  | intr {c : κ} {t : τ} (hat : s.control c = .locked .intr) (hnow : s.current c = some t) :
    Step s (.body c) ({ s.setState t .runnabel with
      runnable := s.runnable ++ [t] }.switchOut c t .intr)
  | unlock {c : κ} (hat : s.control c = .unlock) :
    Step s (.unlock c) (s.release.goto c (s.caller c))
  | resume {c : κ} {at' : Resume} (hat : s.control c = .resumed at') :
    Step s (.resume c) (s.release.goto c .thread)

section Steps

variable {s s' : Schd κ τ} {c : κ} {t : τ}

theorem acquire_eq_ok : s.acquire c = .ok s' ↔
    s.lock = none ∧ s' = { s with lock := some c, acquired := s.acquired + 1 } := by
  unfold acquire
  rw [bind_eq_ok]
  simp only [assert_eq_ok, Except.ok.injEq, exists_const, @eq_comm _ s', pure_eq]

theorem stateOf_eq_ok {st : ThreadState} : s.stateOf t = .ok st ↔ s.state t = some st := by
  unfold stateOf
  cases s.state t <;> simp

theorem step_of_schdKill (hat : s.control c = .locked (.kill t)) (hrun : s.schdKill c t = .ok s') :
    s.Step (.body c) s' := by
  unfold schdKill at hrun
  obtain ⟨st, hst, hrun⟩ := bind_eq_ok.mp hrun
  obtain ⟨st', hst', hrun⟩ := bind_eq_ok.mp hrun
  rw [stateOf_eq_ok] at hst
  obtain ⟨hwas, rfl⟩ := ThreadState.kill_eq_ok.mp hst'
  split_ifs at hrun with hrunning
  · cases hrun
    exact .killNow hat (by simpa [hrunning] using hwas)
  · cases hrun
    exact .killOther hat hst (by tauto)

theorem step_of_body {op : SchdOp τ} (hat : s.control c = .locked op)
    (hrun : s.body c op = .ok s') : s.Step (.body c) s' := by
  cases op with
  | run t =>
    obtain ⟨st, hst, hrun⟩ := bind_eq_ok.mp hrun
    obtain ⟨st', hst', hrun⟩ := bind_eq_ok.mp hrun
    obtain ⟨hwas, rfl⟩ := ThreadState.run_eq_ok.mp hst'
    cases hrun
    exact .run hat (stateOf_eq_ok.mp hst) hwas
  | kill t => exact step_of_schdKill hat hrun
  | block t =>
    cases hrun
    exact .block hat
  | intr =>
    simp only [body, schdIntr] at hrun
    cases hnow : s.current c with
    | none => simp [hnow] at hrun
    | some t =>
      rw [hnow] at hrun
      obtain ⟨st, -, hrun⟩ := bind_eq_ok.mp hrun
      obtain ⟨_, -, hrun⟩ := bind_eq_ok.mp hrun
      cases hrun
      exact .intr hat hnow

variable {a : Action κ τ}

theorem step_of_act (hact : s.act a = .ok s') : s.Step a s' := by
  cases a with
  | start c =>
    obtain ⟨_, hat, hrun⟩ := bind_eq_ok.mp hact
    cases hrun
    exact .start (assert_eq_ok.mp hat)
  | create c t isUser =>
    obtain ⟨_, hat, hrun⟩ := bind_eq_ok.mp hact
    cases hrun
    exact .create (assert_eq_ok.mp hat).2
  | schdLock c =>
    obtain ⟨_, hat, hrun⟩ := bind_eq_ok.mp hact
    obtain ⟨mid, hmid, hrun⟩ := bind_eq_ok.mp hrun
    obtain ⟨hfree, rfl⟩ := acquire_eq_ok.mp hmid
    cases hrun
    exact .schdLock (assert_eq_ok.mp hat) hfree
  | schdule c =>
    obtain ⟨_, hat, hrun⟩ := bind_eq_ok.mp hact
    rw [assert_eq_ok] at hat
    cases hrun
    unfold schdule
    cases hrunnable : s.runnable with
    | nil => exact .idle hat hrunnable
    | cons t rest => exact .pick hat hrunnable
  | schdUnlock c =>
    obtain ⟨_, hat, hrun⟩ := bind_eq_ok.mp hact
    cases hrun
    exact .schdUnlock (assert_eq_ok.mp hat)
  | call c op =>
    obtain ⟨_, hmay, hrun⟩ := bind_eq_ok.mp hact
    obtain ⟨mid, hmid, hrun⟩ := bind_eq_ok.mp hrun
    obtain ⟨hfree, rfl⟩ := acquire_eq_ok.mp hmid
    cases hrun
    exact .call (assert_eq_ok.mp hmay) hfree
  | body c => grind [act, step_of_body]
  | unlock c =>
    obtain ⟨_, hat, hrun⟩ := bind_eq_ok.mp hact
    cases hrun
    exact .unlock (assert_eq_ok.mp hat)
  | resume c =>
    simp only [act] at hact
    split at hact
    · simp at hact
    · next hat =>
      cases hact
      exact .resume hat
    · simp at hact

/-! ### The invariant over the steps -/

theorem LockInv.step (h : s.LockInv) (hstep : s.Step a s') : s'.LockInv := by
  obtain ⟨hlock, haccount⟩ := h
  cases hstep <;> constructor <;>
    simp only [goto, release, setState, switchOut, switchIn, caller, update_apply] <;>
    grind [Control.Holds]

theorem ThreadInv.step (h : s.ThreadInv) (hcontrol : s.ControlInv) (hstep : s.Step a s') : s'.ThreadInv := by
  have hunique := fun c d t ↦ h.current_unique (c := c) (d := d) (t := t)
  obtain ⟨hnodup, hmem, hcurrent, hrunning, hkill⟩ := h
  obtain ⟨hout, hblock, -⟩ := hcontrol
  cases hstep <;> constructor <;>
    simp only [goto, release, setState, switchOut, switchIn, update_apply] <;>
    grind [Control.OutOfThread, List.nodup_append, List.Nodup.mem_erase_iff, List.Nodup.erase]

theorem ControlInv.step (h : s.ControlInv) (hthreads : s.ThreadInv) (hstep : s.Step a s') : s'.ControlInv := by
  have hsaved : ∀ t ∈ s.runnable, s.saved t ≠ .kill := fun t ht hkill ↦ by
    simpa using hthreads.of_saved_kill t _ hkill ((hthreads.mem_runnable t).mp ht)
  obtain ⟨hout, hblock, hresumed⟩ := h
  cases hstep <;> constructor <;>
    simp only [goto, release, setState, switchOut, switchIn, caller, update_apply] <;>
    grind [Control.OutOfThread, mayCall]

theorem inv_step (h : s.Inv) (hstep : s.Step a s') : s'.Inv :=
  ⟨h.lock.step hstep, h.threads.step h.control hstep, h.control.step h.threads hstep⟩

theorem killed_step (h : s.Inv) (hstep : s.Step a s') (hkilled : s.state t = some .killed) :
    s'.state t = some .killed := by
  obtain ⟨-, hmem, hcurrent, -, -⟩ := h.threads
  have hblock := h.control.block_current
  cases hstep <;>
    simp only [goto, release, setState, switchOut, switchIn, update_apply] <;> grind

end Steps

/-! ### The contract -/

/-- The contract of the scheduler in a state.

The runnable list holds the `RUNNABEL` threads, each once (`runnable_once`, `runnable_iff`). A `RUNNING`
thread is the current task of exactly one CPU (`running_current`), which is the CPU of its `cpuid`, and
two of them are never on one CPU (`one_per_cpu`); the current task of a CPU is `RUNNING`
(`current_running`). A `KILLED` thread is `KILLED` after any step, and no CPU runs it
(`killed_stays`). A CPU that releases the lock is the one that took it, also when the two are different
tasks (`released_by_holder`), no switch leads to the `panic` behind the `task_switch` of `schd_kill`
(`resumed_releases`), and except for the one that is still held, every acquisition has been released
once (`balanced`). -/
structure Contract (s : Schd κ τ) : Prop where
  runnable_once : s.runnable.Nodup
  runnable_iff : ∀ t, t ∈ s.runnable ↔ s.state t = some .runnabel
  running_current : ∀ t, s.state t = some .running → ∃! c, s.current c = some t
  current_running : ∀ c t, s.current c = some t → s.state t = some .running ∧ s.cpuid t = some c
  one_per_cpu : ∀ t u c, s.state t = some .running → s.state u = some .running →
    s.cpuid t = some c → s.cpuid u = some c → t = u
  killed_stays : ∀ t, s.state t = some .killed → ∀ a s', s.act a = .ok s' →
    s'.state t = some .killed ∧ ∀ c, s'.current c ≠ some t
  released_by_holder : ∀ c, (s.control c).AtRelease → s.lock = some c
  resumed_releases : ∀ c, s.control c ≠ .resumed .kill
  balanced : s.acquired = s.released + if s.lock = none then 0 else 1

theorem Inv.contract {s : Schd κ τ} (h : s.Inv) : s.Contract where
  runnable_once := h.threads.nodup
  runnable_iff := h.threads.mem_runnable
  running_current t ht := by
    obtain ⟨c, hc⟩ := h.threads.exists_current t ht
    exact ⟨c, hc, fun d hd ↦ h.threads.current_unique hc hd⟩
  current_running := h.threads.of_current
  one_per_cpu t u c ht hu htc huc := by
    obtain ⟨d, hd⟩ := h.threads.exists_current t ht
    obtain ⟨e, he⟩ := h.threads.exists_current u hu
    obtain rfl : d = c := Option.some_inj.mp ((h.threads.of_current d t hd).2.symm.trans htc)
    obtain rfl : e = d := Option.some_inj.mp ((h.threads.of_current e u he).2.symm.trans huc)
    exact Option.some_inj.mp (hd.symm.trans he)
  killed_stays t ht a s' hstep := by
    have hkilled := killed_step h (step_of_act hstep) ht
    refine ⟨hkilled, fun c hc ↦ ?_⟩
    have hrunning := ((inv_step h (step_of_act hstep)).threads.of_current c t hc).1
    simp [hkilled] at hrunning
  released_by_holder c hc := (h.lock.lock_iff c).mpr (by
    cases hat : s.control c <;> simp_all [Control.AtRelease, Control.Holds])
  resumed_releases := h.control.resumed_ne_kill
  balanced := h.lock.account

/-- The contract holds in every reachable state. -/
theorem scheduler_contract {s : Schd κ τ} (h : (system κ τ).Reachable s) : s.Contract := by
  refine Inv.contract (h.invariant (P := Inv) ?_ ?_)
  · rintro s ⟨saved, rfl⟩
    exact inv_init
  · intro s a s' hinv hact
    exact inv_step hinv (step_of_act hact)

/-- Two CPUs and three threads: the first thread is preempted, the second blocks, the third kills the
first and then itself. -/
def exampleActions : List (Action (Fin 2) (Fin 3)) :=
  [.create 0 0 false, .call 0 (.run 0), .body 0, .unlock 0, .start 1,
    .schdLock 1, .schdule 1, .resume 1, .create 1 1 true, .call 1 (.run 1), .body 1, .unlock 1,
    .create 1 2 true, .call 1 (.run 2), .body 1, .unlock 1, .start 0,
    .schdLock 0, .schdule 0, .resume 0, .call 1 .intr, .body 1, .schdUnlock 1,
    .call 0 (.block 1), .body 0, .schdUnlock 0, .schdLock 0, .schdule 0, .resume 0,
    .call 0 (.kill 0), .body 0, .unlock 0, .call 0 (.kill 2), .body 0]

/-- The contract at a state in the middle of a switch away from a killed thread. -/
theorem scheduler_contract_example : ∃ s : Schd (Fin 2) (Fin 3), (system _ _).Reachable s ∧ s.lock = some 0 ∧
      s.state 0 = some .killed ∧ s.state 1 = some .blocked ∧ s.state 2 = some .killed ∧ s.Contract := by
  have hrun : (exampleActions.foldlM act (initial fun _ ↦ .pre)).map
      (fun s ↦ (s.lock, s.state 0, s.state 1, s.state 2)) =
      .ok (some 0, some .killed, some .blocked, some .killed) := by decide +kernel
  obtain ⟨s, hacts, hrun⟩ := map_eq_ok.mp hrun
  have hreach : (system _ _).Reachable s :=
    System.reachable_of_foldlM (.init ⟨fun _ ↦ .pre, rfl⟩) hacts
  simp only [Prod.mk.injEq] at hrun
  exact ⟨s, hreach, hrun.1, hrun.2.1, hrun.2.2.1, hrun.2.2.2, scheduler_contract hreach⟩

end Schd

end Lanthorn
