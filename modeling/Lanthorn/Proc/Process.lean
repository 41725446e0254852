import Lanthorn.Proc.Schd

/-!
# Processes and the control of threads

Model of the system calls of `proc.c` and `thread.c` that create, end, block and wake threads and processes, for
any number of processes and threads. What a scheduler operation does to the state of its thread is that of `Schd`;
the operations are atomic here, since each of them is a section under `scheduler.lock`.

A system call is run in two ways. `Procs.call` runs it from its start to its end. In the steps (`Procs.act`) a call
is cut where other threads can come in between: `proc_sys_exit` and `proc_sys_kill` have a step for each thread of
the process, and a parent that waits for a child has one between the start of the child and its own `schd_block`.

`Procs.control_call_ok_iff` says in which states a call returns: those in which each thread that is given to a
scheduler operation is in one of the states that the operation takes. `reachable_halt` is a reachable state in
which all four calls halt the kernel.
-/

set_option linter.unusedSectionVars false

namespace Lanthorn

open Function Library List

/-- Where a thread stands in the system calls of process control. -/
inductive ProcPoint (π τ : Type)
  /-- In its own code. -/
  | user
  /-- In a `schd_block` of a mutex, of a message box or of `thread_sys_block`. -/
  | asleep
  /-- In `thread_kern_new` or `thread_user_new` before the `schd_run` of the new thread; `child` is the
  process that it waits for when it comes from `proc_create_from_mm`. -/
  | starting (t : τ) (child : Option π)
  /-- In `proc_create_from_mm` before its `schd_block`. -/
  | creating (child : π)
  /-- In that `schd_block`. -/
  | waiting (child : π)
  /-- In the loop of `proc_sys_exit`, at a thread, with the next one already read. -/
  | exiting (cur next : Option τ)
  /-- In `proc_sys_exit` before the wake-up of the parent. -/
  | exitWake
  /-- In `proc_sys_exit` before the last `schd_kill`. -/
  | exitKill
  /-- In the loop of `proc_sys_kill`. -/
  | killing (cur next : Option τ)
  deriving DecidableEq, Repr

structure Procs (π τ : Type) where
  /-- The `state` of the threads that have been created. -/
  state : τ → Option ThreadState
  /-- `thread->proc`. -/
  proc : τ → π
  /-- `proc->thread_ls`. -/
  threadLs : π → List τ
  /-- `proc->pid`. -/
  pid : π → ℕ
  /-- The processes in `PROC.idx_alct`. -/
  table : List π
  /-- `proc->wait_t`. -/
  waitT : π → Option τ
  point : τ → ProcPoint π τ

namespace Procs

variable {π τ : Type} [DecidableEq π] [DecidableEq τ]

def goto (s : Procs π τ) (t : τ) (at' : ProcPoint π τ) : Procs π τ :=
  { s with point := update s.point t at' }

def setState (s : Procs π τ) (t : τ) (st : ThreadState) : Procs π τ :=
  { s with state := update s.state t (some st) }

/-- `idx_alct_find` on `PROC.idx_alct`. -/
def find (s : Procs π τ) (pid : ℕ) : Option π := s.table.find? fun p ↦ s.pid p = pid

/-- `thread->state`. -/
def stateOf (s : Procs π τ) (t : τ) : Result ThreadState :=
  match s.state t with
  | none => .error .unset
  | some st => .ok st

/-! ### The scheduler operations -/

def schdRun (s : Procs π τ) (t : τ) : Result (Procs π τ) := do
  let st ← s.stateOf t
  let st' ← st.run
  return s.setState t st'

def schdKill (s : Procs π τ) (now t : τ) : Result (Procs π τ) := do
  let st ← s.stateOf t
  let st' ← st.kill (t = now)
  return s.setState t st'

def schdBlock (s : Procs π τ) (now t : τ) : Result (Procs π τ) := do
  assert (t = now)
  assert (s.state t = some .running)
  return s.setState t .blocked

/-! ### Calls from start to end -/

/-- The body of the loop of `proc_sys_kill`. -/
def killOne (s : Procs π τ) (now t : τ) : Result (Procs π τ) :=
  if s.state t = some .killed then .ok s else s.schdKill now t

/-- The body of the loop of `proc_sys_exit`. -/
def exitOne (s : Procs π τ) (now t : τ) : Result (Procs π τ) :=
  if t = now then .ok s else s.killOne now t

/-- `schd_run(proc->wait_t)` of `proc_sys_exit`. -/
def wakeParent (s : Procs π τ) (p : π) : Result (Procs π τ) :=
  match s.waitT p with
  | none => .ok s
  | some w => s.schdRun w

def procSysKill (s : Procs π τ) (now : τ) (pid : ℕ) : Result (Errno × Procs π τ) :=
  if s.pid (s.proc now) = pid then .ok (.inval, s)
  else
    match s.find pid with
    | none => .ok (.notfound, s)
    | some p => do
      let s ← (s.threadLs p).foldlM (fun s t ↦ s.killOne now t) s
      return (.ok, s)

/-- The thread that calls it does not come back; the state is that in which it is killed. -/
def procSysExit (s : Procs π τ) (now : τ) : Result (Errno × Procs π τ) := do
  let s ← (s.threadLs (s.proc now)).foldlM (fun s t ↦ s.exitOne now t) s
  let s ← s.wakeParent (s.proc now)
  let s ← s.schdKill now now
  return (.ok, s)

def threadSysWake (s : Procs π τ) (now t : τ) : Result (Errno × Procs π τ) :=
  if s.proc t ≠ s.proc now then .ok (.inval, s)
  else do
    let s ← s.schdRun t
    return (.ok, s)

def threadSysBlock (s : Procs π τ) (now t : τ) : Result (Errno × Procs π τ) :=
  if s.proc t ≠ s.proc now then .ok (.inval, s)
  else do
    let s ← s.schdBlock now t
    return (.ok, s)

/-- The calls by which a process controls threads and processes. -/
inductive ControlCall (τ : Type)
  | kill (pid : ℕ)
  | exit
  | wake (t : τ)
  | block (t : τ)
  deriving DecidableEq, Repr

/-- A call by the thread `now`, from its start to its end. -/
def call (s : Procs π τ) (now : τ) : ControlCall τ → Result (Errno × Procs π τ)
  | .kill pid => s.procSysKill now pid
  | .exit => s.procSysExit now
  | .wake t => s.threadSysWake now t
  | .block t => s.threadSysBlock now t

/-! ### Steps -/

/-- What happens next: the scheduler starts or stops a thread, or the thread `now` makes a step. -/
inductive Action (π τ : Type)
  | schdule (t : τ)
  | preempt (t : τ)
  /-- `thread_user_new` in the own process, up to `schd_run`. -/
  | newThread (now t : τ)
  /-- `proc_create_from_mm` up to the `schd_run` of the first thread. -/
  | newProc (now : τ) (p : π) (t : τ) (pid : ℕ) (isWait : Bool)
  /-- The `schd_run` of the new thread. -/
  | start (now : τ)
  /-- The `schd_block` of `proc_create_from_mm`. -/
  | blockParent (now : τ)
  /-- A thread goes to sleep in a mutex or a message box, and another thread wakes it. -/
  | sleep (now : τ)
  | notify (now t : τ)
  /-- A thread goes on after `schd_block`. -/
  | wakeUp (now : τ)
  | exitCall (now : τ)
  | exitStep (now : τ)
  | exitWake (now : τ)
  | exitKill (now : τ)
  | killCall (now : τ) (pid : ℕ)
  | killStep (now : τ)
  | threadExit (now : τ)
  | sysWake (now t : τ)
  | sysBlock (now t : τ)
  deriving DecidableEq, Repr

/-- The element after `t` in a list: `p->n` for a node of `thread_ls`, with none for the head. -/
def after (ts : List τ) (t : τ) : Option τ := (ts.dropWhile (· ≠ t)).tail.head?

/-- The thread of a list after the one that `list_rep_s` goes to next. -/
def afterNext (ts : List τ) : Option τ → Option τ
  | none => none
  | some t => after ts t

/-- Where a thread goes on after the `schd_run` of a new thread. -/
def afterStart : Option π → ProcPoint π τ
  | none => .user
  | some p => .creating p

/-- A new thread in a process, `UNSCHDED`. -/
def addThread (s : Procs π τ) (p : π) (t : τ) : Procs π τ :=
  { s.setState t .unschded with
    proc := update s.proc t p
    threadLs := update s.threadLs p (s.threadLs p ++ [t])
    point := update s.point t .user }

def addProc (s : Procs π τ) (p : π) (pid : ℕ) (parent : Option τ) : Procs π τ :=
  { s with
    table := s.table ++ [p]
    pid := update s.pid p pid
    waitT := update s.waitT p parent }

/-- The next step of the thread `now`, without the check that it runs. -/
def exec (s : Procs π τ) : Action π τ → Result (Procs π τ)
  | .schdule t => do
    assert (s.state t = some .runnabel)
    return s.setState t .running
  | .preempt t => do
    assert (s.state t = some .running)
    return s.setState t .runnabel
  | .newThread now t => do
    assert (s.point now = .user ∧ s.state t = none)
    return (s.addThread (s.proc now) t).goto now (.starting t none)
  | .newProc now p t pid isWait => do
    assert (s.point now = .user ∧ s.state t = none ∧ p ∉ s.table ∧ s.threadLs p = [] ∧ ∀ q ∈ s.table, s.pid q ≠ pid)
    let s := s.addProc p pid (if isWait then some now else none)
    return (s.addThread p t).goto now (.starting t (if isWait then some p else none))
  | .start now =>
    match s.point now with
    | .starting t child => do
      let s ← s.schdRun t
      return s.goto now (afterStart child)
    | _ => .error .assertion
  | .blockParent now =>
    match s.point now with
    | .creating p => do
      let s ← s.schdBlock now now
      return s.goto now (.waiting p)
    | _ => .error .assertion
  | .sleep now => do
    assert (s.point now = .user)
    let s ← s.schdBlock now now
    return s.goto now .asleep
  | .notify now t => do
    assert (s.point now = .user ∧ s.point t = .asleep)
    s.schdRun t
  | .wakeUp now =>
    match s.point now with
    | .asleep | .waiting _ => .ok (s.goto now .user)
    | _ => .error .assertion
  | .exitCall now => do
    assert (s.point now = .user)
    let ts := s.threadLs (s.proc now)
    return s.goto now (.exiting ts.head? (afterNext ts ts.head?))
  | .exitStep now =>
    match s.point now with
    | .exiting none _ => .ok (s.goto now .exitWake)
    | .exiting (some t) next => do
      let s ← s.exitOne now t
      return s.goto now (.exiting next (afterNext (s.threadLs (s.proc now)) next))
    | _ => .error .assertion
  | .exitWake now => do
    assert (s.point now = .exitWake)
    let s ← s.wakeParent (s.proc now)
    return s.goto now .exitKill
  | .exitKill now => do
    assert (s.point now = .exitKill)
    s.schdKill now now
  | .killCall now pid => do
    assert (s.point now = .user)
    if s.pid (s.proc now) = pid then return s
    match s.find pid with
    | none => return s
    | some p =>
      let ts := s.threadLs p
      return s.goto now (.killing ts.head? (afterNext ts ts.head?))
  | .killStep now =>
    match s.point now with
    | .killing none _ => .ok (s.goto now .user)
    | .killing (some t) next => do
      let s ← s.killOne now t
      return s.goto now (.killing next (afterNext (s.threadLs (s.proc t)) next))
    | _ => .error .assertion
  | .threadExit now => do
    assert (s.point now = .user)
    s.schdKill now now
  | .sysWake now t => do
    assert (s.point now = .user)
    if s.proc t ≠ s.proc now then return s
    s.schdRun t
  | .sysBlock now t => do
    assert (s.point now = .user)
    if s.proc t ≠ s.proc now then return s
    let s ← s.schdBlock now t
    return s.goto now .asleep

def Action.actor : Action π τ → Option τ
  | .schdule _ | .preempt _ => none
  | .newThread now _ | .newProc now _ _ _ _ | .start now | .blockParent now | .sleep now
  | .notify now _ | .wakeUp now | .exitCall now | .exitStep now | .exitWake now | .exitKill now
  | .killCall now _ | .killStep now | .threadExit now | .sysWake now _ | .sysBlock now _ => some now

/-- The outcome of an action; a thread makes a step only while it is `RUNNING`. An action that cannot be
taken is refused by an assertion; it is then no step, and neither is one at which the kernel panics. -/
def act (s : Procs π τ) (a : Action π τ) : Result (Procs π τ) := do
  assert (∀ now ∈ a.actor, s.state now = some .running)
  s.exec a

/-- How the threads, the processes and their lists fit together. -/
structure Wf (s : Procs π τ) : Prop where
  mem_threadLs : ∀ p t, t ∈ s.threadLs p ↔ s.state t ≠ none ∧ s.proc t = p
  nodup : ∀ p, (s.threadLs p).Nodup
  parent : ∀ p w, s.waitT p = some w → s.proc w ≠ p ∧ s.state w ≠ none

/-- After start-up: every thread is runnable and in its own code, and no process is waited for. -/
structure Init (s : Procs π τ) : Prop where
  wf : s.Wf
  state : ∀ t st, s.state t = some st → st = .runnabel
  point : ∀ t, s.point t = .user
  waitT : ∀ p, s.waitT p = none

def system (π τ : Type) [DecidableEq π] [DecidableEq τ] : System (Procs π τ) (Action π τ) :=
  .ofNext Init act

/-- What the actions do, one case for each way in which they succeed. -/
inductive Step (s : Procs π τ) : Action π τ → Procs π τ → Prop
  | schdule {t : τ} (hst : s.state t = some .runnabel) : Step s (.schdule t) (s.setState t .running)
  | preempt {t : τ} (hst : s.state t = some .running) : Step s (.preempt t) (s.setState t .runnabel)
  | newThread {now t : τ} (hnow : s.state now = some .running) (hat : s.point now = .user)
    (hnew : s.state t = none) :
    Step s (.newThread now t) ((s.addThread (s.proc now) t).goto now (.starting t none))
  | newProc {now : τ} {p : π} {t : τ} {pid : ℕ} {isWait : Bool}
    (hnow : s.state now = some .running) (hat : s.point now = .user) (hnew : s.state t = none)
    (hproc : p ∉ s.table) (hempty : s.threadLs p = []) :
    Step s (.newProc now p t pid isWait)
      (((s.addProc p pid (if isWait then some now else none)).addThread p t).goto now
        (.starting t (if isWait then some p else none)))
  | start {now t : τ} {child : Option π} {st : ThreadState} (hnow : s.state now = some .running)
    (hat : s.point now = .starting t child) (hst : s.state t = some st)
    (hwas : st = .unschded ∨ st = .blocked) :
    Step s (.start now) ((s.setState t .runnabel).goto now (afterStart child))
  | blockParent {now : τ} {p : π} (hnow : s.state now = some .running)
    (hat : s.point now = .creating p) :
    Step s (.blockParent now) ((s.setState now .blocked).goto now (.waiting p))
  | sleep {now : τ} (hnow : s.state now = some .running) (hat : s.point now = .user) :
    Step s (.sleep now) ((s.setState now .blocked).goto now .asleep)
  | notify {now t : τ} {st : ThreadState} (hnow : s.state now = some .running)
    (hat : s.point t = .asleep) (hst : s.state t = some st) (hwas : st = .unschded ∨ st = .blocked) :
    Step s (.notify now t) (s.setState t .runnabel)
  | wakeUp {now : τ} (hnow : s.state now = some .running)
    (hat : s.point now = .asleep ∨ ∃ p, s.point now = .waiting p) :
    Step s (.wakeUp now) (s.goto now .user)
  | exitCall {now : τ} (hnow : s.state now = some .running) (hat : s.point now = .user) :
    Step s (.exitCall now) (s.goto now (.exiting (s.threadLs (s.proc now)).head?
      (afterNext (s.threadLs (s.proc now)) (s.threadLs (s.proc now)).head?)))
  | exitDone {now : τ} {next : Option τ} (hnow : s.state now = some .running)
    (hat : s.point now = .exiting none next) : Step s (.exitStep now) (s.goto now .exitWake)
  | exitSkip {now t : τ} {next : Option τ} (hnow : s.state now = some .running)
    (hat : s.point now = .exiting (some t) next) (hskip : t = now ∨ s.state t = some .killed) :
    Step s (.exitStep now)
      (s.goto now (.exiting next (afterNext (s.threadLs (s.proc now)) next)))
  | exitOther {now t : τ} {next : Option τ} {st : ThreadState} (hnow : s.state now = some .running)
    (hat : s.point now = .exiting (some t) next) (hne : t ≠ now) (hst : s.state t = some st)
    (hwas : st = .runnabel ∨ st = .sleeping) :
    Step s (.exitStep now) ((s.setState t .killed).goto now
      (.exiting next (afterNext (s.threadLs (s.proc now)) next)))
  | exitNoParent {now : τ} (hnow : s.state now = some .running) (hat : s.point now = .exitWake)
    (hnone : s.waitT (s.proc now) = none) : Step s (.exitWake now) (s.goto now .exitKill)
  | exitWake {now w : τ} {st : ThreadState} (hnow : s.state now = some .running)
    (hat : s.point now = .exitWake) (hparent : s.waitT (s.proc now) = some w)
    (hst : s.state w = some st) (hwas : st = .unschded ∨ st = .blocked) :
    Step s (.exitWake now) ((s.setState w .runnabel).goto now .exitKill)
  | exitKill {now : τ} (hnow : s.state now = some .running) (hat : s.point now = .exitKill) :
    Step s (.exitKill now) (s.setState now .killed)
  | killRefused {now : τ} {pid : ℕ} : Step s (.killCall now pid) s
  | killCall {now : τ} {pid : ℕ} {p : π} (hnow : s.state now = some .running)
    (hat : s.point now = .user) (hother : s.pid (s.proc now) ≠ pid) (hfind : s.find pid = some p) :
    Step s (.killCall now pid) (s.goto now (.killing (s.threadLs p).head?
      (afterNext (s.threadLs p) (s.threadLs p).head?)))
  | killDone {now : τ} {next : Option τ} (hnow : s.state now = some .running)
    (hat : s.point now = .killing none next) : Step s (.killStep now) (s.goto now .user)
  | killSkip {now t : τ} {next : Option τ} (hnow : s.state now = some .running)
    (hat : s.point now = .killing (some t) next) (hskip : s.state t = some .killed) :
    Step s (.killStep now) (s.goto now (.killing next (afterNext (s.threadLs (s.proc t)) next)))
  | killOther {now t : τ} {next : Option τ} {st : ThreadState} (hnow : s.state now = some .running)
    (hat : s.point now = .killing (some t) next) (hst : s.state t = some st)
    (hwas : st = .runnabel ∨ st = .sleeping ∨ st = .running ∧ t = now) :
    Step s (.killStep now) ((s.setState t .killed).goto now
      (.killing next (afterNext (s.threadLs (s.proc t)) next)))
  | threadExit {now : τ} (hnow : s.state now = some .running) (hat : s.point now = .user) :
    Step s (.threadExit now) (s.setState now .killed)
  | wakeRefused {now t : τ} : Step s (.sysWake now t) s
  | sysWake {now t : τ} {st : ThreadState} (hnow : s.state now = some .running)
    (hat : s.point now = .user) (hproc : s.proc t = s.proc now) (hst : s.state t = some st)
    (hwas : st = .unschded ∨ st = .blocked) :
    Step s (.sysWake now t) (s.setState t .runnabel)
  | blockRefused {now t : τ} : Step s (.sysBlock now t) s
  | sysBlock {now : τ} (hnow : s.state now = some .running) (hat : s.point now = .user) :
    Step s (.sysBlock now now) ((s.setState now .blocked).goto now .asleep)

section Inversion

variable {s s' : Procs π τ} {now t : τ}

theorem stateOf_eq_ok {st : ThreadState} : s.stateOf t = .ok st ↔ s.state t = some st := by
  unfold stateOf
  cases s.state t <;> simp

theorem schdRun_eq_ok : s.schdRun t = .ok s' ↔
    (∃ st, s.state t = some st ∧ (st = .unschded ∨ st = .blocked)) ∧ s' = s.setState t .runnabel := by
  unfold schdRun
  simp only [bind_eq_ok, stateOf_eq_ok, ThreadState.run_eq_ok, Except.ok.injEq, pure_eq]
  grind

theorem schdKill_eq_ok : s.schdKill now t = .ok s' ↔
    (∃ st, s.state t = some st ∧ (st = .runnabel ∨ st = .sleeping ∨ st = .running ∧ t = now)) ∧
      s' = s.setState t .killed := by
  unfold schdKill
  simp only [bind_eq_ok, stateOf_eq_ok, ThreadState.kill_eq_ok, decide_eq_true_eq, Except.ok.injEq, pure_eq]
  grind

theorem schdBlock_eq_ok : s.schdBlock now t = .ok s' ↔
    t = now ∧ s.state t = some .running ∧ s' = s.setState t .blocked := by
  unfold schdBlock
  simp only [bind_eq_ok, assert_eq_ok, Except.ok.injEq, exists_const, @eq_comm _ s', pure_eq]

theorem schdKill_now (hnow : s.state now = some .running) : s.schdKill now now = .ok (s.setState now .killed) :=
  schdKill_eq_ok.mpr ⟨⟨_, hnow, .inr (.inr ⟨rfl, rfl⟩)⟩, rfl⟩

theorem killOne_eq_ok : s.killOne now t = .ok s' ↔ s.state t = some .killed ∧ s' = s ∨
    (∃ st, s.state t = some st ∧ (st = .runnabel ∨ st = .sleeping ∨ st = .running ∧ t = now)) ∧
      s' = s.setState t .killed := by grind [killOne, schdKill_eq_ok]

theorem step_of_exitStep (hnow : s.state now = some .running)
    (hact : s.exec (.exitStep now) = .ok s') : s.Step (.exitStep now) s' := by
  simp only [exec] at hact
  split at hact
  · next next hat =>
    cases hact
    exact .exitDone hnow hat
  · next t next hat =>
    obtain ⟨mid, hmid, hact⟩ := bind_eq_ok.mp hact
    cases hact
    unfold exitOne at hmid
    split_ifs at hmid with hself
    · cases hmid
      exact .exitSkip hnow hat (.inl hself)
    · obtain ⟨hkilled, rfl⟩ | ⟨⟨st, hst, hwas⟩, rfl⟩ := killOne_eq_ok.mp hmid
      · exact .exitSkip hnow hat (.inr hkilled)
      · exact .exitOther hnow hat hself hst (by tauto)
  · simp at hact

theorem step_of_killStep (hnow : s.state now = some .running)
    (hact : s.exec (.killStep now) = .ok s') : s.Step (.killStep now) s' := by
  simp only [exec] at hact
  split at hact
  · next next hat =>
    cases hact
    exact .killDone hnow hat
  · next t next hat =>
    obtain ⟨mid, hmid, hact⟩ := bind_eq_ok.mp hact
    cases hact
    obtain ⟨hkilled, rfl⟩ | ⟨⟨st, hst, hwas⟩, rfl⟩ := killOne_eq_ok.mp hmid
    · exact .killSkip hnow hat hkilled
    · exact .killOther hnow hat hst hwas
  · simp at hact

theorem step_of_killCall {pid : ℕ} (hnow : s.state now = some .running)
    (hact : s.exec (.killCall now pid) = .ok s') : s.Step (.killCall now pid) s' := by
  obtain ⟨_, hat, hact⟩ := bind_eq_ok.mp hact
  split_ifs at hact with hown
  · cases hact
    exact .killRefused
  · split at hact
    · cases hact
      exact .killRefused
    · next p hfind =>
      cases hact
      exact .killCall hnow (assert_eq_ok.mp hat) hown hfind

theorem step_of_act {a : Action π τ} (hact : s.act a = .ok s') : s.Step a s' := by
  obtain ⟨_, hactor, hact⟩ := bind_eq_ok.mp hact
  rw [assert_eq_ok] at hactor
  cases a with
  | schdule t =>
    obtain ⟨_, hst, hact⟩ := bind_eq_ok.mp hact
    cases hact
    exact .schdule (assert_eq_ok.mp hst)
  | preempt t =>
    obtain ⟨_, hst, hact⟩ := bind_eq_ok.mp hact
    cases hact
    exact .preempt (assert_eq_ok.mp hst)
  | newThread now t =>
    obtain ⟨_, hat, hact⟩ := bind_eq_ok.mp hact
    obtain ⟨hat, hnew⟩ := assert_eq_ok.mp hat
    cases hact
    exact .newThread (hactor now rfl) hat hnew
  | newProc now p t pid isWait =>
    obtain ⟨_, hat, hact⟩ := bind_eq_ok.mp hact
    obtain ⟨hat, hnew, hproc, hempty, -⟩ := assert_eq_ok.mp hat
    cases hact
    exact .newProc (hactor now rfl) hat hnew hproc hempty
  | start now =>
    simp only [exec] at hact
    split at hact
    · next t child hat =>
      obtain ⟨mid, hmid, hact⟩ := bind_eq_ok.mp hact
      obtain ⟨⟨st, hst, hwas⟩, rfl⟩ := schdRun_eq_ok.mp hmid
      cases hact
      exact .start (hactor now rfl) hat hst hwas
    · simp at hact
  | blockParent now =>
    simp only [exec] at hact
    split at hact
    · next p hat =>
      obtain ⟨mid, hmid, hact⟩ := bind_eq_ok.mp hact
      obtain ⟨-, -, rfl⟩ := schdBlock_eq_ok.mp hmid
      cases hact
      exact .blockParent (hactor now rfl) hat
    · simp at hact
  | sleep now =>
    obtain ⟨_, hat, hact⟩ := bind_eq_ok.mp hact
    obtain ⟨mid, hmid, hact⟩ := bind_eq_ok.mp hact
    obtain ⟨-, -, rfl⟩ := schdBlock_eq_ok.mp hmid
    cases hact
    exact .sleep (hactor now rfl) (assert_eq_ok.mp hat)
  | notify now t =>
    obtain ⟨_, hat, hact⟩ := bind_eq_ok.mp hact
    obtain ⟨⟨st, hst, hwas⟩, rfl⟩ := schdRun_eq_ok.mp hact
    exact .notify (hactor now rfl) (assert_eq_ok.mp hat).2 hst hwas
  | wakeUp now =>
    simp only [exec] at hact
    split at hact
    · next hat =>
      cases hact
      exact .wakeUp (hactor now rfl) (.inl hat)
    · next p hat =>
      cases hact
      exact .wakeUp (hactor now rfl) (.inr ⟨p, hat⟩)
    · simp at hact
  | exitCall now =>
    obtain ⟨_, hat, hact⟩ := bind_eq_ok.mp hact
    cases hact
    exact .exitCall (hactor now rfl) (assert_eq_ok.mp hat)
  | exitStep now => exact step_of_exitStep (hactor now rfl) hact
  | exitWake now =>
    obtain ⟨_, hat, hact⟩ := bind_eq_ok.mp hact
    obtain ⟨mid, hmid, hact⟩ := bind_eq_ok.mp hact
    cases hact
    rw [assert_eq_ok] at hat
    unfold wakeParent at hmid
    split at hmid
    · next hnone =>
      cases hmid
      exact .exitNoParent (hactor now rfl) hat hnone
    · next w hparent =>
      obtain ⟨⟨st, hst, hwas⟩, rfl⟩ := schdRun_eq_ok.mp hmid
      exact .exitWake (hactor now rfl) hat hparent hst hwas
  | exitKill now =>
    obtain ⟨_, hat, hact⟩ := bind_eq_ok.mp hact
    obtain ⟨-, rfl⟩ := schdKill_eq_ok.mp hact
    exact .exitKill (hactor now rfl) (assert_eq_ok.mp hat)
  | killCall now pid => exact step_of_killCall (hactor now rfl) hact
  | killStep now => exact step_of_killStep (hactor now rfl) hact
  | threadExit now =>
    obtain ⟨_, hat, hact⟩ := bind_eq_ok.mp hact
    obtain ⟨-, rfl⟩ := schdKill_eq_ok.mp hact
    exact .threadExit (hactor now rfl) (assert_eq_ok.mp hat)
  | sysWake now t =>
    obtain ⟨_, hat, hact⟩ := bind_eq_ok.mp hact
    split_ifs at hact with hother
    · cases hact
      exact .wakeRefused
    · obtain ⟨⟨st, hst, hwas⟩, rfl⟩ := schdRun_eq_ok.mp hact
      exact .sysWake (hactor now rfl) (assert_eq_ok.mp hat) (not_not.mp hother) hst hwas
  | sysBlock now t =>
    obtain ⟨_, hat, hact⟩ := bind_eq_ok.mp hact
    split_ifs at hact with hother
    · cases hact
      exact .blockRefused
    · obtain ⟨mid, hmid, hact⟩ := bind_eq_ok.mp hact
      obtain ⟨rfl, -, rfl⟩ := schdBlock_eq_ok.mp hmid
      cases hact
      exact .sysBlock (hactor _ rfl) (assert_eq_ok.mp hat)

end Inversion

/-! ### Well-formedness -/

namespace Wf

variable {s : Procs π τ} {now t : τ} {p : π}

theorem goto (h : s.Wf) (at' : ProcPoint π τ) : (s.goto now at').Wf := ⟨h.1, h.2, h.3⟩

theorem setState (h : s.Wf) (ht : s.state t ≠ none) (st : ThreadState) : (s.setState t st).Wf := by
  have hstate : ∀ u, (s.setState t st).state u ≠ none ↔ s.state u ≠ none := fun u ↦ by
    simp only [Procs.setState, update_apply]
    split_ifs with hu <;> simp [hu, ht]
  exact ⟨fun q u ↦ by rw [hstate]; exact h.mem_threadLs q u, h.nodup,
    fun q w hw ↦ by rw [hstate]; exact h.parent q w hw⟩

theorem addThread (h : s.Wf) (ht : s.state t = none) : (s.addThread p t).Wf := by
  have hnot : ∀ q, t ∉ s.threadLs q := fun q hq ↦ by simpa [ht] using (h.mem_threadLs q t).mp hq
  obtain ⟨hmem, hnodup, hparent⟩ := h
  constructor
  · intro q u
    simp only [Procs.addThread, Procs.setState, update_apply]
    grind
  · intro q
    simp only [Procs.addThread, update_apply]
    grind
  · intro q w hw
    have := hparent q w hw
    simp only [Procs.addThread, Procs.setState, update_apply]
    grind

theorem addProc (h : s.Wf) (hempty : s.threadLs p = []) {pid : ℕ} {parent : Option τ}
    (hparent : ∀ w ∈ parent, s.state w ≠ none) : (s.addProc p pid parent).Wf := by
  refine ⟨h.mem_threadLs, h.nodup, fun q w hw ↦ ?_⟩
  simp only [Procs.addProc, update_apply] at hw
  split_ifs at hw with hq
  · -- The parent is in the list of its own process, and that of the new one is empty.
    refine ⟨fun hproc ↦ ?_, hparent w hw⟩
    have hmem := (h.mem_threadLs p w).mpr ⟨hparent w hw, hproc.trans hq⟩
    simp [hempty] at hmem
  · exact h.parent q w hw

theorem step {s' : Procs π τ} {a : Action π τ} (h : s.Wf) (hstep : s.Step a s') : s'.Wf := by
  cases hstep with
  | schdule hst | preempt hst => exact h.setState (by simp [hst]) _
  | newThread _ _ hnew => exact (h.addThread hnew).goto _
  | @newProc now p t pid isWait hnow _ hnew _ hempty =>
    have hadd : (s.addProc p pid (if isWait then some now else none)).Wf :=
      h.addProc hempty fun w hw ↦ by
        split_ifs at hw with hwait
        · cases hw
          simp [hnow]
        · simp at hw
    exact (hadd.addThread hnew).goto _
  | start _ _ hst | exitWake _ _ _ hst => exact (h.setState (by simp [hst]) _).goto _
  | blockParent hnow | sleep hnow | sysBlock hnow => exact (h.setState (by simp [hnow]) _).goto _
  | notify _ _ hst => exact h.setState (by simp [hst]) _
  | sysWake _ _ _ hst => exact h.setState (by simp [hst]) _
  | wakeUp | exitCall | exitDone | exitSkip | exitNoParent | killCall | killDone | killSkip => exact h.goto _
  | exitOther _ _ _ hst => exact (h.setState (by simp [hst]) _).goto _
  | killOther _ _ hst => exact (h.setState (by simp [hst]) _).goto _
  | exitKill hnow | threadExit hnow => exact h.setState (by simp [hnow]) _
  | killRefused | wakeRefused | blockRefused => exact h

end Wf

theorem wf_of_reachable {s : Procs π τ} (h : (system π τ).Reachable s) : s.Wf :=
  h.invariant (fun s (hinit : s.Init) ↦ hinit.wf) fun _ _ _ hwf hact ↦ hwf.step (step_of_act hact)

/-! ### When a call returns -/

/-- The states in which `schd_kill` takes a thread, or is not called for it. -/
def Stoppable (s : Procs π τ) (t : τ) : Prop :=
  s.state t = some .runnabel ∨ s.state t = some .sleeping ∨ s.state t = some .killed

/-- The states in which `schd_run` takes a thread. -/
def Startable (s : Procs π τ) (t : τ) : Prop :=
  s.state t = some .unschded ∨ s.state t = some .blocked

/-- The condition for a call by `now` to return: every thread of a process that is killed is runnable,
sleeping or killed, and so are the other threads of a process that exits, whose waiting parent, if it
has one, is blocked; a thread of the own process that is woken is blocked or has not been started; and
a thread blocks no other thread of its process. -/
def CallSafe (s : Procs π τ) (now : τ) : ControlCall τ → Prop
  | .kill pid => s.pid (s.proc now) = pid ∨ ∀ p, s.find pid = some p → ∀ t ∈ s.threadLs p, s.Stoppable t
  | .exit => (∀ t ∈ s.threadLs (s.proc now), t ≠ now → s.Stoppable t) ∧
    ∀ w, s.waitT (s.proc now) = some w → s.Startable w
  | .wake t => s.proc t = s.proc now → s.Startable t
  | .block t => s.proc t = s.proc now → t = now

section Calls

variable {s s' : Procs π τ} {now t : τ} {ts : List τ}

theorem schdRun_ok_iff : (∃ s', s.schdRun t = .ok s') ↔ s.Startable t := by
  simp only [schdRun_eq_ok, Startable]
  grind

theorem killOne_ok_iff (hne : t ≠ now) : (∃ s', s.killOne now t = .ok s') ↔ s.Stoppable t := by
  simp only [killOne_eq_ok, Stoppable]
  grind

/-- Two states that differ only in the states of some threads. -/
structure Agrees (ts : List τ) (s s' : Procs π τ) : Prop where
  state : ∀ u, u ∉ ts → s'.state u = s.state u
  proc : s'.proc = s.proc
  waitT : s'.waitT = s.waitT

theorem killOne_agrees (h : s.killOne now t = .ok s') : Agrees [t] s s' := by
  obtain ⟨-, rfl⟩ | ⟨-, rfl⟩ := killOne_eq_ok.mp h
  · exact ⟨fun _ _ ↦ rfl, rfl, rfl⟩
  · exact ⟨fun u hu ↦ update_of_ne (by simpa using hu) _ _, rfl, rfl⟩

theorem foldlM_killOne_agrees (h : ts.foldlM (fun s t ↦ s.killOne now t) s = .ok s') : Agrees ts s s' := by
  induction ts generalizing s with
  | nil =>
    cases h
    exact ⟨fun _ _ ↦ rfl, rfl, rfl⟩
  | cons t ts ih =>
    rw [foldlM_cons] at h
    obtain ⟨mid, hmid, h⟩ := bind_eq_ok.mp h
    have hone := killOne_agrees hmid
    have hrest := ih h
    refine ⟨fun u hu ↦ ?_, hrest.proc.trans hone.proc, hrest.waitT.trans hone.waitT⟩
    grind [hrest.state, hone.state]

theorem foldlM_killOne_ok_iff (hnodup : ts.Nodup) (hnow : now ∉ ts) :
    (∃ s', ts.foldlM (fun s t ↦ s.killOne now t) s = .ok s') ↔ ∀ t ∈ ts, s.Stoppable t := by
  induction ts generalizing s with
  | nil => simp
  | cons t ts ih =>
    rw [nodup_cons] at hnodup
    rw [mem_cons, not_or] at hnow
    have hkeeps : ∀ mid, s.killOne now t = .ok mid →
        ((∀ u ∈ ts, mid.Stoppable u) ↔ ∀ u ∈ ts, s.Stoppable u) := fun mid hmid ↦ by
      refine forall₂_congr fun u hu ↦ ?_
      have hstate := (killOne_agrees hmid).state u
        (by rintro hmem; rw [List.mem_singleton.mp hmem] at hu; exact hnodup.1 hu)
      simp only [Stoppable, hstate]
    simp only [foldlM_cons, bind_eq_ok, forall_mem_cons, ← killOne_ok_iff (Ne.symm hnow.1)]
    constructor
    · rintro ⟨s', mid, hmid, hrest⟩
      exact ⟨⟨mid, hmid⟩, (hkeeps mid hmid).mp ((ih hnodup.2 hnow.2).mp ⟨s', hrest⟩)⟩
    · rintro ⟨⟨mid, hmid⟩, hrest⟩
      obtain ⟨s', hs'⟩ := (ih hnodup.2 hnow.2).mpr ((hkeeps mid hmid).mpr hrest)
      exact ⟨s', mid, hmid, hs'⟩

theorem foldlM_exitOne : ts.foldlM (fun s t ↦ s.exitOne now t) s =
    (ts.filter (· ≠ now)).foldlM (fun s t ↦ s.killOne now t) s := by
  induction ts generalizing s with
  | nil => rfl
  | cons t ts ih =>
    by_cases ht : t = now
    · simp only [foldlM_cons, exitOne, ht, if_true, filter_cons, ne_eq, not_true_eq_false,
        decide_false, Bool.false_eq_true, if_false]
      exact ih
    · simp only [foldlM_cons, exitOne, ht, if_false, filter_cons, ne_eq, not_false_eq_true, decide_true, if_true]
      exact congrArg _ (funext fun _ ↦ ih)

theorem procSysKill_ok_iff (h : s.Wf) {pid : ℕ} :
    (∃ r, s.procSysKill now pid = .ok r) ↔ s.CallSafe now (.kill pid) := by
  unfold procSysKill CallSafe
  split_ifs with hown
  · simp [hown]
  · cases hfind : s.find pid with
    | none => simp [hfind]
    | some p =>
      -- The process has another pid than the caller's, so the caller is not one of its threads.
      have hpid : s.pid p = pid := by simpa using List.find?_some hfind
      have hnot : now ∉ s.threadLs p := fun hmem ↦ by
        rw [((h.mem_threadLs p now).mp hmem).2] at hown
        exact hown hpid
      simp only [bind_eq_ok, hown, false_or, hfind, Option.some.injEq, forall_eq',
        ← foldlM_killOne_ok_iff (h.nodup p) hnot]
      exact ⟨fun ⟨r, mid, hmid, _⟩ ↦ ⟨mid, hmid⟩, fun ⟨mid, hmid⟩ ↦ ⟨_, mid, hmid, rfl⟩⟩

theorem procSysExit_ok_iff (h : s.Wf) (hnow : s.state now = some .running) :
    (∃ r, s.procSysExit now = .ok r) ↔ s.CallSafe now .exit := by
  have hmem : ∀ t, t ∈ (s.threadLs (s.proc now)).filter (· ≠ now) ↔
      t ∈ s.threadLs (s.proc now) ∧ t ≠ now := fun t ↦ by simp
  have hloop := @foldlM_killOne_ok_iff π τ _ _ s now _
    ((h.nodup (s.proc now)).filter (· ≠ now)) (by simp)
  -- The loop leaves the caller and the parent, which is in another process, as they are.
  have hafter : ∀ mid, ((s.threadLs (s.proc now)).filter (· ≠ now)).foldlM
      (fun s t ↦ s.killOne now t) s = .ok mid → mid.waitT (mid.proc now) = s.waitT (s.proc now) ∧
      mid.state now = some .running ∧
      ∀ w, s.waitT (s.proc now) = some w → (mid.Startable w ↔ s.Startable w) := fun mid hmid ↦ by
    have hagrees := foldlM_killOne_agrees hmid
    grind [hagrees.waitT, hagrees.proc, hagrees.state, h.parent, h.mem_threadLs, Startable]
  simp only [procSysExit, bind_eq_ok, foldlM_exitOne, CallSafe]
  constructor
  · grind [wakeParent, schdRun_ok_iff]
  · rintro ⟨hothers, hparent⟩
    obtain ⟨mid, hmid⟩ := hloop.mpr fun t ht ↦ hothers t ((hmem t).mp ht).1 ((hmem t).mp ht).2
    obtain ⟨hwait, hrunning, hstart⟩ := hafter mid hmid
    cases hw : s.waitT (s.proc now) with
    | none =>
      refine ⟨_, mid, hmid, mid, ?_, _, schdKill_now hrunning, rfl⟩
      rw [wakeParent, hwait, hw]
    | some w =>
      obtain ⟨mid', hmid'⟩ := schdRun_ok_iff.mpr ((hstart w hw).mpr (hparent w hw))
      have hrunning' : mid'.state now = some .running := by
        obtain ⟨⟨st, hst, hwas⟩, rfl⟩ := schdRun_eq_ok.mp hmid'
        have hne : now ≠ w := fun heq ↦ (h.parent _ w hw).1 (heq ▸ rfl)
        exact (update_of_ne hne _ _).trans hrunning
      refine ⟨_, mid, hmid, mid', ?_, _, schdKill_now hrunning', rfl⟩
      rw [wakeParent, hwait, hw]
      exact hmid'

theorem threadSysWake_ok_iff : (∃ r, s.threadSysWake now t = .ok r) ↔ s.CallSafe now (.wake t) := by
  unfold threadSysWake CallSafe
  split_ifs with hother
  · simp [hother]
  · rw [not_not] at hother
    simp only [bind_eq_ok, hother, true_implies, ← schdRun_ok_iff]
    exact ⟨fun ⟨r, mid, hmid, _⟩ ↦ ⟨mid, hmid⟩, fun ⟨mid, hmid⟩ ↦ ⟨_, mid, hmid, rfl⟩⟩

theorem threadSysBlock_ok_iff (hnow : s.state now = some .running) :
    (∃ r, s.threadSysBlock now t = .ok r) ↔ s.CallSafe now (.block t) := by
  unfold threadSysBlock CallSafe
  split_ifs with hother
  · simp [hother]
  · rw [not_not] at hother
    simp only [bind_eq_ok, hother, true_implies, schdBlock_eq_ok]
    constructor
    · rintro ⟨r, mid, ⟨rfl, -⟩, -⟩
      rfl
    · rintro rfl
      exact ⟨_, _, ⟨rfl, hnow, rfl⟩, rfl⟩

end Calls

/-- In every reachable state, a call by a running thread returns exactly when the condition holds;
otherwise it ends in a panic or a failed assertion of the scheduler. -/
theorem control_call_ok_iff {s : Procs π τ} (h : (system π τ).Reachable s) {now : τ}
    (hnow : s.state now = some .running) (c : ControlCall τ) : (∃ r, s.call now c = .ok r) ↔ s.CallSafe now c := by
  have hwf := wf_of_reachable h
  cases c with
  | kill pid => exact procSysKill_ok_iff hwf
  | exit => exact procSysExit_ok_iff hwf hnow
  | wake t => exact threadSysWake_ok_iff
  | block t => exact threadSysBlock_ok_iff hnow

def exampleInit : Procs (Fin 2) (Fin 3) where
  state t := if t = 0 then some .runnabel else none
  proc _ := 0
  threadLs p := if p = 0 then [0] else []
  pid _ := 0
  table := [0]
  waitT _ := none
  point _ := .user

theorem exampleInit_init : exampleInit.Init := by refine ⟨⟨?_, ?_, ?_⟩, ?_, ?_, ?_⟩ <;> decide +revert +kernel

/-- The first thread makes a second one in its process and a third one in a new process; both of them
go to sleep. -/
def exampleActions : List (Action (Fin 2) (Fin 3)) :=
  [.schdule 0, .newThread 0 1, .start 0, .newProc 0 1 2 1 false, .start 0, .schdule 1, .schdule 2,
    .sleep 1, .sleep 2]

/-- What is seen of a state, and the outcomes of the calls of its first thread. -/
def exampleView (s : Procs (Fin 2) (Fin 3)) : List (Option ThreadState) × List (Result Unit) :=
  ([s.state 0, s.state 1, s.state 2], [.kill 1, .exit, .wake 0, .block 1].map fun c ↦ (s.call 0 c).map fun _ ↦ ())

theorem exampleActions_view : ∃ s, (system _ _).Reachable s ∧ exampleView s =
      ([some .running, some .blocked, some .blocked],
        [.error .panic, .error .panic, .error .panic, .error .assertion]) := by
  have hrun : (exampleActions.foldlM act exampleInit).map exampleView =
      .ok ([some .running, some .blocked, some .blocked],
        [.error .panic, .error .panic, .error .panic, .error .assertion]) := by decide +kernel
  obtain ⟨s, hacts, hrun⟩ := map_eq_ok.mp hrun
  exact ⟨s, System.reachable_of_foldlM (.init exampleInit_init) hacts, hrun⟩

/-- The condition holds for the wake-up of a blocked thread of the own process. -/
theorem control_call_ok_iff_example :
    ∃ s : Procs (Fin 2) (Fin 3), (system _ _).Reachable s ∧ s.state 0 = some .running ∧
      s.CallSafe 0 (.wake 1) ∧ ∃ r, s.call 0 (.wake 1) = .ok r := by
  obtain ⟨s, hreach, hview⟩ := exampleActions_view
  simp only [exampleView, Prod.mk.injEq, List.cons.injEq] at hview
  have hsafe : s.CallSafe 0 (.wake 1) := fun _ ↦ .inr hview.1.2.1
  exact ⟨s, hreach, hview.1.1, hsafe, (control_call_ok_iff hreach hview.1.1 _).mpr hsafe⟩

/-- A reachable state in which each of the four calls halts the kernel: a process with a blocked thread
is killed, a process exits while one of its threads is blocked, a running thread is woken, and a thread
blocks another one. -/
theorem reachable_halt : ∃ s : Procs (Fin 2) (Fin 3), (system _ _).Reachable s ∧ s.state 0 = some .running ∧
      (s.call 0 (.kill 1)).map (fun _ ↦ ()) = .error .panic ∧ (s.call 0 .exit).map (fun _ ↦ ()) = .error .panic ∧
      (s.call 0 (.wake 0)).map (fun _ ↦ ()) = .error .panic ∧
      (s.call 0 (.block 1)).map (fun _ ↦ ()) = .error .assertion := by
  obtain ⟨s, hreach, hview⟩ := exampleActions_view
  grind [exampleView]

end Procs

end Lanthorn
