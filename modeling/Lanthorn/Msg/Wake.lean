import Lanthorn.Msg.Msg
import Lanthorn.Proc.Schd

/-!
# Blocked receivers

Any number of `msg_send` and blocking `msg_recieve` calls on one box. A section under the lock of the box
is one step; a receiver that finds no message marks the box in its section, releases the lock, blocks in
`schd_block`, is woken and takes the lock again, each of which is a step of its own. Preemption,
scheduling and sleeping in the mutex happen between them, on any number of CPUs.

The box stays `BOX_RCV_BLK` until the receiver has the lock again, so that a `msg_send` calls `schd_run`
also when the receiver is not yet blocked or is no longer so (`Wake.reachable_bad_run`). In runs where
no `msg_send` takes the lock in these windows, every `schd_run` is for a blocked thread, every blocking
receive is woken once, and a receiver that resumes finds a message (`Wake.undisturbed_run_contract`).
-/

set_option linter.unusedSectionVars false

namespace Lanthorn

open Function

open Library Msgs

/-- Where a thread stands in `msg_send` or in a blocking `msg_recieve`. -/
inductive WakePoint (μ : Type)
  | idle
  /-- `msg_send` before the lock of the box. -/
  | send (m : μ)
  /-- `msg_recieve` before the lock of the box. -/
  | recieve
  /-- `msg_recieve` before `mutex_unlock`, after the box has been marked. -/
  | release
  /-- `msg_recieve` before the mark of `schd_block`. -/
  | block
  /-- `msg_recieve` in `schd_block`. -/
  | asleep
  /-- `msg_recieve` before the lock of the box, after `schd_block`. -/
  | again
  deriving DecidableEq, Repr

namespace WakePoint

variable {μ : Type}

def Locks : WakePoint μ → Bool
  | .send _ | .recieve | .again => true
  | .idle | .release | .block | .asleep => false

/-- The points between `intr_irq_save` and the mark of `schd_block`. -/
def IrqSaved : WakePoint μ → Bool
  | .release | .block => true
  | .idle | .send _ | .recieve | .asleep | .again => false

def Receives : WakePoint μ → Bool
  | .release | .block | .asleep | .again => true
  | .idle | .send _ | .recieve => false

end WakePoint

structure Wake (π τ μ β γ : Type) where
  msgs : Msgs π τ μ β γ
  /-- The thread that holds the lock of the box between two steps. -/
  lock : Option τ
  state : τ → ThreadState
  point : τ → WakePoint μ
  /-- What each `schd_run` of a `msg_send` was given, with the state in which it found the thread. -/
  runs : List (Option τ × Option ThreadState)
  /-- How often a thread has marked the box to block. -/
  blocks : τ → ℕ
  /-- How often a thread has been woken by a `msg_send`. -/
  woken : τ → ℕ
  /-- Whether a `schd_run` has stopped the kernel. -/
  halted : Bool

namespace Wake

variable {π τ μ β γ : Type} [DecidableEq π] [DecidableEq τ] [DecidableEq μ] [DecidableEq β]

def goto (s : Wake π τ μ β γ) (now : τ) (at' : WakePoint μ) : Wake π τ μ β γ :=
  { s with point := update s.point now at' }

def setState (s : Wake π τ μ β γ) (t : τ) (st : ThreadState) : Wake π τ μ β γ :=
  { s with state := update s.state t st }

/-- A step of a thread, or of the scheduler or the mutex on it. -/
inductive Action (τ μ : Type)
  | send (now : τ) (m : μ)
  | recieve (now : τ)
  | sendSection (now : τ)
  | recieveSection (now : τ)
  | release (now : τ)
  | block (now : τ)
  | resume (now : τ)
  | recieveAgain (now : τ)
  | mutexWait (t : τ)
  | mutexGrant (t : τ)
  | preempt (t : τ)
  | dispatch (t : τ)

/-- `schd_run` by a `msg_send`; a null pointer or a state that it panics for stops the kernel. -/
def schdRun (s : Wake π τ μ β γ) (thread : Option τ) : Wake π τ μ β γ :=
  match thread with
  | none => { s with runs := s.runs ++ [(none, none)], halted := true }
  | some t =>
    let s := { s with runs := s.runs ++ [(some t, some (s.state t))] }
    match (s.state t).run with
    | .error _ => { s with halted := true }
    | .ok st => ({ s with woken := update s.woken t (s.woken t + 1) }).setState t st

/-- The section of `msg_send`. -/
def sendSection (s : Wake π τ μ β γ) (p : π) (now : τ) (b : β) (m : μ) : Result (Wake π τ μ β γ) := do
  let (_, wake, msgs) ← s.msgs.sendMsg p b m
  let s := ({ s with msgs := msgs }).goto now .idle
  match wake with
  | none => return s
  | some thread => return s.schdRun thread

def recieveOne (s : Wake π τ μ β γ) (p : π) (now : τ) (b : β) : Result (Wake π τ μ β γ) := do
  let (_, msgs) ← s.msgs.take p b
  return ({ s with msgs := msgs }).goto now .idle

/-- The first section of `msg_recieve`; a receiver that is about to block keeps the lock. -/
def recieveSection (s : Wake π τ μ β γ) (p : π) (now : τ) (b : β) : Result (Wake π τ μ β γ) := do
  let (r, msgs) ← s.msgs.recieveTest now p b true
  match r with
  | .fail _ => return s.goto now .idle
  | .ready => recieveOne { s with msgs := msgs } p now b
  | .block =>
    let blocks := update s.blocks now (s.blocks now + 1)
    return ({ s with msgs := msgs, lock := some now, blocks := blocks }).goto now .release

/-- The outcome of an action, for the box `b` and the process `proc t` of each thread `t`. -/
def act (proc : τ → π) (b : β) (s : Wake π τ μ β γ) : Action τ μ → Result (Wake π τ μ β γ)
  | .send now m => do
    assert (s.halted = false ∧ s.state now = .running ∧ s.point now = .idle)
    return s.goto now (.send m)
  | .recieve now => do
    assert (s.halted = false ∧ s.state now = .running ∧ s.point now = .idle)
    return s.goto now .recieve
  | .sendSection now => do
    assert (s.halted = false ∧ s.state now = .running ∧ s.lock = none)
    match s.point now with
    | .send m => s.sendSection (proc now) now b m
    | _ => .error .assertion
  | .recieveSection now => do
    assert (s.halted = false ∧ s.state now = .running ∧ s.lock = none ∧ s.point now = .recieve)
    s.recieveSection (proc now) now b
  | .release now => do
    assert (s.halted = false ∧ s.state now = .running ∧ s.point now = .release)
    return ({ s with lock := none }).goto now .block
  | .block now => do
    assert (s.halted = false ∧ s.state now = .running ∧ s.point now = .block)
    return (s.setState now .blocked).goto now .asleep
  | .resume now => do
    assert (s.halted = false ∧ s.state now = .running ∧ s.point now = .asleep)
    return s.goto now .again
  | .recieveAgain now => do
    assert (s.halted = false ∧ s.state now = .running ∧ s.lock = none ∧ s.point now = .again)
    let msgs ← s.msgs.recieveAgain b
    recieveOne { s with msgs := msgs } (proc now) now b
  | .mutexWait t => do
    assert (s.halted = false ∧ s.state t = .running ∧ s.lock ≠ none ∧ (s.point t).Locks)
    return s.setState t .blocked
  | .mutexGrant t => do
    assert (s.halted = false ∧ s.state t = .blocked ∧ s.lock = none ∧ (s.point t).Locks)
    return s.setState t .runnabel
  | .preempt t => do
    assert (s.halted = false ∧ s.state t = .running ∧ ¬ (s.point t).IrqSaved)
    return s.setState t .runnabel
  | .dispatch t => do
    assert (s.halted = false ∧ s.state t = .runnabel)
    return s.setState t .running

/-- A new box, messages that have not been sent, and threads outside of the calls. -/
structure Init (b : β) (s : Wake π τ μ β γ) : Prop where
  box : ∃ id owner, s.msgs.box b = some ⟨id, .rcvable, 0, owner, none, []⟩
  msg : ∀ m msg, s.msgs.msg m = some msg → msg.state = .unsend
  lock : s.lock = none
  point : ∀ t, s.point t = .idle
  runs : s.runs = []
  blocks : ∀ t, s.blocks t = 0
  woken : ∀ t, s.woken t = 0
  halted : s.halted = false

/-- The calls of any number of threads on the box `b`. -/
def system (γ μ : Type) [DecidableEq μ] (proc : τ → π) (b : β) : System (Wake π τ μ β γ) (Action τ μ) :=
  .ofNext (Init b) (act proc b)

def Waits (s : Wake π τ μ β γ) (t : τ) : Prop :=
  s.point t = .release ∨ s.point t = .block ∨ s.point t = .asleep ∧ s.state t = .blocked

instance (s : Wake π τ μ β γ) (t : τ) : Decidable (s.Waits t) := by
  unfold Waits
  infer_instance

/-- A receiver that has released the lock is not yet blocked, or has been woken and does not have the
lock again. -/
def Between (s : Wake π τ μ β γ) (t : τ) : Prop :=
  s.point t = .block ∨ s.point t = .asleep ∧ s.state t ≠ .blocked ∨ s.point t = .again

instance (s : Wake π τ μ β γ) (t : τ) : Decidable (s.Between t) := by
  unfold Between
  infer_instance

/-- No `msg_send` takes the lock while a receiver is between its release of the lock and its mark in
`schd_block`, or between its wake-up and its next hold of the lock. -/
def Undisturbed (s : Wake π τ μ β γ) : Action τ μ → Prop
  | .sendSection _ => ∀ t, ¬ s.Between t
  | _ => True

instance [Fintype τ] (s : Wake π τ μ β γ) (a : Action τ μ) : Decidable (s.Undisturbed a) := by
  unfold Undisturbed
  split <;> infer_instance

/-! ### The invariant -/

/-- The receiver that has marked the box, and what the box says about it. -/
structure Inv (b : β) (s : Wake π τ μ β γ) : Prop where
  exists_box : ∃ box, s.msgs.box b = some box
  marked : ∀ box, s.msgs.box b = some box → (box.state = .rcvBlk ↔ ∃ t, (s.point t).Receives)
  one_receiver : ∀ t u, (s.point t).Receives → (s.point u).Receives → t = u
  waits_thread : ∀ box t, s.msgs.box b = some box → s.Waits t → box.blkThread = some t
  between_nmsg : ∀ box t, s.msgs.box b = some box → s.Between t → s.point t ≠ .block → 0 < box.nmsg
  release_lock : ∀ t, s.point t = .release → s.lock = some t
  runs : ∀ r ∈ s.runs, ∃ t, r = (some t, some .blocked)
  woken : ∀ t, s.woken t + (if s.Waits t then 1 else 0) = s.blocks t
  not_halted : s.halted = false

section Steps

variable {proc : τ → π} {b : β} {s s' : Wake π τ μ β γ} {a : Action τ μ} {now : τ} {p : π} {m : μ}

section

variable (h : Inv b s)
include h

theorem Inv.moved (hmsgs : s'.msgs = s.msgs) (hruns : s'.runs = s.runs) (hblocks : s'.blocks = s.blocks)
    (hwoken : s'.woken = s.woken) (hhalted : s'.halted = s.halted)
    (hreceives : ∀ t, (s'.point t).Receives = (s.point t).Receives) (hwaits : ∀ t, s'.Waits t ↔ s.Waits t)
    (hbetween : ∀ t, s'.Between t → s'.point t ≠ .block → s.Between t ∧ s.point t ≠ .block)
    (hlock : ∀ t, s'.point t = .release → s'.lock = some t) : Inv b s' where
  exists_box := hmsgs ▸ h.exists_box
  marked box hbox := by
    rw [hmsgs] at hbox
    simp only [hreceives]
    exact h.marked box hbox
  one_receiver t u := by
    rw [hreceives, hreceives]
    exact h.one_receiver t u
  waits_thread box t hbox ht := h.waits_thread box t (hmsgs ▸ hbox) ((hwaits t).mp ht)
  between_nmsg box t hbox ht hne :=
    h.between_nmsg box t (hmsgs ▸ hbox) (hbetween t ht hne).1 (hbetween t ht hne).2
  release_lock := hlock
  runs := hruns ▸ h.runs
  woken t := by
    simp only [hwoken, hblocks, hwaits]
    exact h.woken t
  not_halted := hhalted ▸ h.not_halted

theorem inv_block (hat : s.point now = .block) : Inv b ((s.setState now .blocked).goto now .asleep) := by
  refine h.moved rfl rfl rfl rfl rfl ?_ ?_ ?_ ?_ <;> intro t <;>
    have hlock := h.release_lock t <;>
    simp only [goto, setState, Waits, Between, update_apply] <;>
    grind [WakePoint.Receives]

theorem inv_schedule {st st' : ThreadState} (hst : s.state now = st)
    (hlocks : (s.point now).Locks ∨ st ≠ .blocked ∧ st' ≠ .blocked) : Inv b (s.setState now st') := by
  refine h.moved rfl rfl rfl rfl rfl ?_ ?_ ?_ ?_ <;> intro t <;>
    have hlock := h.release_lock t <;>
    simp only [setState, Waits, Between, update_apply] <;>
    grind [WakePoint.Locks]

theorem inv_goto {at' : WakePoint μ} {lock : Option τ} (hrunning : s.state now = .running)
    (hlock : lock = s.lock ∨ s.point now = .release)
    (hmove : ¬ (s.point now).Receives ∧ ¬ at'.Receives ∨ s.point now = .release ∧ at' = .block ∨
      s.point now = .asleep ∧ at' = .again) :
    Inv b (({ s with lock := lock }).goto now at') := by
  refine h.moved rfl rfl rfl rfl rfl ?_ ?_ ?_ ?_ <;> intro t <;>
    have hone := h.one_receiver t now <;>
    have hrelease := h.release_lock t <;>
    simp only [goto, Waits, Between, update_apply] <;>
    grind [WakePoint.Receives]

theorem Inv.asleep (hlock : s.lock = none) {t : τ} (hbetween : ¬ s.Between t) (ht : (s.point t).Receives) :
    s.point t = .asleep ∧ s.state t = .blocked := by
  have hrelease := h.release_lock t
  unfold Between at hbetween
  cases hat : s.point t <;> grind [WakePoint.Receives]

theorem inv_push {box : MsgBox π τ μ} {msg : Msg π γ} (hbox : s.msgs.box b = some box)
    (hstate : box.state = .rcvable) (hat : s.point now = .send m) :
    Inv b (({ s with msgs := (s.msgs.setBox b (push box m)).setMsg m msg }).goto now .idle) := by
  obtain ⟨-, hmarked, hone, hthread, hnmsg, hrelease, hruns, hwoken, hhalted⟩ := h
  have hnone : ∀ t, (s.point t).Receives = false := by
    have := hmarked box hbox
    grind
  constructor <;>
    simp only [goto, setMsg, setBox, push, Waits, Between, update_apply] at * <;>
    grind [WakePoint.Receives]

theorem inv_push_wake {box : MsgBox π τ μ} {msg : Msg π γ} {t : τ} (hbox : s.msgs.box b = some box)
    (hstate : box.state = .rcvBlk) (hat : s.point now = .send m) (ht : s.point t = .asleep)
    (hblocked : s.state t = .blocked) : Inv b (({ s with
      msgs := (s.msgs.setBox b (push box m)).setMsg m msg
      runs := s.runs ++ [(some t, some ThreadState.blocked)]
      woken := update s.woken t (s.woken t + 1)
      state := update s.state t ThreadState.runnabel }).goto now .idle) := by
  obtain ⟨-, hmarked, hone, hthread, hnmsg, hrelease, hruns, hwoken, hhalted⟩ := h
  have hreceives : (s.point t).Receives := by rw [ht]; rfl
  constructor <;>
    simp only [goto, setMsg, setBox, push, Waits, Between, update_apply] at * <;>
    grind [WakePoint.Receives]

theorem inv_sendSection (hrunning : s.state now = .running) (hlock : s.lock = none)
    (hat : s.point now = .send m) (hbetween : ∀ t, ¬ s.Between t) (hsend : s.sendSection p now b m = .ok s') :
    Inv b s' := by
  unfold sendSection at hsend
  obtain ⟨⟨err, wake, msgs⟩, hmsgs, hsend⟩ := bind_eq_ok.mp hsend
  obtain ⟨-, rfl, rfl⟩ | ⟨msg, box, hmsg, hbox, -, -, -, rfl, rfl⟩ := sendMsg_cases hmsgs
  · cases hsend
    exact inv_goto h hrunning (.inl rfl) (.inl ⟨by simp [hat, WakePoint.Receives], by simp [WakePoint.Receives]⟩)
  · cases hstate : box.state with
    | rcvable =>
      simp only [wakes, hstate] at hsend
      cases hsend
      exact inv_push h hbox hstate hat
    | rcvBlk =>
      obtain ⟨t, ht⟩ := (h.marked box hbox).mp hstate
      obtain ⟨hasleep, hblocked⟩ := h.asleep hlock (hbetween t) ht
      have hthread := h.waits_thread box t hbox (.inr (.inr ⟨hasleep, hblocked⟩))
      simp only [wakes, hstate, hthread, ↓reduceIte, schdRun, goto, hblocked, ThreadState.run] at hsend
      cases hsend
      exact inv_push_wake h hbox hstate hat hasleep hblocked

theorem inv_recieveOne {box : MsgBox π τ μ} (hbox : s.msgs.box b = some box)
    (hothers : ∀ t, t ≠ now → ¬ (s.point t).Receives) (hnow : ¬ s.Waits now)
    (hone : recieveOne { s with msgs := s.msgs.setBox b { box with state := .rcvable } } p now b = .ok s') :
    Inv b s' := by
  unfold recieveOne at hone
  obtain ⟨⟨m, msgs⟩, htake, hone⟩ := bind_eq_ok.mp hone
  cases hone
  obtain ⟨box', msg, rest, hbox', -, hls, -, -, rfl⟩ := take_cases htake
  obtain rfl : { box with state := .rcvable } = box' := by simpa [setBox] using hbox'
  obtain ⟨-, hmarked, -, hthread, hnmsg, hrelease, hruns, hwoken, hhalted⟩ := h
  have hidle : ∀ t, (update s.point now .idle t).Receives = false := by
    intro t
    rw [update_apply]
    grind [WakePoint.Receives]
  constructor <;>
    simp only [goto, setMsg, setBox, Waits, Between, update_apply] at * <;>
    grind [WakePoint.Receives]

theorem inv_recieveSection (hrunning : s.state now = .running) (hlock : s.lock = none)
    (hat : s.point now = .recieve) (hsection : s.recieveSection p now b = .ok s') : Inv b s' := by
  unfold recieveSection at hsection
  obtain ⟨⟨r, msgs⟩, htest, hsection⟩ := bind_eq_ok.mp hsection
  obtain ⟨box, hbox, ⟨err, rfl, rfl⟩ | ⟨rfl, rfl, -, hstate, -⟩ | ⟨rfl, -, -, hstate, -, rfl⟩⟩ :=
    recieveTest_cases htest
  · cases hsection
    exact inv_goto h hrunning (.inl rfl) (.inl ⟨by simp [hat, WakePoint.Receives], by simp [WakePoint.Receives]⟩)
  · have hsame : s.msgs.setBox b { box with state := .rcvable } = s.msgs := by simp [setBox, ← hstate, ← hbox]
    refine inv_recieveOne h hbox (fun t _ ht ↦ ?_) ?_ (by rw [hsame]; exact hsection)
    · have := (h.marked box hbox).mpr ⟨t, ht⟩
      simp [hstate] at this
    · simp [Waits, hat]
  · cases hsection
    obtain ⟨-, hmarked, hone, hthread, hnmsg, hrelease, hruns, hwoken, hhalted⟩ := h
    have hnone : ∀ t, (s.point t).Receives = false := by
      have := hmarked box hbox
      grind
    constructor <;>
      simp only [goto, setBox, Waits, Between, update_apply] at * <;>
      grind [WakePoint.Receives]

theorem inv_recieveAgain (hat : s.point now = .again) {msgs : Msgs π τ μ β γ}
    (hagain : s.msgs.recieveAgain b = .ok msgs) (hone : recieveOne { s with msgs := msgs } p now b = .ok s') :
    Inv b s' := by
  obtain ⟨box, hbox, rfl⟩ := recieveAgain_eq_ok.mp hagain
  refine inv_recieveOne h hbox (fun t hne ht ↦ hne ?_) ?_ hone
  · exact h.one_receiver t now ht (by rw [hat]; rfl)
  · simp [Waits, hat]

theorem inv_step (hallowed : s.Undisturbed a) (hact : s.act proc b a = .ok s') : Inv b s' := by
  cases a with
  | send now m | recieve now =>
    obtain ⟨_, hguard, hact⟩ := bind_eq_ok.mp hact
    obtain ⟨-, hrunning, hat⟩ := assert_eq_ok.mp hguard
    cases hact
    exact inv_goto h hrunning (.inl rfl) (.inl ⟨by simp [hat, WakePoint.Receives], by simp [WakePoint.Receives]⟩)
  | sendSection now =>
    obtain ⟨_, hguard, hact⟩ := bind_eq_ok.mp hact
    obtain ⟨-, hrunning, hlock⟩ := assert_eq_ok.mp hguard
    split at hact
    · next m hat => exact inv_sendSection h hrunning hlock hat hallowed hact
    · cases hact
  | recieveSection now =>
    obtain ⟨_, hguard, hact⟩ := bind_eq_ok.mp hact
    obtain ⟨-, hrunning, hlock, hat⟩ := assert_eq_ok.mp hguard
    exact inv_recieveSection h hrunning hlock hat hact
  | release now =>
    obtain ⟨_, hguard, hact⟩ := bind_eq_ok.mp hact
    obtain ⟨-, hrunning, hat⟩ := assert_eq_ok.mp hguard
    cases hact
    exact inv_goto h hrunning (.inr hat) (.inr (.inl ⟨hat, rfl⟩))
  | block now =>
    obtain ⟨_, hguard, hact⟩ := bind_eq_ok.mp hact
    obtain ⟨-, -, hat⟩ := assert_eq_ok.mp hguard
    cases hact
    exact inv_block h hat
  | resume now =>
    obtain ⟨_, hguard, hact⟩ := bind_eq_ok.mp hact
    obtain ⟨-, hrunning, hat⟩ := assert_eq_ok.mp hguard
    cases hact
    exact inv_goto h hrunning (.inl rfl) (.inr (.inr ⟨hat, rfl⟩))
  | recieveAgain now =>
    obtain ⟨_, hguard, hact⟩ := bind_eq_ok.mp hact
    obtain ⟨-, -, -, hat⟩ := assert_eq_ok.mp hguard
    obtain ⟨msgs, hagain, hact⟩ := bind_eq_ok.mp hact
    exact inv_recieveAgain h hat hagain hact
  | mutexWait t | mutexGrant t =>
    obtain ⟨_, hguard, hact⟩ := bind_eq_ok.mp hact
    obtain ⟨-, hst, -, hlocks⟩ := assert_eq_ok.mp hguard
    cases hact
    exact inv_schedule h hst (.inl hlocks)
  | preempt t =>
    obtain ⟨_, hguard, hact⟩ := bind_eq_ok.mp hact
    obtain ⟨-, hst, -⟩ := assert_eq_ok.mp hguard
    cases hact
    exact inv_schedule h hst (.inr (by simp))
  | dispatch t =>
    obtain ⟨_, hguard, hact⟩ := bind_eq_ok.mp hact
    obtain ⟨-, hst⟩ := assert_eq_ok.mp hguard
    cases hact
    exact inv_schedule h hst (.inr (by simp))

end

theorem inv_init (h : Init b s) : Inv b s := by
  obtain ⟨⟨id, owner, hbox⟩, -, hlock, hpoint, hruns, hblocks, hwoken, hhalted⟩ := h
  constructor <;> simp_all [Waits, Between, WakePoint.Receives]

end Steps

/-! ### The contract -/

structure Contract (b : β) (s : Wake π τ μ β γ) : Prop where
  runs_blocked : ∀ r ∈ s.runs, ∃ t, r = (some t, some .blocked)
  no_panic : s.halted = false
  /-- A receive that has marked the box is woken once before it resumes. -/
  woken_once : ∀ t, s.woken t + (if s.Waits t then 1 else 0) = s.blocks t
  resumed_finds : ∀ t, s.point t = .again → ∃ box, s.msgs.box b = some box ∧ 0 < box.nmsg

theorem Inv.contract {b : β} {s : Wake π τ μ β γ} (h : Inv b s) : s.Contract b where
  runs_blocked := h.runs
  no_panic := h.not_halted
  woken_once := h.woken
  resumed_finds t ht := by
    obtain ⟨box, hbox⟩ := h.exists_box
    exact ⟨box, hbox, h.between_nmsg box t hbox (.inr (.inr ht)) (by simp [ht])⟩

/-- In a run in which no `msg_send` takes the lock in a window of a receiver, the contract holds. -/
theorem undisturbed_run_contract {proc : τ → π} {b : β} {s : Wake π τ μ β γ}
    (h : (system γ μ proc b).Run Undisturbed s) : s.Contract b :=
  Inv.contract (h.invariant (P := Inv b) (fun _ ↦ inv_init) fun _ _ _ ↦ inv_step)

/-- Thread 0 of process 0, which owns the box, and two senders with a message each. -/
def exampleInit : Wake (Fin 3) (Fin 3) (Fin 2) Unit Unit where
  msgs := ⟨fun _ ↦ none, fun _ ↦ none, fun m ↦ some ⟨m, .unsend, m.succ, ()⟩,
    fun _ ↦ some ⟨0, .rcvable, 0, 0, none, []⟩⟩
  lock := none
  state _ := .running
  point _ := .idle
  runs := []
  blocks _ := 0
  woken _ := 0
  halted := false

theorem exampleInit_init : exampleInit.Init () := by constructor <;> simp [exampleInit]

/-- The receiver blocks, is woken by the first sender, and receives before the second sends. -/
def exampleActions : List (Action (Fin 3) (Fin 2)) :=
  [.recieve 0, .send 1 0, .send 2 1, .recieveSection 0, .mutexWait 1, .release 0, .mutexGrant 1,
    .block 0, .dispatch 1, .sendSection 1, .dispatch 0, .preempt 2, .resume 0, .recieveAgain 0,
    .dispatch 2, .sendSection 2, .recieve 0]

/-- The contract after a blocking receive has been woken and a second message has been sent. -/
theorem undisturbed_run_contract_example :
    ∃ s : Wake (Fin 3) (Fin 3) (Fin 2) Unit Unit, (system Unit (Fin 2) id ()).Run Undisturbed s ∧
      s.runs = [(some 0, some .blocked)] ∧ s.woken 0 = 1 ∧ s.Contract () := by
  have hrun : (exampleActions.foldlM (System.guarded (act id ()) Undisturbed .assertion)
      exampleInit).map (fun s ↦ (s.runs, s.woken 0)) =
      .ok ([(some 0, some .blocked)], 1) := by decide +kernel
  obtain ⟨s, hacts, hrun⟩ := map_eq_ok.mp hrun
  have hreach : (system Unit (Fin 2) id ()).Run Undisturbed s :=
    System.run_of_foldlM (.init exampleInit_init) hacts
  simp only [Prod.mk.injEq] at hrun
  exact ⟨s, hreach, hrun.1, hrun.2, undisturbed_run_contract hreach⟩

/-- The second sender takes the lock before the receiver that has been woken. -/
def lateActions : List (Action (Fin 3) (Fin 2)) :=
  [.recieve 0, .recieveSection 0, .release 0, .block 0, .send 1 0, .sendSection 1, .send 2 1, .sendSection 2]

def earlyActions : List (Action (Fin 3) (Fin 2)) :=
  [.recieve 0, .recieveSection 0, .release 0, .send 1 0, .sendSection 1]

/-- A run in which `schd_run` is given a null pointer, and one in which it is given a running thread. -/
theorem reachable_bad_run : (∃ s : Wake (Fin 3) (Fin 3) (Fin 2) Unit Unit, (system Unit (Fin 2) id ()).Reachable s ∧
      (none, none) ∈ s.runs ∧ s.halted = true) ∧
    ∃ s : Wake (Fin 3) (Fin 3) (Fin 2) Unit Unit, (system Unit (Fin 2) id ()).Reachable s ∧
      (some 0, some .running) ∈ s.runs ∧ s.halted = true := by
  constructor
  · have hrun : (lateActions.foldlM (act id ()) exampleInit).map (fun s ↦ (s.runs, s.halted)) =
        .ok ([(some 0, some .blocked), (none, none)], true) := by decide +kernel
    obtain ⟨s, hacts, hrun⟩ := map_eq_ok.mp hrun
    simp only [Prod.mk.injEq] at hrun
    exact ⟨s, System.reachable_of_foldlM (.init exampleInit_init) hacts, by simp [hrun.1], hrun.2⟩
  · have hrun : (earlyActions.foldlM (act id ()) exampleInit).map (fun s ↦ (s.runs, s.halted)) =
        .ok ([(some 0, some .running)], true) := by decide +kernel
    obtain ⟨s, hacts, hrun⟩ := map_eq_ok.mp hrun
    simp only [Prod.mk.injEq] at hrun
    exact ⟨s, System.reachable_of_foldlM (.init exampleInit_init) hacts, by simp [hrun.1], hrun.2⟩

end Wake

end Lanthorn
