import Lanthorn.Kernel.Buf
import Lanthorn.Proc.Schd

/-!
# A reader and the console interrupt

`buf_read` of one reader and `buf_write` of `com_intr` at the same time. The steps are the tests, the assignments,
`schd_block` and `schd_run`, and the load and the store of `freesz++` and `freesz--`. The interrupt comes on the CPU
of the reader, whose code then waits until the handler is through, or on another CPU: the handler runs on the thread
that it finds there. The two sides take different mutexes, which neither of them ever waits for.

The two functions have the same shape, and `BufRace.step` is the step of either side. The code has three windows. The
interrupt may fall between the test of the reader and its `schd_block`, so that the wake-up is lost or comes too early;
the sides may overlap in their updates of `freesz`; and a handler that finds the buffer full blocks the thread that
it runs on, which may be the reader (`BufRace.reachable_races`). When no step falls into a window, no wake-up is lost
(`BufRace.calm_run_contract`).
-/

namespace Lanthorn

open Library

/-- `buf_read` and `buf_write`. -/
inductive BufSide
  | reader
  | writer
  deriving DecidableEq, Repr

/-- The thread of the reader, and one that an interrupt may find running in its place. -/
inductive BufThread
  | reader
  | other
  deriving DecidableEq, Repr

/-- Where a side stands: each point is before the statement that it names. -/
inductive BufPoint
  | idle
  /-- The test of `freesz`. -/
  | test
  /-- The store to `rblkt` or `wblkt`. -/
  | publish
  /-- `schd_block`. -/
  | block
  /-- The assertion. -/
  | check
  /-- The access to `cache`. -/
  | transfer
  /-- The store to `b` or `e`. -/
  | advance
  /-- The load of `freesz`. -/
  | load
  /-- The store of `freesz`, which was loaded before. -/
  | store (freesz : ℕ)
  /-- The test of `wblkt` or `rblkt`. -/
  | wake
  /-- The store to `t`. -/
  | take
  /-- The store of `NULL` to `wblkt` or `rblkt`. -/
  | clear (t : Option BufThread)
  /-- `schd_run`. -/
  | run (t : Option BufThread)
  deriving DecidableEq, Repr

namespace BufPoint

def Deciding (p : BufPoint) : Prop := p = .publish ∨ p = .block

/-- Whether `b` or `e` has been advanced and `freesz` not yet stored. -/
def updating : BufPoint → Bool
  | .load | .store _ => true
  | _ => false

/-- Whether `freesz` has been loaded and not yet stored. -/
def storing : BufPoint → Bool
  | .store _ => true
  | _ => false

/-- Whether the side is past its assertion and has not stored `freesz`. -/
def engaged : BufPoint → Bool
  | .transfer | .advance | .load | .store _ => true
  | _ => false

instance (p : BufPoint) : Decidable p.Deciding := by
  unfold Deciding
  infer_instance

end BufPoint

structure BufRace where
  buf : Buf BufThread
  rpoint : BufPoint
  wpoint : BufPoint
  /-- The `state` of the two threads. -/
  rstate : ThreadState
  ostate : ThreadState
  /-- The thread that the handler runs on. -/
  on : BufThread
  /-- The byte that is written, and the one that has been read. -/
  arg : BitVec 8
  res : BitVec 8
  /-- How many bytes have been written and not read. -/
  stored : ℕ

namespace BufRace

def point (st : BufRace) : BufSide → BufPoint
  | .reader => st.rpoint
  | .writer => st.wpoint

def goto (st : BufRace) (side : BufSide) (p : BufPoint) : BufRace :=
  match side with
  | .reader => { st with rpoint := p }
  | .writer => { st with wpoint := p }

def state (st : BufRace) : BufThread → ThreadState
  | .reader => st.rstate
  | .other => st.ostate

def setState (st : BufRace) (t : BufThread) (s : ThreadState) : BufRace :=
  match t with
  | .reader => { st with rstate := s }
  | .other => { st with ostate := s }

/-- `thread_now()`. -/
def threadNow (st : BufRace) : BufSide → BufThread
  | .reader => .reader
  | .writer => st.on

/-- The value of `freesz` at which a side waits. -/
def waitsAt (st : BufRace) : BufSide → ℕ
  | .reader => st.buf.size
  | .writer => 0

def publish (st : BufRace) (side : BufSide) (t : Option BufThread) : BufRace :=
  match side with
  | .reader => { st with buf := { st.buf with rblkt := t } }
  | .writer => { st with buf := { st.buf with wblkt := t } }

def waiting (st : BufRace) : BufSide → Option BufThread
  | .reader => st.buf.wblkt
  | .writer => st.buf.rblkt

def clear (st : BufRace) (side : BufSide) : BufRace :=
  match side with
  | .reader => st.publish .writer none
  | .writer => st.publish .reader none

def Granted (st : BufRace) : BufSide → Prop
  | .reader => st.buf.freesz < st.buf.size
  | .writer => 0 < st.buf.freesz

instance (st : BufRace) (side : BufSide) : Decidable (st.Granted side) := by
  cases side <;> unfold Granted <;> infer_instance

/-- The access to `cache`. -/
def transfer (st : BufRace) : BufSide → BufRace
  | .reader => { st with res := st.buf.cache st.buf.b }
  | .writer => { st with buf := st.buf.put st.arg }

/-- The store to `b` or `e`. -/
def advance (st : BufRace) : BufSide → BufRace
  | .reader => { st with buf := { st.buf with b := st.buf.after st.buf.b }, stored := st.stored - 1 }
  | .writer => { st with buf := { st.buf with e := st.buf.after st.buf.e }, stored := st.stored + 1 }

/-- The store of `freesz++` or `freesz--`. -/
def storeFree (st : BufRace) (freesz : ℕ) : BufSide → BufRace
  | .reader => { st with buf := { st.buf with freesz := wordAdd freesz 1 } }
  | .writer => { st with buf := { st.buf with freesz := Buf.less freesz } }

/-- The next statement of `buf_read` or `buf_write`. -/
def step (st : BufRace) (side : BufSide) : Result BufRace :=
  match st.point side with
  | .idle => return st
  | .test => return st.goto side (if st.buf.freesz = st.waitsAt side then .publish else .check)
  | .publish => return (st.publish side (some (st.threadNow side))).goto side .block
  | .block => return (st.setState (st.threadNow side) .blocked).goto side .check
  | .check => do
    assert (st.Granted side)
    return st.goto side .transfer
  | .transfer => return (st.transfer side).goto side .advance
  | .advance => return (st.advance side).goto side .load
  | .load => return st.goto side (.store st.buf.freesz)
  | .store freesz => return (st.storeFree freesz side).goto side .wake
  | .wake => return st.goto side (if st.waiting side ≠ none then .take else .idle)
  | .take => return st.goto side (.clear (st.waiting side))
  | .clear t => return (st.clear side).goto side (.run t)
  | .run none => throw .null
  | .run (some t) => do
    let s ← (st.state t).run
    return (st.setState t s).goto side .idle

inductive Action
  /-- The reader calls `buf_read`. -/
  | read
  /-- An interrupt on a thread, with a byte for `buf_write`. -/
  | intr (on : BufThread) (c : BitVec 8)
  | step (side : BufSide)
  /-- The scheduler takes a thread off its CPU, and gives it one again. -/
  | preempt (t : BufThread)
  | dispatch (t : BufThread)

def Interrupted (st : BufRace) : Prop := st.wpoint ≠ .idle ∧ st.on = .reader

instance (st : BufRace) : Decidable st.Interrupted := by
  unfold Interrupted
  infer_instance

/-- Which steps can be taken. On the CPU of the reader, `freesz++` is one instruction that no interrupt divides. -/
def Possible (st : BufRace) : Action → Prop
  | .read => st.rstate = .running ∧ ¬ st.Interrupted ∧ st.rpoint = .idle
  | .intr on _ => st.state on = .running ∧ st.wpoint = .idle ∧ (on = .reader → ¬ st.rpoint.storing)
  | .step .reader => st.rstate = .running ∧ ¬ st.Interrupted ∧ st.rpoint ≠ .idle
  | .step .writer => st.state st.on = .running ∧ st.wpoint ≠ .idle
  | .preempt t => st.state t = .running
  | .dispatch t => st.state t = .runnabel

def next (st : BufRace) : Action → Result BufRace
  | .read => return st.goto .reader .test
  | .intr on c => return { st with on := on, arg := c }.goto .writer .test
  | .step side => st.step side
  | .preempt t => return st.setState t .runnabel
  | .dispatch t => return st.setState t .running

/-- A buffer after `buf_init` and any steps. -/
def system (size : UInt32) : System BufRace Action where
  init st := ∃ (s : Buf BufThread) (cache : ℕ → BitVec 8), st.buf = (s.bufInit size (.ok cache)).2 ∧
    st.rpoint = .idle ∧ st.wpoint = .idle ∧ st.rstate = .running ∧ st.ostate = .running ∧ st.stored = 0
  step st a st' := st.Possible a ∧ st.next a = .ok st'

def WakePending (st : BufRace) : Prop :=
  (st.wpoint.updating ∨ st.wpoint = .wake ∨ st.wpoint = .take) ∧ st.buf.rblkt = some .reader ∨
    st.wpoint = .clear (some .reader) ∨ st.wpoint = .run (some .reader)

/-- No wake-up is lost, none comes too early, and `freesz` counts the free bytes. -/
structure Contract (size : UInt32) (st : BufRace) : Prop where
  awake : st.rstate = .blocked → 0 < st.stored → st.WakePending
  runs : ∀ side t, st.point side = .run (some t) → st.state t = .blocked
  count : ¬ st.rpoint.updating → ¬ st.wpoint.updating → st.buf.freesz = size.toNat - st.stored ∧
    st.stored ≤ size.toNat

/-- No step falls into a window: while a side decides to wait, the other takes no step; while a side is between its
load and its store of `freesz`, the other does not load it; and a handler on the thread of the reader does not find
the buffer full. -/
def Calm (st : BufRace) : Action → Prop
  | .read => ¬ st.wpoint.Deciding
  | .intr _ _ => ¬ st.rpoint.Deciding
  | .step .reader => ¬ st.wpoint.Deciding ∧ (st.rpoint = .load → ¬ st.wpoint.storing)
  | .step .writer => ¬ st.rpoint.Deciding ∧ (st.wpoint = .load → ¬ st.rpoint.storing) ∧
      (st.wpoint = .test → st.on = .reader → st.buf.freesz ≠ 0)
  | .preempt _ | .dispatch _ => True

/-! ### Counting -/

/-- `freesz` counts the free bytes, up to the update that is in progress. -/
structure Counted (size : UInt32) (st : BufRace) : Prop where
  size_eq : st.buf.size = size.toNat
  count : st.buf.freesz + st.stored + (if st.rpoint.updating then 1 else 0) =
    size.toNat + (if st.wpoint.updating then 1 else 0)
  rloaded : ∀ v, st.rpoint = .store v → v = st.buf.freesz
  wloaded : ∀ v, st.wpoint = .store v → v = st.buf.freesz
  alone : st.rpoint.storing → ¬ st.wpoint.storing
  rroom : st.rpoint.engaged → st.buf.freesz < st.buf.size
  wroom : st.wpoint.engaged → 0 < st.buf.freesz

variable {size : UInt32} {st st' : BufRace}

/-! ### Waiting -/

def Wakes (p : BufPoint) (blkt : Option BufThread) (t : BufThread) (s : ThreadState) : Prop :=
  match p with
  | .take => blkt = some t ∧ s = .blocked
  | .clear t' => t' = some t ∧ s = .blocked
  | .run t' => t' = some t ∧ s = .blocked ∧ blkt = none
  | _ => True

theorem Wakes.of_not_blocked {p : BufPoint} {blkt blkt' : Option BufThread} {t : BufThread} {s s' : ThreadState}
    (h : Wakes p blkt t s) (hs : s ≠ .blocked) : Wakes p blkt' t s' := by
  unfold Wakes at *
  grind

structure Waking (st : BufRace) : Prop where
  rdeciding : st.rpoint.Deciding → st.buf.freesz = st.buf.size
  wdeciding : st.wpoint.Deciding → st.on = .other
  rblkt : ∀ t, st.buf.rblkt = some t → t = .reader ∧ (st.rstate = .blocked ∨ st.rpoint = .block)
  wblkt : ∀ t, st.buf.wblkt = some t → t = .other ∧ (st.ostate = .blocked ∨ st.wpoint = .block)
  rblocked : st.rstate = .blocked → st.rpoint = .check ∧ (st.buf.rblkt = some .reader ∨
    st.wpoint = .clear (some .reader) ∨ st.wpoint = .run (some .reader))
  oblocked : st.ostate = .blocked → st.wpoint = .check ∧ st.on = .other
  rwakes : Wakes st.rpoint st.buf.wblkt .other st.ostate
  wwakes : Wakes st.wpoint st.buf.rblkt .reader st.rstate
  published : st.rpoint = .block → st.buf.rblkt = some .reader
  pending : st.rstate = .blocked → 0 < st.stored → st.WakePending

structure Inv (size : UInt32) (st : BufRace) : Prop where
  counted : st.Counted size
  waking : st.Waking

/-! ### Steps -/

attribute [local grind =] BufPoint.updating BufPoint.storing BufPoint.engaged goto setState publish waiting clear
  transfer advance storeFree threadNow waitsAt state Buf.put
attribute [local grind] BufPoint.Deciding Wakes WakePending Granted

section Reader

variable (hstep : st.step .reader = .ok st')
include hstep

theorem Counted.reader (h : st.Counted size) (halone : st.rpoint = .load → ¬ st.wpoint.storing) :
    st'.Counted size := by
  obtain ⟨hsize, hcount, hrloaded, hwloaded, hsole, hrroom, hwroom⟩ := h
  have hlt : size.toNat < addressSpace := size.toNat_lt
  unfold step at hstep
  rw [point] at hstep
  cases hp : st.rpoint with
  | check =>
    rw [hp] at hstep
    obtain ⟨_, hgranted, hret⟩ := bind_eq_ok.mp hstep
    have hroom := assert_eq_ok.mp hgranted
    cases hret
    constructor <;> first | assumption | grind -ring -linarith
  | store v =>
    have hmore : v < size.toNat → wordAdd v 1 = v + 1 := fun hv ↦ wordAdd_of_lt (by omega)
    rw [hp] at hstep
    cases hstep
    constructor <;> first | assumption | grind -ring -linarith
  | run t =>
    rw [hp] at hstep
    obtain _ | t := t
    · cases hstep
    obtain ⟨s, -, hret⟩ := bind_eq_ok.mp hstep
    cases hret
    cases t <;> constructor <;> first | assumption | grind -ring -linarith
  | _ =>
    rw [hp] at hstep
    cases hstep
    constructor <;> first | assumption | grind -ring -linarith

theorem Waking.reader (h : st.Waking) (hcounted : st.Counted size) (hrunning : st.rstate = .running)
    (hdeciding : ¬ st.wpoint.Deciding) : st'.Waking := by
  obtain ⟨hsize, hcount, -⟩ := hcounted
  have hwakes : ∀ blkt s, Wakes st.wpoint blkt .reader s := fun _ _ ↦ h.wwakes.of_not_blocked (by simp [hrunning])
  obtain ⟨hrd, hwd, hrb, hwb, hrbl, hob, hrw, hww, hpub, hpend⟩ := h
  unfold step at hstep
  rw [point] at hstep
  cases hp : st.rpoint with
  | check =>
    rw [hp] at hstep
    obtain ⟨_, -, hret⟩ := bind_eq_ok.mp hstep
    cases hret
    constructor <;> first | assumption | grind -ring -linarith
  | wake =>
    rw [hp] at hstep
    cases hstep
    -- The writer is not about to block, so it is blocked when it is waiting.
    have hwriter : ∀ t, st.buf.wblkt = some t → t = .other ∧ st.ostate = .blocked := by grind
    cases hwaiting : st.buf.wblkt <;> constructor <;> first | assumption | grind -ring -linarith
  | run t =>
    rw [hp] at hstep
    obtain _ | t := t
    · cases hstep
    obtain ⟨s, hs, hret⟩ := bind_eq_ok.mp hstep
    obtain ⟨-, rfl⟩ := ThreadState.run_eq_ok.mp hs
    cases hret
    constructor <;> first | assumption | grind -ring -linarith
  | _ =>
    rw [hp] at hstep
    cases hstep
    constructor <;> first | assumption | grind -ring -linarith

end Reader

section Writer

variable (hstep : st.step .writer = .ok st')
include hstep

theorem Counted.writer (h : st.Counted size) (halone : st.wpoint = .load → ¬ st.rpoint.storing) :
    st'.Counted size := by
  obtain ⟨hsize, hcount, hrloaded, hwloaded, hsole, hrroom, hwroom⟩ := h
  unfold step at hstep
  rw [point] at hstep
  cases hp : st.wpoint with
  | block =>
    rw [hp] at hstep
    cases hstep
    cases hon : st.on <;> constructor <;> first | assumption | grind -ring -linarith
  | check =>
    rw [hp] at hstep
    obtain ⟨_, hgranted, hret⟩ := bind_eq_ok.mp hstep
    have hroom := assert_eq_ok.mp hgranted
    cases hret
    constructor <;> first | assumption | grind -ring -linarith
  | store v =>
    have hless : 0 < v → Buf.less v = v - 1 := Buf.less_of_pos
    rw [hp] at hstep
    cases hstep
    constructor <;> first | assumption | grind -ring -linarith
  | run t =>
    rw [hp] at hstep
    obtain _ | t := t
    · cases hstep
    obtain ⟨s, -, hret⟩ := bind_eq_ok.mp hstep
    cases hret
    cases t <;> constructor <;> first | assumption | grind -ring -linarith
  | _ =>
    rw [hp] at hstep
    cases hstep
    constructor <;> first | assumption | grind -ring -linarith

theorem Waking.writer (h : st.Waking) (hrunning : st.state st.on = .running) (hcalm : st.Calm (.step .writer)) :
    st'.Waking := by
  obtain ⟨hdeciding, -, hfull⟩ := hcalm
  have hrun : st.ostate ≠ .blocked := fun hb ↦ by
    rw [(h.oblocked hb).2] at hrunning
    cases hb.symm.trans hrunning
  have hwakes : ∀ blkt s, Wakes st.rpoint blkt .other s := fun _ _ ↦ h.rwakes.of_not_blocked hrun
  obtain ⟨hrd, hwd, hrb, hwb, hrbl, hob, hrw, hww, hpub, hpend⟩ := h
  unfold step at hstep
  rw [point] at hstep
  cases hp : st.wpoint with
  | test =>
    rw [hp] at hstep
    cases hstep
    cases hon : st.on <;> constructor <;> first | assumption | grind -ring -linarith
  | check =>
    rw [hp] at hstep
    obtain ⟨_, -, hret⟩ := bind_eq_ok.mp hstep
    cases hret
    constructor <;> first | assumption | grind -ring -linarith
  | wake =>
    rw [hp] at hstep
    cases hstep
    -- The reader is not about to block, so it is blocked when it is waiting.
    have hreader : ∀ t, st.buf.rblkt = some t → t = .reader ∧ st.rstate = .blocked := by grind
    cases hwaiting : st.buf.rblkt <;> constructor <;> first | assumption | grind -ring -linarith
  | run t =>
    rw [hp] at hstep
    obtain _ | t := t
    · cases hstep
    obtain ⟨s, hs, hret⟩ := bind_eq_ok.mp hstep
    obtain ⟨-, rfl⟩ := ThreadState.run_eq_ok.mp hs
    cases hret
    constructor <;> first | assumption | grind -ring -linarith
  | _ =>
    rw [hp] at hstep
    cases hstep
    constructor <;> first | assumption | grind -ring -linarith

end Writer

theorem Waking.intr (h : st.Waking) (hidle : st.wpoint = .idle) (on : BufThread) (c : BitVec 8) :
    ({ st with on := on, arg := c }.goto .writer .test).Waking := by
  obtain ⟨hrd, hwd, hrb, hwb, hrbl, hob, hrw, hww, hpub, hpend⟩ := h
  constructor <;> first | assumption | grind -ring -linarith

theorem Inv.reschedule (h : st.Inv size) {t : BufThread} {s : ThreadState} (hs : s ≠ .blocked)
    (ht : st.state t ≠ .blocked) : (st.setState t s).Inv size := by
  obtain ⟨⟨hsize, hcount, hrloaded, hwloaded, hsole, hrroom, hwroom⟩, hw⟩ := h
  cases t with
  | reader =>
    have hwakes : Wakes st.wpoint st.buf.rblkt .reader s := hw.wwakes.of_not_blocked ht
    obtain ⟨hrd, hwd, hrb, hwb, hrbl, hob, hrw, hww, hpub, hpend⟩ := hw
    refine ⟨⟨hsize, hcount, hrloaded, hwloaded, hsole, hrroom, hwroom⟩, ?_⟩
    constructor <;> first | assumption | grind -ring -linarith
  | other =>
    have hwakes : Wakes st.rpoint st.buf.wblkt .other s := hw.rwakes.of_not_blocked ht
    obtain ⟨hrd, hwd, hrb, hwb, hrbl, hob, hrw, hww, hpub, hpend⟩ := hw
    refine ⟨⟨hsize, hcount, hrloaded, hwloaded, hsole, hrroom, hwroom⟩, ?_⟩
    constructor <;> first | assumption | grind -ring -linarith

theorem inv_step {a : Action} (h : st.Inv size) (hcalm : st.Calm a) (hstep : (system size).step st a st') :
    st'.Inv size := by
  obtain ⟨hpossible, hnext⟩ := hstep
  cases a with
  | read =>
    cases hnext
    obtain ⟨hrunning, -, hidle⟩ := hpossible
    obtain ⟨⟨hsize, hcount, hrloaded, hwloaded, hsole, hrroom, hwroom⟩, hw⟩ := h
    obtain ⟨hrd, hwd, hrb, hwb, hrbl, hob, hrw, hww, hpub, hpend⟩ := hw
    refine ⟨?_, ?_⟩ <;> constructor <;> first | assumption | grind -ring -linarith
  | intr on c =>
    cases hnext
    obtain ⟨-, hidle, -⟩ := hpossible
    refine ⟨?_, h.waking.intr hidle on c⟩
    obtain ⟨hsize, hcount, hrloaded, hwloaded, hsole, hrroom, hwroom⟩ := h.counted
    constructor <;> first | assumption | grind -ring -linarith
  | step side =>
    cases side with
    | reader => exact ⟨h.counted.reader hnext hcalm.2, h.waking.reader hnext h.counted hpossible.1 hcalm.1⟩
    | writer => exact ⟨h.counted.writer hnext hcalm.2.1, h.waking.writer hnext hpossible.1 hcalm⟩
  | preempt t =>
    cases hnext
    exact h.reschedule (by simp) (by simp [show st.state t = .running from hpossible])
  | dispatch t =>
    cases hnext
    exact h.reschedule (by simp) (by simp [show st.state t = .runnabel from hpossible])

theorem inv_init (h : (system size).init st) : st.Inv size := by
  obtain ⟨s, cache, hbuf, hr, hw, hrstate, hostate, hstored⟩ := h
  have hfields : st.buf.size = size.toNat ∧ st.buf.freesz = size.toNat ∧ st.buf.rblkt = none ∧
      st.buf.wblkt = none := by
    rw [hbuf]
    exact ⟨rfl, rfl, rfl, rfl⟩
  obtain ⟨hsize, hfreesz, hrblkt, hwblkt⟩ := hfields
  constructor
  · constructor <;> simp [hsize, hfreesz, hr, hw, hstored, BufPoint.updating, BufPoint.storing, BufPoint.engaged]
  · constructor <;> simp [hrblkt, hwblkt, hr, hw, hrstate, hostate, BufPoint.Deciding, Wakes]

theorem Inv.contract (h : st.Inv size) : st.Contract size := by
  refine ⟨h.waking.pending, fun side t hp ↦ ?_, fun hr hw ↦ ?_⟩
  · cases side with
    | reader =>
      have hwakes : t = .other ∧ st.ostate = .blocked ∧ st.buf.wblkt = none := by
        simpa [Wakes, show st.rpoint = .run (some t) from hp] using h.waking.rwakes
      obtain ⟨rfl, hb, -⟩ := hwakes
      exact hb
    | writer =>
      have hwakes : t = .reader ∧ st.rstate = .blocked ∧ st.buf.rblkt = none := by
        simpa [Wakes, show st.wpoint = .run (some t) from hp] using h.waking.wwakes
      obtain ⟨rfl, hb, -⟩ := hwakes
      exact hb
  · have hcount := h.counted.count
    rw [if_neg hr, if_neg hw] at hcount
    omega

/-- While no step falls into a window, no wake-up is lost. -/
theorem calm_run_contract (h : (system size).Run Calm st) : st.Contract size :=
  (h.invariant (P := Inv size) (fun _ hinit ↦ inv_init hinit) fun _ _ _ hinv hcalm hstep ↦
    inv_step hinv hcalm hstep).contract

/-! ### Runs -/

instance (st : BufRace) (a : Action) : Decidable (st.Possible a) := by
  rcases a with _ | _ | (_ | _) | _ | _ <;> unfold Possible <;> infer_instance

instance (st : BufRace) (a : Action) : Decidable (st.Calm a) := by
  rcases a with _ | _ | (_ | _) | _ | _ <;> unfold Calm <;> infer_instance

instance (st : BufRace) : Decidable st.WakePending := by
  unfold WakePending
  infer_instance

/-- The buffer of the console before `tmp_init`. -/
def consoleBuf : Buf BufThread where
  cache _ := 0
  size := 0
  freesz := 0
  b := 0
  e := 0
  wblkt := none
  rblkt := none

def exampleInit : BufRace where
  buf := (consoleBuf.bufInit 4096 (.ok fun _ ↦ 0)).2
  rpoint := .idle
  wpoint := .idle
  rstate := .running
  ostate := .running
  on := .other
  arg := 0
  res := 0
  stored := 0

theorem exampleInit_init : (system 4096).init exampleInit := ⟨consoleBuf, fun _ ↦ 0, rfl, rfl, rfl, rfl, rfl, rfl⟩

def steps (side : BufSide) (k : ℕ) : List Action := List.replicate k (.step side)

def runSteps (allowed : BufRace → Action → Prop) [∀ st a, Decidable (allowed st a)] (acts : List Action) :
    Result BufRace :=
  acts.foldlM (System.guarded next (fun st a ↦ st.Possible a ∧ allowed st a) .unset) exampleInit

theorem run_of_runSteps {allowed : BufRace → Action → Prop} [∀ st a, Decidable (allowed st a)] {acts : List Action}
    (h : runSteps allowed acts = .ok st) : (system 4096).Run allowed st := by
  refine System.foldlM_invariant (fun s a s' hs hnext ↦ ?_) (.init exampleInit_init) h
  unfold System.guarded at hnext
  split_ifs at hnext with hallowed
  exact .step hs hallowed.2 ⟨hallowed.1, hnext⟩

/-- The reader blocks on the empty buffer, and an interrupt on the other CPU wakes it up. -/
theorem calm_run_contract_example : ∃ st, (system 4096).Run Calm st ∧ st.rstate = .runnabel ∧ st.stored = 1 ∧
    st.Contract 4096 := by
  have hresult : (runSteps Calm (.read :: steps .reader 3 ++ .intr .other 7 :: steps .writer 10)).map (fun st ↦
      (st.rstate, st.stored)) = .ok (.runnabel, 1) := by decide +kernel
  obtain ⟨st, hsteps, hview⟩ := map_eq_ok.mp hresult
  obtain ⟨hstate, hstored⟩ := Prod.mk.inj hview
  have hrun := run_of_runSteps hsteps
  exact ⟨st, hrun, hstate, hstored, calm_run_contract hrun⟩

/-- An interrupt after the test of the reader: the writer finds no one to wake up, and then the reader blocks. -/
def lostWake : List Action := .read :: steps .reader 1 ++ .intr .reader 7 :: steps .writer 7 ++ steps .reader 2

/-- An interrupt before `schd_block`: the writer wakes the reader up, which is running. -/
def earlyWake : List Action := .read :: steps .reader 2 ++ .intr .reader 7 :: steps .writer 9

/-- An interrupt on the other CPU between the load and the store of `freesz++`. -/
def lostUpdate : List Action :=
  .intr .other 7 :: steps .writer 7 ++ .read :: steps .reader 5 ++ .intr .other 8 :: steps .writer 7 ++
    steps .reader 2

/-- The three windows of the code. -/
theorem reachable_races :
    (∃ st, (system 4096).Reachable st ∧ st.rstate = .blocked ∧ 0 < st.stored ∧ ¬ st.WakePending) ∧
    (∃ st, (system 4096).Reachable st ∧ st.wpoint = .run (some .reader) ∧ st.state .reader = .running) ∧
    ∃ st, (system 4096).Reachable st ∧ ¬ st.rpoint.updating ∧ ¬ st.wpoint.updating ∧
      st.buf.freesz ≠ 4096 - st.stored := by
  have hlost : (runSteps (fun _ _ ↦ True) lostWake).map (fun st ↦
      decide (st.rstate = .blocked ∧ 0 < st.stored ∧ ¬ st.WakePending)) = .ok true := by decide +kernel
  have hearly : (runSteps (fun _ _ ↦ True) earlyWake).map (fun st ↦
      decide (st.wpoint = .run (some .reader) ∧ st.state .reader = .running)) = .ok true := by decide +kernel
  have hupdate : (runSteps (fun _ _ ↦ True) lostUpdate).map (fun st ↦ decide (¬ st.rpoint.updating ∧
      ¬ st.wpoint.updating ∧ st.buf.freesz ≠ 4096 - st.stored)) = .ok true := by decide +kernel
  refine ⟨?_, ?_, ?_⟩
  · obtain ⟨st, hsteps, hview⟩ := map_eq_ok.mp hlost
    exact ⟨st, run_of_runSteps hsteps, of_decide_eq_true hview⟩
  · obtain ⟨st, hsteps, hview⟩ := map_eq_ok.mp hearly
    exact ⟨st, run_of_runSteps hsteps, of_decide_eq_true hview⟩
  · obtain ⟨st, hsteps, hview⟩ := map_eq_ok.mp hupdate
    exact ⟨st, run_of_runSteps hsteps, of_decide_eq_true hview⟩

end BufRace

end Lanthorn
