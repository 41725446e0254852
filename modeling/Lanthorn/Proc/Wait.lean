import Lanthorn.Proc.Process
import Mathlib.Data.Fintype.Option
import Mathlib.Data.Fintype.Basic

/-!
# Parents that wait for a child

A thread that creates a process with `iswait` blocks until the process ends: `proc_create_from_mm` publishes it as
`wait_t`, starts the first thread of the process and then calls `schd_block`, and `proc_sys_exit` wakes it.

`proc_sys_kill` and `thread_sys_exit` wake no parent, and the process can be in `proc_sys_exit` before the parent
is blocked (`reachable_forgotten`). `Procs.orderly_run_contract` is about the runs without such steps
(`Procs.Orderly`): in them a parent is not forgotten, and it is woken only when it is blocked. The invariant
follows a process from the publication of `wait_t` to the wake-up (`Procs.Waits`).
-/

set_option linter.unusedSectionVars false

namespace Lanthorn

open Function Library List

namespace Procs

variable {π τ : Type} [DecidableEq π] [DecidableEq τ]

def Live (s : Procs π τ) (t : τ) : Prop := s.state t ≠ none ∧ s.state t ≠ some .killed

/-- A thread between the publication of `wait_t` and the mark of its `schd_block`. -/
def InWindow (s : Procs π τ) (t : τ) : Prop :=
  (∃ u p, s.point t = .starting u (some p)) ∨ ∃ p, s.point t = .creating p

/-- A thread that waits for a process and has not been woken, or is about to wait. -/
def Pending (s : Procs π τ) (p : π) (w : τ) : Prop :=
  (∃ u, s.point w = .starting u (some p)) ∨ s.point w = .creating p ∨
    s.point w = .waiting p ∧ s.state w = some .blocked

/-- The points of `proc_sys_exit` up to the wake-up of the parent. -/
def BeforeWake : ProcPoint π τ → Prop
  | .exiting _ _ | .exitWake => True
  | _ => False

/-- The points of `proc_sys_exit` after its loop. -/
def AfterLoop : ProcPoint π τ → Prop
  | .exitWake | .exitKill => True
  | _ => False

/-- The points of `proc_sys_exit`. -/
def Exiting : ProcPoint π τ → Prop
  | .exiting _ _ | .exitWake | .exitKill => True
  | _ => False

/-- The condition on the steps. A process that is waited for is not killed, its last living thread does
not leave by `thread_sys_exit`, and `proc_sys_exit` is called in it only after its parent has reached
`schd_block`. No thread is killed between the publication of `wait_t` and its `schd_block`,
`thread_sys_wake` is used on threads that sleep and wait for no process, and no thread is made in a
process that is in `proc_sys_exit`. -/
def Orderly (s : Procs π τ) : Action π τ → Prop
  | .killCall now pid => s.pid (s.proc now) = pid ∨ ∀ p, s.find pid = some p → s.waitT p = none
  | .threadExit now => s.waitT (s.proc now) = none ∨
    ∃ t ∈ s.threadLs (s.proc now), t ≠ now ∧ s.state t ≠ some .killed
  | .exitCall now => ∀ w, s.waitT (s.proc now) = some w → s.point w = .waiting (s.proc now)
  | .exitStep now => ∀ t next, s.point now = .exiting (some t) next → ¬ s.InWindow t
  | .killStep now => ∀ t next, s.point now = .killing (some t) next → ¬ s.InWindow t
  | .sysWake now t => s.proc t = s.proc now → s.point t = .asleep
  | .newThread now _ => ∀ u ∈ s.threadLs (s.proc now), Exiting (s.point u) → s.state u = some .killed
  | _ => True

/-! ### The list of threads -/

theorem after_append {pre rest : List τ} {t : τ} (hnot : t ∉ pre) : after (pre ++ t :: rest) t = rest.head? := by
  unfold after
  rw [dropWhile_append_of_pos fun u hu ↦ by
    have hne : u ≠ t := fun heq ↦ hnot (heq ▸ hu)
    simpa using hne]
  simp

theorem mem_of_after {ts : List τ} {t u : τ} (h : after ts t = some u) : u ∈ ts := by
  have hmem := mem_of_mem_head? (Option.mem_def.mpr h)
  exact (dropWhile_sublist _).subset (mem_of_mem_tail hmem)

theorem mem_of_afterNext {ts : List τ} {n : Option τ} {u : τ} (h : afterNext ts n = some u) : u ∈ ts := by
  cases n with
  | none => simp [afterNext] at h
  | some t => exact mem_of_after h

/-! ### The invariant -/

/-- A thread that is being started has done nothing yet, and is started by one thread. -/
structure Starts (s : Procs π τ) : Prop where
  new : ∀ u t c, s.point u = .starting t c → s.state t = some .unschded ∧ s.point t = .user
  unique : ∀ u u' t c c', s.point u = .starting t c → s.point u' = .starting t c' → u = u'

/-- A living thread in `proc_sys_exit` has killed the threads that its loop has passed. -/
structure Loops (s : Procs π τ) : Prop where
  loop : ∀ t cur next, s.Live t → s.point t = .exiting cur next →
    ∃ pre rest, s.threadLs (s.proc t) = pre ++ (cur.toList ++ rest) ∧ next = rest.head? ∧
      (cur = none → rest = []) ∧ ∀ u ∈ pre, u ≠ t → s.state u = some .killed
  alone : ∀ t, s.Live t → AfterLoop (s.point t) → ∀ u ∈ s.threadLs (s.proc t), u ≠ t → s.state u = some .killed

/-- The loop of `proc_sys_kill` is in a process that is not waited for. -/
def Kills (s : Procs π τ) : Prop :=
  ∀ t cur next c, s.point t = .killing cur next → cur = some c ∨ next = some c →
    s.state c ≠ none ∧ s.waitT (s.proc c) = none

/-- While a thread waits for a process, a thread of the process lives that has not passed the wake-up;
afterwards, none lives that has not. A process that is in `proc_sys_exit` before the wake-up has its
parent blocked. -/
structure Waits (s : Procs π τ) : Prop where
  pending_live : ∀ p w, s.waitT p = some w → s.Pending p w → ∃ t ∈ s.threadLs p, s.Live t ∧ s.point t ≠ .exitKill
  done : ∀ p w, s.waitT p = some w → ¬ s.Pending p w → ∀ t ∈ s.threadLs p, s.Live t → s.point t = .exitKill
  exit_waits : ∀ p w t, s.waitT p = some w → t ∈ s.threadLs p → s.Live t → BeforeWake (s.point t) →
    s.point w = .waiting p ∧ s.state w = some .blocked

structure WaitInv (s : Procs π τ) : Prop where
  wf : s.Wf
  starts : s.Starts
  loops : s.Loops
  kills : s.Kills
  waits : s.Waits

/-! ### The fields after an update -/

section Fields

variable {s : Procs π τ} {now t : τ}

@[grind =]
theorem goto_point (at' : ProcPoint π τ) (u : τ) :
    (s.goto now at').point u = if u = now then at' else s.point u := update_apply _ _ _ _

@[grind =]
theorem goto_state (at' : ProcPoint π τ) (u : τ) : (s.goto now at').state u = s.state u := rfl

@[grind =]
theorem goto_proc (at' : ProcPoint π τ) (u : τ) : (s.goto now at').proc u = s.proc u := rfl

@[grind =]
theorem goto_waitT (at' : ProcPoint π τ) (q : π) : (s.goto now at').waitT q = s.waitT q := rfl

@[grind =]
theorem goto_threadLs (at' : ProcPoint π τ) (q : π) : (s.goto now at').threadLs q = s.threadLs q := rfl

@[grind =]
theorem setState_state (st : ThreadState) (u : τ) :
    (s.setState t st).state u = if u = t then some st else s.state u := update_apply _ _ _ _

@[grind =]
theorem setState_point (st : ThreadState) (u : τ) : (s.setState t st).point u = s.point u := rfl

@[grind =]
theorem setState_proc (st : ThreadState) (u : τ) : (s.setState t st).proc u = s.proc u := rfl

@[grind =]
theorem setState_waitT (st : ThreadState) (q : π) : (s.setState t st).waitT q = s.waitT q := rfl

@[grind =]
theorem setState_threadLs (st : ThreadState) (q : π) : (s.setState t st).threadLs q = s.threadLs q := rfl

@[grind =]
theorem addThread_state (p : π) (u : τ) :
    (s.addThread p t).state u = if u = t then some .unschded else s.state u := update_apply _ _ _ _

@[grind =]
theorem addThread_point (p : π) (u : τ) :
    (s.addThread p t).point u = if u = t then .user else s.point u := update_apply _ _ _ _

@[grind =]
theorem addThread_proc (p : π) (u : τ) :
    (s.addThread p t).proc u = if u = t then p else s.proc u := update_apply _ _ _ _

@[grind =]
theorem addThread_waitT (p : π) (q : π) : (s.addThread p t).waitT q = s.waitT q := rfl

@[grind =]
theorem addThread_threadLs (p q : π) :
    (s.addThread p t).threadLs q = if q = p then s.threadLs p ++ [t] else s.threadLs q :=
  update_apply _ _ _ _

@[grind =]
theorem addProc_waitT (p q : π) (pid : ℕ) (parent : Option τ) :
    (s.addProc p pid parent).waitT q = if q = p then parent else s.waitT q := update_apply _ _ _ _

@[grind =]
theorem addProc_state (p : π) (pid : ℕ) (parent : Option τ) (u : τ) :
    (s.addProc p pid parent).state u = s.state u := rfl

@[grind =]
theorem addProc_point (p : π) (pid : ℕ) (parent : Option τ) (u : τ) :
    (s.addProc p pid parent).point u = s.point u := rfl

@[grind =]
theorem addProc_proc (p : π) (pid : ℕ) (parent : Option τ) (u : τ) :
    (s.addProc p pid parent).proc u = s.proc u := rfl

@[grind =]
theorem addProc_threadLs (p : π) (pid : ℕ) (parent : Option τ) (q : π) :
    (s.addProc p pid parent).threadLs q = s.threadLs q := rfl

end Fields

/-! ### Steps -/

section Steps

variable {s s' : Procs π τ} {now t : τ} {a : Action π τ}

theorem Starts.step (h : s.Starts) (hwaits : s.Waits) (hwf : s.Wf) (horderly : s.Orderly a) (hstep : s.Step a s') :
    s'.Starts := by
  obtain ⟨hnew, hunique⟩ := h
  cases hstep with
  | sysWake hnow hat hproc =>
    have hasleep := horderly hproc
    constructor <;> first | assumption | grind -ring -linarith
  | @start now t child st hnow hat hst hwas =>
    cases child <;> constructor <;> first | assumption | grind -ring -linarith [afterStart]
  | @exitWake now w st hnow hat hparent =>
    have hblocked := hwaits.exit_waits _ w now hparent ((hwf.mem_threadLs _ now).mpr ⟨by simp [hnow], rfl⟩)
      (by simp [Live, hnow]) (by rw [hat]; trivial)
    constructor <;> first | assumption | grind -ring -linarith
  | _ => constructor <;> first | assumption | grind -ring -linarith

theorem Kills.step (h : s.Kills) (hwf : s.Wf) (horderly : s.Orderly a) (hstep : s.Step a s') : s'.Kills := by
  have hmem := hwf.mem_threadLs
  have hhead : ∀ p c, (s.threadLs p).head? = some c → c ∈ s.threadLs p := fun p c hc ↦ mem_of_mem_head? hc
  unfold Kills at *
  cases hstep with
  | @killCall now pid p hnow hat hother hfind =>
    have hnone : s.waitT p = none := horderly.resolve_left hother _ hfind
    grind -ring -linarith [mem_of_afterNext]
  | @newProc now p t pid isWait hnow hat hnew hproc hempty =>
    have hnobody := hmem p
    rw [hempty] at hnobody
    grind -ring -linarith
  | @start now t child st hnow hat hst hwas => cases child <;> grind -ring -linarith [afterStart]
  | killSkip hnow hat | killOther hnow hat =>
    have hfree := fun c ↦ h _ _ _ c hat
    grind -ring -linarith [mem_of_afterNext]
  | _ => grind -ring -linarith

theorem killed_of_step {u : τ} (hstep : s.Step a s') (hu : s.state u = some .killed) :
    s'.state u = some .killed := by
  cases hstep <;> grind -ring -linarith

theorem loop_next {ts pre rest : List τ} (hnodup : ts.Nodup) (hlist : ts = pre ++ t :: rest) :
    ∃ rest', ts = (pre ++ [t]) ++ (rest.head?.toList ++ rest') ∧
      afterNext ts rest.head? = rest'.head? ∧ (rest.head? = none → rest' = []) := by
  cases rest with
  | nil => exact ⟨[], by simp [hlist], rfl, fun _ ↦ rfl⟩
  | cons r rest' =>
    refine ⟨rest', by simp [hlist], ?_, by simp⟩
    have hsplit : ts = (pre ++ [t]) ++ r :: rest' := by simp [hlist]
    rw [hsplit] at hnodup ⊢
    exact after_append fun hmem ↦ (disjoint_of_nodup_append hnodup) hmem (by simp)

theorem loop_first {ts : List τ} :
    ∃ rest, ts = [] ++ (ts.head?.toList ++ rest) ∧ afterNext ts ts.head? = rest.head? ∧
      (ts.head? = none → rest = []) := by
  cases ts with
  | nil => exact ⟨[], rfl, rfl, fun _ ↦ rfl⟩
  | cons t rest => exact ⟨rest, rfl, after_append (not_mem_nil (a := t)), by simp⟩

theorem Loops.step (h : s.Loops) (hwf : s.Wf) (horderly : s.Orderly a) (hstep : s.Step a s') : s'.Loops := by
  have hmem := hwf.mem_threadLs
  have hkilled := fun u ↦ killed_of_step (u := u) hstep
  have hkept : ∀ t cur next, s.Live t ∧ s.point t = .exiting cur next ∧
      s'.threadLs (s'.proc t) = s.threadLs (s.proc t) → ∃ pre rest, s'.threadLs (s'.proc t) =
        pre ++ (cur.toList ++ rest) ∧ next = rest.head? ∧ (cur = none → rest = []) ∧
          ∀ u ∈ pre, u ≠ t → s'.state u = some .killed := by grind [h.loop]
  obtain ⟨hloop, halone⟩ := h
  cases hstep with
  | @exitCall now hnow hat =>
    refine ⟨fun t cur next hlive hat' ↦ ?_, ?_⟩
    · by_cases ht : t = now
      · obtain ⟨rest, hlist, hnext, hempty⟩ := @loop_first τ _ (s.threadLs (s.proc now))
        grind -ring -linarith
      · exact hkept t cur next (by grind -ring -linarith [Live])
    · grind -ring -linarith [Live, AfterLoop]
  | newThread hnow hat hnew =>
    have hexit : ∀ u ∈ s.threadLs _, Exiting (s.point u) → s.state u = some .killed := horderly
    exact ⟨fun t cur next hlive hat' ↦ hkept t cur next (by grind -ring -linarith [Live, Exiting]),
      by grind -ring -linarith [Live, AfterLoop, Exiting]⟩
  | @newProc now p t pid isWait hnow hat hnew hproc hempty =>
    have hnobody := hmem p
    rw [hempty] at hnobody
    exact ⟨fun t cur next hlive hat' ↦ hkept t cur next (by grind -ring -linarith [Live]),
      by grind -ring -linarith [Live, AfterLoop]⟩
  | @start now t child st hnow hat hst hwas =>
    cases child <;> exact ⟨fun t cur next hlive hat' ↦ hkept t cur next
      (by grind -ring -linarith [Live, afterStart]),
      by grind -ring -linarith [Live, AfterLoop, afterStart]⟩
  | @exitSkip now t next hnow hat hskip | @exitOther now t next st hnow hat hskip =>
    obtain ⟨pre, rest, hlist, rfl, -, hpre⟩ := hloop now _ _ (by simp [Live, hnow]) hat
    obtain ⟨rest', hlist', hnext', hempty'⟩ := loop_next (hwf.nodup _) (by simpa using hlist)
    refine ⟨fun u cur next hlive hat' ↦ ?_, ?_⟩
    · by_cases hu : u = now
      · refine ⟨pre ++ [t], rest', ?_⟩
        grind -ring -linarith
      · exact hkept u cur next (by grind -ring -linarith [Live])
    · grind -ring -linarith [Live, AfterLoop]
  | @exitWake now w st hnow hat hparent =>
    have hothers := halone now (by simp [Live, hnow]) (by rw [hat]; trivial)
    exact ⟨fun t cur next hlive hat' ↦ hkept t cur next (by grind -ring -linarith [Live]),
      by grind -ring -linarith [Live, AfterLoop]⟩
  | _ => exact ⟨fun t cur next hlive hat' ↦ hkept t cur next (by grind -ring -linarith [Live]),
      by grind -ring -linarith [Live, AfterLoop]⟩

theorem Waits.of_same (h : s.Waits) (hlist : ∀ p, s'.threadLs p = s.threadLs p)
    (hwaitT : ∀ p, s'.waitT p = s.waitT p)
    (hpending : ∀ p w, s.waitT p = some w → (s'.Pending p w ↔ s.Pending p w))
    (hlive : ∀ t, s'.Live t → s.Live t ∧ (s.point t = .exitKill → s'.point t = .exitKill) ∧
      (BeforeWake (s'.point t) → BeforeWake (s.point t)))
    (hsome : ∀ p w t, s.waitT p = some w → s.Pending p w → t ∈ s.threadLs p → s.Live t → s.point t ≠ .exitKill →
      ∃ u ∈ s.threadLs p, s'.Live u ∧ s'.point u ≠ .exitKill)
    (hblocked : ∀ p w, s.point w = .waiting p → s.state w = some .blocked →
      s'.point w = .waiting p ∧ s'.state w = some .blocked) : s'.Waits := by
  constructor
  all_goals grind [h.pending_live, h.done, h.exit_waits]

section

variable (h : s.WaitInv)
include h

theorem Waits.newThread (hnow : s.state now = some .running) (hat : s.point now = .user)
    (hnew : s.state t = none) : ((s.addThread (s.proc now) t).goto now (.starting t none)).Waits := by
  have hmem := h.wf.mem_threadLs
  have hpending : ∀ p w, s.waitT p = some w →
      (((s.addThread (s.proc now) t).goto now (.starting t none)).Pending p w ↔ s.Pending p w) := by
    have hparent := h.wf.parent
    grind -ring -linarith [Pending]
  refine ⟨fun p w hw hp ↦ ?_, fun p w hw hp u hu hulive ↦ ?_, fun p w u hw hu hulive hbefore ↦ ?_⟩
  · obtain ⟨u, hu, hulive, hatu⟩ := h.waits.pending_live p w hw ((hpending p w hw).mp hp)
    exact ⟨u, by grind -ring -linarith, by grind -ring -linarith [Live], by grind -ring -linarith [Live]⟩
  · grind [h.waits.done, Live]
  · have hwaits := h.waits.exit_waits p w u hw
    grind -ring -linarith [Live, BeforeWake]

theorem Waits.newProc {p : π} {pid : ℕ} {isWait : Bool} (hnow : s.state now = some .running)
    (hat : s.point now = .user) (hnew : s.state t = none) (hempty : s.threadLs p = []) :
    (((s.addProc p pid (if isWait then some now else none)).addThread p t).goto now
      (.starting t (if isWait then some p else none))).Waits := by
  have hmem := h.wf.mem_threadLs
  have hnobody := hmem p
  rw [hempty] at hnobody
  have hpending : ∀ q w, q ≠ p → s.waitT q = some w →
      ((((s.addProc p pid (if isWait then some now else none)).addThread p t).goto now
        (.starting t (if isWait then some p else none))).Pending q w ↔ s.Pending q w) := by
    have hparent := h.wf.parent
    grind -ring -linarith [Pending]
  refine ⟨fun q w hw hp ↦ ?_, fun q w hw hp u hu hulive ↦ ?_, fun q w u hw hu hulive hbefore ↦ ?_⟩ <;>
    by_cases hq : q = p
  · exact ⟨t, by grind -ring -linarith, by grind -ring -linarith [Live], by grind -ring -linarith⟩
  · grind [h.waits.pending_live, Live]
  · grind -ring -linarith [Pending]
  · grind [h.waits.done, Live]
  · grind -ring -linarith [BeforeWake]
  · have hwaits := h.waits.exit_waits q w u
    grind -ring -linarith [Live, BeforeWake]

theorem Waits.exitCall {cur next : Option τ} (hnow : s.state now = some .running) (hat : s.point now = .user)
    (hparent : ∀ w, s.waitT (s.proc now) = some w → s.point w = .waiting (s.proc now)) :
    (s.goto now (.exiting cur next)).Waits := by
  have hmem := h.wf.mem_threadLs
  obtain ⟨hlive, hdone, hwait⟩ := h.waits
  have hblocked : ∀ w, s.waitT (s.proc now) = some w → s.state w = some .blocked := by grind [Pending, Live]
  refine ⟨fun p w hw hp ↦ ?_, ?_, fun p w u hw hu hulive hbefore ↦ ?_⟩
  · obtain ⟨u, hu, hulive, hatu⟩ := hlive p w hw (by grind -ring -linarith [Pending])
    exact ⟨u, hu, by grind -ring -linarith [Live], by grind -ring -linarith⟩
  · grind -ring -linarith [Live, Pending]
  grind [Live]

theorem Waits.exitWake {w : τ} (hnow : s.state now = some .running) (hat : s.point now = .exitWake)
    (hparent : s.waitT (s.proc now) = some w) : ((s.setState w .runnabel).goto now .exitKill).Waits := by
  have hmem := h.wf.mem_threadLs
  have hothers := h.loops.alone now (by simp [Live, hnow]) (by rw [hat]; trivial)
  obtain ⟨hlive, hdone, hwait⟩ := h.waits
  obtain ⟨hatw, hblocked⟩ := hwait _ w now hparent ((hmem _ now).mpr ⟨by simp [hnow], rfl⟩)
    (by simp [Live, hnow]) (by rw [hat]; trivial)
  have hpending : ∀ p w', (((s.setState w .runnabel).goto now .exitKill).Pending p w' ↔
      w' ≠ w ∧ s.Pending p w') := by
    intro p w'
    by_cases hw' : w' = now <;> grind -ring -linarith [Pending]
  refine ⟨fun p w' hw' hp ↦ ?_, fun p w' hw' hp u hu hulive ↦ ?_, fun p w' u hw' hu hulive hbefore ↦ ?_⟩
  · obtain ⟨hne, hp⟩ := (hpending p w').mp hp
    obtain ⟨u, hu, hulive, hatu⟩ := hlive p w' hw' hp
    exact ⟨u, hu, by grind -ring -linarith [Live], by grind -ring -linarith⟩
  · by_cases hp' : s.Pending p w'
    · have hw : w' = w := by grind -ring -linarith
      have hproc : p = s.proc now := by grind -ring -linarith [Pending]
      grind -ring -linarith [Live]
    · have hkill := hdone p w' hw' hp' u hu
      grind -ring -linarith [Live]
  · by_cases hproc : p = s.proc now
    · grind -ring -linarith [Live, BeforeWake]
    · have hunow : u ≠ now := by grind -ring -linarith
      have hwaits := hwait p w' u hw' hu (by grind -ring -linarith [Live]) (by grind -ring -linarith)
      grind -ring -linarith

theorem Waits.step (horderly : s.Orderly a) (hstep : s.Step a s') : s'.Waits := by
  have hwaits := h.waits
  have hmem := h.wf.mem_threadLs
  have halone := h.loops.alone
  cases hstep with
  | killRefused | wakeRefused | blockRefused => exact hwaits
  | newThread hnow hat hnew => exact .newThread h hnow hat hnew
  | newProc hnow hat hnew _ hempty => exact .newProc h hnow hat hnew hempty
  | exitCall hnow hat => exact .exitCall h hnow hat horderly
  | exitWake hnow hat hparent => exact .exitWake h hnow hat hparent
  | @start now t child st hnow hat hst hwas =>
    obtain ⟨hunschded, huser⟩ := h.starts.new now t child hat
    cases child <;> refine hwaits.of_same (fun _ ↦ rfl) (fun _ ↦ rfl) ?_ ?_
      (fun p w u _ _ hu hulive hatu ↦ ⟨u, hu, ?_, ?_⟩) ?_ <;>
      grind -ring -linarith [Live, Pending, BeforeWake, afterStart]
  | @sysWake now t st hnow hat hproc hst =>
    have hasleep : s.point t = .asleep := horderly hproc
    refine hwaits.of_same (fun _ ↦ rfl) (fun _ ↦ rfl) ?_ ?_ ?_ ?_ <;>
      grind -ring -linarith [Live, Pending, BeforeWake]
  | @exitOther now t next st hnow hat hne hst hwas =>
    have hwindow : ¬ s.InWindow t := horderly _ _ hat
    refine hwaits.of_same (fun _ ↦ rfl) (fun _ ↦ rfl) ?_ ?_ ?_ ?_
    · grind -ring -linarith [Live, Pending, InWindow]
    · grind -ring -linarith [Live, BeforeWake]
    · grind [h.loops.loop, Live]
    · grind -ring -linarith
  | @killOther now t next st hnow hat hst hwas =>
    have hwindow : ¬ s.InWindow t := horderly _ _ hat
    have hfree := (h.kills now _ _ t hat (.inl rfl)).2
    refine hwaits.of_same (fun _ ↦ rfl) (fun _ ↦ rfl) ?_ ?_ ?_ ?_
    · grind -ring -linarith [Live, Pending, InWindow]
    · grind -ring -linarith [Live, BeforeWake]
    · intro p w u hw hp hu hulive hatu
      have hne : u ≠ t := by grind -ring -linarith
      exact ⟨u, hu, by grind -ring -linarith [Live], by grind -ring -linarith⟩
    · grind -ring -linarith
  | @exitKill now hnow hat =>
    have hothers := halone now (by simp [Live, hnow]) (by rw [hat]; trivial)
    refine hwaits.of_same (fun _ ↦ rfl) (fun _ ↦ rfl) ?_ ?_ ?_ ?_
    · grind -ring -linarith [Live, Pending]
    · grind -ring -linarith [Live, BeforeWake]
    · grind -ring -linarith [Live]
    · grind -ring -linarith
  | @threadExit now hnow hat =>
    have hother : s.waitT (s.proc now) = none ∨
      ∃ t ∈ s.threadLs (s.proc now), t ≠ now ∧ s.state t ≠ some .killed := horderly
    refine hwaits.of_same (fun _ ↦ rfl) (fun _ ↦ rfl) ?_ ?_ ?_ ?_
    · grind -ring -linarith [Live, Pending, InWindow]
    · grind -ring -linarith [Live, BeforeWake]
    · grind -ring -linarith [Live, AfterLoop]
    · grind -ring -linarith
  | _ =>
    refine hwaits.of_same (fun _ ↦ rfl) (fun _ ↦ rfl) ?_ ?_ ?_ ?_ <;>
      grind -ring -linarith [Live, Pending, BeforeWake]

theorem waitInv_step (horderly : s.Orderly a) (hstep : s.Step a s') : s'.WaitInv :=
  ⟨h.wf.step hstep, h.starts.step h.waits h.wf horderly hstep, h.loops.step h.wf horderly hstep,
    h.kills.step h.wf horderly hstep, .step h horderly hstep⟩

end

end Steps

theorem waitInv_init {s : Procs π τ} (h : s.Init) : s.WaitInv := by
  refine ⟨h.wf, ⟨?_, ?_⟩, ⟨?_, ?_⟩, ?_, ⟨?_, ?_, ?_⟩⟩
  all_goals grind [h.point, AfterLoop, Kills, h.waitT]

/-- What a waiting parent can rely on in a state.

No process with a parent that waits for it, blocked and not yet made runnable, has only killed threads
(`not_forgotten`), and `schd_run` is called on a parent only when it is blocked (`wake_blocked`). -/
structure WaitContract (s : Procs π τ) : Prop where
  not_forgotten : ∀ p w, s.waitT p = some w → s.point w = .waiting p → s.state w = some .blocked →
    ¬ ∀ t ∈ s.threadLs p, s.state t = some .killed
  wake_blocked : ∀ now w, s.state now = some .running → s.point now = .exitWake →
    s.waitT (s.proc now) = some w → s.state w = some .blocked

/-- The contract holds in every state that is reached by orderly steps. -/
theorem orderly_run_contract {s : Procs π τ} (h : (system π τ).Run Orderly s) : s.WaitContract := by
  have hinv : s.WaitInv := h.invariant (P := WaitInv) (fun _ ↦ waitInv_init)
    fun _ _ _ hinv horderly hact ↦ waitInv_step hinv horderly (step_of_act hact)
  constructor
  · intro p w hw hat hblocked hall
    obtain ⟨t, ht, hlive, -⟩ := hinv.waits.pending_live p w hw (.inr (.inr ⟨hat, hblocked⟩))
    exact hlive.2 (hall t ht)
  · intro now w hnow hat hw
    have hmem : now ∈ s.threadLs (s.proc now) :=
      (hinv.wf.mem_threadLs _ now).mpr ⟨by simp [hnow], rfl⟩
    exact (hinv.waits.exit_waits _ w now hw hmem (by simp [Live, hnow]) (by rw [hat]; trivial)).2

instance (s : Procs (Fin 2) (Fin 3)) (t : Fin 3) : Decidable (s.InWindow t) := by
  unfold InWindow
  infer_instance

instance (at' : ProcPoint (Fin 2) (Fin 3)) : Decidable (Exiting at') := by
  cases at' <;> unfold Exiting <;> infer_instance

instance (s : Procs (Fin 2) (Fin 3)) (a : Action (Fin 2) (Fin 3)) : Decidable (s.Orderly a) := by
  cases a <;> unfold Orderly <;> infer_instance

/-- What is seen of a parent, of the only thread of the process for which it waits, and of a third
thread. -/
structure ParentView where
  parent : Option ThreadState × ProcPoint (Fin 2) (Fin 3)
  child : Option ThreadState × ProcPoint (Fin 2) (Fin 3)
  other : ProcPoint (Fin 2) (Fin 3)
  waitT : Option (Fin 3)
  threads : List (Fin 3)
  proc : Fin 2
  deriving DecidableEq

def parentView (s : Procs (Fin 2) (Fin 3)) : ParentView where
  parent := (s.state 0, s.point 0)
  child := (s.state 1, s.point 1)
  other := s.point 2
  waitT := s.waitT 1
  threads := s.threadLs 1
  proc := s.proc 1

/-- Thread 0 makes thread 2 in its own process, and process 1 with thread 1, for which it waits. -/
def parentActions : List (Action (Fin 2) (Fin 3)) :=
  [.schdule 0, .newThread 0 2, .start 0, .newProc 0 1 1 1 true, .start 0]

def exitActions : List (Action (Fin 2) (Fin 3)) :=
  parentActions ++ [.blockParent 0, .schdule 1, .exitCall 1, .exitStep 1, .exitStep 1]

def earlyExitActions : List (Action (Fin 2) (Fin 3)) :=
  parentActions ++ [.schdule 1, .exitCall 1, .exitStep 1, .exitStep 1]

def threadExitActions : List (Action (Fin 2) (Fin 3)) :=
  parentActions ++ [.blockParent 0, .schdule 1, .threadExit 1]

def killActions : List (Action (Fin 2) (Fin 3)) :=
  parentActions ++ [.blockParent 0, .schdule 2, .killCall 2 1, .killStep 2]

/-- The contract where the parent is about to be woken. -/
theorem orderly_run_contract_example : ∃ s : Procs (Fin 2) (Fin 3), (system _ _).Run Orderly s ∧ parentView s =
        ⟨(some .blocked, .waiting 1), (some .running, .exitWake), .user, some 0, [1], 1⟩ ∧
      s.WaitContract := by
  have hrun : (exitActions.foldlM (System.guarded act Orderly .panic) exampleInit).map parentView =
      .ok ⟨(some .blocked, .waiting 1), (some .running, .exitWake), .user, some 0, [1], 1⟩ := by decide +kernel
  obtain ⟨s, hacts, hrun⟩ := map_eq_ok.mp hrun
  have hs : (system _ _).Run Orderly s := System.run_of_foldlM (.init exampleInit_init) hacts
  exact ⟨s, hs, hrun, orderly_run_contract hs⟩

theorem reachable_of_view {acts : List (Action (Fin 2) (Fin 3))} {view : ParentView}
    (h : (acts.foldlM act exampleInit).map parentView = .ok view) :
    ∃ s, (system _ _).Reachable s ∧ parentView s = view := by
  obtain ⟨s, hacts, h⟩ := map_eq_ok.mp h
  exact ⟨s, System.reachable_of_foldlM (.init exampleInit_init) hacts, h⟩

theorem not_waitContract_of_view {s : Procs (Fin 2) (Fin 3)} {other : ProcPoint (Fin 2) (Fin 3)} (h : parentView s =
      ⟨(some .blocked, .waiting 1), (some .killed, .user), other, some 0, [1], 1⟩) :
    ¬ s.WaitContract := by
  simp only [parentView, ParentView.mk.injEq, Prod.mk.injEq] at h
  obtain ⟨⟨hparent, hat⟩, ⟨hchild, -⟩, -, hwait, hthreads, -⟩ := h
  exact fun hcontract ↦ hcontract.not_forgotten 1 0 hwait hat hparent (by simp [hthreads, hchild])

/-- The parent stays blocked when the only thread of its process leaves by `thread_sys_exit`, and when
its process is killed. And when the process is in `proc_sys_exit` before the parent has blocked,
`schd_run` is called on a running thread. -/
theorem reachable_forgotten : (∃ s, (system (Fin 2) (Fin 3)).Reachable s ∧ ¬ s.WaitContract ∧ parentView s =
      ⟨(some .blocked, .waiting 1), (some .killed, .user), .user, some 0, [1], 1⟩) ∧
    (∃ s, (system (Fin 2) (Fin 3)).Reachable s ∧ ¬ s.WaitContract ∧ parentView s =
      ⟨(some .blocked, .waiting 1), (some .killed, .user), .killing none none, some 0, [1], 1⟩) ∧
    ∃ s, (system (Fin 2) (Fin 3)).Reachable s ∧ ¬ s.WaitContract ∧ parentView s =
      ⟨(some .running, .creating 1), (some .running, .exitWake), .user, some 0, [1], 1⟩ := by
  refine ⟨?_, ?_, ?_⟩
  · obtain ⟨s, hreach, hview⟩ := @reachable_of_view threadExitActions
      ⟨(some .blocked, .waiting 1), (some .killed, .user), .user, some 0, [1], 1⟩ (by decide +kernel)
    exact ⟨s, hreach, not_waitContract_of_view hview, hview⟩
  · obtain ⟨s, hreach, hview⟩ := @reachable_of_view killActions
      ⟨(some .blocked, .waiting 1), (some .killed, .user), .killing none none, some 0, [1], 1⟩
      (by decide +kernel)
    exact ⟨s, hreach, not_waitContract_of_view hview, hview⟩
  · obtain ⟨s, hreach, hview⟩ := @reachable_of_view earlyExitActions
      ⟨(some .running, .creating 1), (some .running, .exitWake), .user, some 0, [1], 1⟩
      (by decide +kernel)
    refine ⟨s, hreach, fun hcontract ↦ ?_, hview⟩
    grind [parentView, hcontract.wake_blocked]

end Procs

end Lanthorn
