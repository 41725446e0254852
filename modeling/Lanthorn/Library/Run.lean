import Mathlib.Data.List.Forall2
import Mathlib.Tactic.Common

/-!
# Runs of a system

A system has initial states and steps, each labelled with the action that is taken. `System.Run` are the states
that runs of allowed actions reach, and `System.Reachable` the states that any run reaches. `Run.invariant` is the
induction over runs.

`System.Trace` keeps the actions of a run between two states. `Trace.simulate` is the induction over two runs side
by side, whose actions and states are related one by one.

Where the outcome of an action is computed (`System.ofNext`), a run is computed by folding the actions, and
`run_of_foldlM` turns such a computation into a run.
-/

namespace Lanthorn.Library

/-- Initial states and labelled steps. -/
structure System (σ α : Type*) where
  init : σ → Prop
  step : σ → α → σ → Prop

namespace System

variable {σ α : Type*} {S : System σ α} {allowed : σ → α → Prop}

/-- The states reached by runs in which every action is allowed where it is taken. -/
inductive Run (S : System σ α) (allowed : σ → α → Prop) : σ → Prop
  | init {s : σ} (hinit : S.init s) : Run S allowed s
  | step {s s' : σ} {a : α} (hrun : Run S allowed s) (hallowed : allowed s a)
    (hstep : S.step s a s') : Run S allowed s'

def Reachable (S : System σ α) : σ → Prop := Run S fun _ _ ↦ True

theorem Run.invariant {P : σ → Prop} (hinit : ∀ s, S.init s → P s)
    (hstep : ∀ s a s', P s → allowed s a → S.step s a s' → P s') {s : σ} (hrun : Run S allowed s) : P s := by
  induction hrun with
  | init h => exact hinit _ h
  | step _ hallowed hs ih => exact hstep _ _ _ ih hallowed hs

theorem Reachable.invariant {P : σ → Prop} (hinit : ∀ s, S.init s → P s)
    (hstep : ∀ s a s', P s → S.step s a s' → P s') {s : σ} (hreach : S.Reachable s) : P s :=
  Run.invariant hinit (fun s a s' hP _ ↦ hstep s a s' hP) hreach

/-- A run of allowed actions from one state to another. -/
inductive Trace (S : System σ α) (allowed : σ → α → Prop) : σ → List α → σ → Prop
  | nil {s : σ} : Trace S allowed s [] s
  | cons {s mid s' : σ} {a : α} {acts : List α} (hallowed : allowed s a) (hstep : S.step s a mid)
    (htrace : Trace S allowed mid acts s') : Trace S allowed s (a :: acts) s'

theorem Trace.run {s s' : σ} {acts : List α} (htrace : Trace S allowed s acts s')
    (hrun : Run S allowed s) : Run S allowed s' := by
  induction htrace with
  | nil => exact hrun
  | cons hallowed hstep _ ih => exact ih (.step hrun hallowed hstep)

theorem Trace.past {Q : σ → Prop} (hpast : ∀ s a s', S.step s a s' → Q s' → Q s) {s s' : σ}
    {acts : List α} (htrace : Trace S allowed s acts s') (hQ : Q s') : Q s := by
  induction htrace with
  | nil => exact hQ
  | cons _ hstep _ ih => exact hpast _ _ _ hstep (ih hQ)

theorem Trace.simulate {R : σ → σ → Prop} {r : α → α → Prop} {Q : σ → Prop}
    (hpast : ∀ s a s', S.step s a s' → Q s' → Q s)
    (hstep : ∀ s a s' t b t', R s t → Q s' → r a b → allowed s a → allowed t b → S.step s a s' →
      S.step t b t' → R s' t') {s s' t t' : σ} {acts acts' : List α}
    (hs : Trace S allowed s acts s') (ht : Trace S allowed t acts' t') (hr : List.Forall₂ r acts acts')
    (hR : R s t) (hQ : Q s') : R s' t' := by
  induction hr generalizing s t with
  | nil =>
    cases hs
    cases ht
    exact hR
  | cons hab _ ih =>
    obtain _ | ⟨hallowed, hfirst, hs⟩ := hs
    obtain _ | ⟨hallowed', hfirst', ht⟩ := ht
    exact ih hs ht (hstep _ _ _ _ _ _ hR (hs.past hpast hQ) hab hallowed hallowed' hfirst hfirst')

section Computed

variable {ε : Type*}

/-- The system whose actions are computed by `next`, which may fail. -/
def ofNext (init : σ → Prop) (next : σ → α → Except ε σ) : System σ α where
  init := init
  step s a s' := next s a = .ok s'

/-- An action that is computed where it is allowed, and fails with `e` where it is not. -/
def guarded (next : σ → α → Except ε σ) (allowed : σ → α → Prop) [∀ s a, Decidable (allowed s a)]
    (e : ε) (s : σ) (a : α) : Except ε σ :=
  if allowed s a then next s a else .error e

variable {next : σ → α → Except ε σ} {acts : List α} {s s' : σ} {init : σ → Prop}

theorem foldlM_invariant {P : σ → Prop} (hnext : ∀ s a s', P s → next s a = .ok s' → P s')
    (hs : P s) (h : acts.foldlM next s = .ok s') : P s' := by
  induction acts generalizing s with
  | nil =>
    cases h
    exact hs
  | cons a acts ih =>
    rw [List.foldlM_cons] at h
    cases hmid : next s a with
    | error err => simp [hmid, bind, Except.bind] at h
    | ok mid =>
      rw [hmid] at h
      exact ih (hnext s a mid hs hmid) h

theorem run_of_foldlM [∀ s a, Decidable (allowed s a)] {e : ε}
    (hrun : Run (ofNext init next) allowed s) (h : acts.foldlM (guarded next allowed e) s = .ok s') :
    Run (ofNext init next) allowed s' := by
  refine foldlM_invariant (fun s a s' hs hnext ↦ ?_) hrun h
  unfold guarded at hnext
  split_ifs at hnext with hallowed
  exact .step hs hallowed hnext

theorem trace_of_foldlM [∀ s a, Decidable (allowed s a)] {e : ε}
    (h : acts.foldlM (guarded next allowed e) s = .ok s') : Trace (ofNext init next) allowed s acts s' := by
  induction acts generalizing s with
  | nil =>
    cases h
    exact .nil
  | cons a acts ih =>
    rw [List.foldlM_cons] at h
    cases hmid : guarded next allowed e s a with
    | error err => simp [hmid, bind, Except.bind] at h
    | ok mid =>
      rw [hmid] at h
      unfold guarded at hmid
      split_ifs at hmid with hallowed
      exact .cons hallowed hmid (ih h)

theorem reachable_of_foldlM (hreach : (ofNext init next).Reachable s) (h : acts.foldlM next s = .ok s') :
    (ofNext init next).Reachable s' :=
  foldlM_invariant (fun _ _ _ hs hnext ↦ .step hs trivial hnext) hreach h

end Computed

end System

end Lanthorn.Library
