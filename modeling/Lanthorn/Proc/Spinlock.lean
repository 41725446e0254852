import Lanthorn.Library.Cyclic
import Lanthorn.Library.Run
import Mathlib.Data.Fintype.Card

/-!
# The ticket lock

`spin_lock` and `spin_unlock` of `spinlock.h`, for any number of contexts that take and release one lock. The steps
are the atomic operations on `ticket_get` and `ticket_now` and the stores to `owner`, and the counters are of 32
bits and wrap around. `spin_lock_irqsave` and `spin_unlock_irqrestore` take the same steps on the lock.

A context that has drawn a ticket stands in a queue until it is through with the lock. `Spinlock.Inv` says that the
tickets of the queue are those from `ticket_now` on, and that only the first of the queue has the lock. As there
are fewer than `2 ^ 32` contexts, no ticket is in the queue twice: `Spinlock.spinlock_contract`.
`Spinlock.spinning_served` bounds the wait of a context that spins, in every run.
-/

set_option linter.unusedSectionVars false

namespace Lanthorn

open Function Library List

/-- Where a context stands in `spin_lock` and `spin_unlock`, and its ticket. -/
inductive SpinPoint
  /-- Before `spin_lock`. -/
  | idle
  /-- In the loop of `spin_lock`. -/
  | spinning (ticket : BitVec 32)
  /-- After the loop, before the store to `owner`. -/
  | entering (ticket : BitVec 32)
  /-- Between the end of `spin_lock` and the increment in `spin_unlock`. -/
  | locked (ticket : BitVec 32)
  /-- After the increment, before the store to `owner`. -/
  | leaving
  deriving DecidableEq, Repr

namespace SpinPoint

def ticket : SpinPoint → Option (BitVec 32)
  | .spinning t | .entering t | .locked t => some t
  | _ => none

/-- Whether the loop of `spin_lock` is over and the lock not yet given on. -/
def hasLock : SpinPoint → Bool
  | .entering _ | .locked _ => true
  | _ => false

/-- The steps that a context takes until it has given the lock on, when it is its turn. -/
def left : SpinPoint → ℕ
  | .spinning _ => 3
  | .entering _ => 2
  | .locked _ => 1
  | _ => 0

end SpinPoint

structure Spinlock (ι : Type) where
  ticketGet : BitVec 32
  ticketNow : BitVec 32
  owner : Option ι
  point : ι → SpinPoint
  /-- The contexts that have drawn a ticket, in this order. -/
  drawn : List ι
  /-- The contexts that have been given the lock, in this order, with their tickets. -/
  granted : List (ι × BitVec 32)

namespace Spinlock

variable {ι : Type} [DecidableEq ι]

def goto (s : Spinlock ι) (now : ι) (p : SpinPoint) : Spinlock ι :=
  { s with point := update s.point now p }

/-- `spin_init`, before any context uses the lock. -/
def spinInit : Spinlock ι where
  ticketGet := 0
  ticketNow := 0
  owner := none
  point _ := .idle
  drawn := []
  granted := []

/-- `atomic_add_return(&spinlock->ticket_get, 1) - 1`. -/
def draw (s : Spinlock ι) (now : ι) : Spinlock ι :=
  let get := s.ticketGet + 1
  { s with ticketGet := get, drawn := s.drawn ++ [now] }.goto now (.spinning (get - 1))

def test (s : Spinlock ι) (now : ι) (ticket : BitVec 32) : Spinlock ι :=
  if s.ticketNow ≠ ticket then s
  else { s with granted := s.granted ++ [(now, ticket)] }.goto now (.entering ticket)

def next (s : Spinlock ι) (now : ι) : Spinlock ι :=
  match s.point now with
  | .idle => s.draw now
  | .spinning ticket => s.test now ticket
  | .entering ticket => { s with owner := some now }.goto now (.locked ticket)
  | .locked _ => { s with ticketNow := s.ticketNow + 1 }.goto now .leaving
  | .leaving => { s with owner := none }.goto now .idle

def system : System (Spinlock ι) ι where
  init s := s = spinInit
  step s now s' := s' = s.next now

/-- Mutual exclusion, the tickets that are out, and the order of the grants. -/
structure Contract (s : Spinlock ι) : Prop where
  /-- At most one context has the lock. -/
  exclusive : ∀ i j, (s.point i).hasLock → (s.point j).hasLock → i = j
  /-- No two contexts have the same ticket. -/
  distinct : ∀ i j t, (s.point i).ticket = some t → (s.point j).ticket = some t → i = j
  /-- The tickets that are out are those from `ticket_now` to `ticket_get - 1`. -/
  interval : ∀ t, (∃ i, (s.point i).ticket = some t) ↔ (t - s.ticketNow).toNat < (s.ticketGet - s.ticketNow).toNat
  /-- The lock is given to the contexts in the order in which they have drawn their tickets. -/
  order : s.granted.map Prod.fst <+: s.drawn
  /-- The lock is given to one ticket after the other. -/
  served : s.granted.map Prod.snd = List.iterate (· + 1) 0 s.granted.length

/-! ### The queue -/

/-- The contexts that have drawn a ticket and are not through with the lock, in the order of their tickets. -/
structure Inv (s : Spinlock ι) (queue : List ι) : Prop where
  nodup : queue.Nodup
  mem : ∀ i t, (s.point i).ticket = some t → i ∈ queue
  tickets : queue.map (fun i ↦ (s.point i).ticket) = (List.iterate (· + 1) s.ticketNow queue.length).map some
  get : s.ticketGet = (· + 1)^[queue.length] s.ticketNow
  /-- A context that has the lock is the first of the queue. -/
  first : ∀ i, (s.point i).hasLock → queue.head? = some i
  /-- The contexts that are through with the lock, then who is in the queue and who has the lock. -/
  logs : ∃ past, s.drawn = past ++ queue ∧ s.ticketNow = (· + 1)^[past.length] 0 ∧
    s.granted.map Prod.fst = past ++ queue.filter fun i ↦ (s.point i).hasLock
  served : s.granted.map Prod.snd = List.iterate (· + 1) 0 s.granted.length

section Steps

variable {s : Spinlock ι} {queue : List ι} {now : ι}

theorem goto_of_ne {i : ι} (p : SpinPoint) (hi : i ≠ now) : (s.goto now p).point i = s.point i :=
  update_of_ne hi _ _

theorem goto_self (p : SpinPoint) : (s.goto now p).point now = p := update_self _ _ _

theorem Inv.draw (h : Inv s queue) (hpoint : s.point now = .idle) : Inv (s.draw now) (queue ++ [now]) := by
  have hnew : now ∉ queue := fun hmem ↦ by grind [mem_map_of_mem, h.tickets, SpinPoint.ticket]
  have hother : ∀ i ∈ queue, (s.draw now).point i = s.point i := fun i hi ↦
    goto_of_ne _ fun heq ↦ hnew (heq ▸ hi)
  have hself : (s.draw now).point now = .spinning s.ticketGet := by
    rw [Spinlock.draw, goto_self, BitVec.add_sub_cancel]
  refine ⟨?_, fun i t hi ↦ ?_, ?_, ?_, fun i hi ↦ ?_, ?_, h.served⟩
  · simpa [List.nodup_append] using ⟨h.nodup, fun i hi heq ↦ hnew (heq ▸ hi)⟩
  · grind [Spinlock.draw, goto_of_ne, h.mem]
  · rw [map_append, length_append, length_singleton, iterate_succ_append, map_append,
      map_congr_left fun i hi ↦ congrArg SpinPoint.ticket (hother i hi), map_singleton, hself]
    exact congrArg₂ _ h.tickets (by simp [SpinPoint.ticket, h.get, Spinlock.draw, goto])
  · rw [length_append, length_singleton, iterate_succ_apply']
    exact congrArg (· + 1) h.get
  · have hne : i ≠ now := by
      rintro rfl
      simp [hself, SpinPoint.hasLock] at hi
    rw [Spinlock.draw, goto_of_ne _ hne] at hi
    rw [List.head?_append, h.first i hi]
    rfl
  · obtain ⟨past, hdrawn, hnow, hgranted⟩ := h.logs
    refine ⟨past, ?_, hnow, ?_⟩
    · rw [← append_assoc, ← hdrawn]
      rfl
    · rw [filter_append, filter_congr fun i hi ↦ by rw [hother i hi], filter_singleton, hself]
      exact hgranted.trans (by simp [SpinPoint.hasLock])

theorem Inv.head_of_ticket (h : Inv s queue) (hlen : queue.length ≤ 2 ^ 32)
    (hticket : (s.point now).ticket = some s.ticketNow) : ∃ rest, queue = now :: rest := by
  have hnow := h.mem now _ hticket
  cases queue with
  | nil => simp at hnow
  | cons i rest =>
    have htickets := h.tickets
    rw [length_cons, List.iterate, map_cons, map_cons] at htickets
    obtain ⟨-, hrest⟩ := List.cons.inj htickets
    have hnodup := nodup_iterate_bitVec s.ticketNow hlen
    grind [List.iterate, mem_map_of_injective]

theorem Inv.quiet {s' : Spinlock ι} (h : Inv s queue) (hget : s'.ticketGet = s.ticketGet)
    (hnow : s'.ticketNow = s.ticketNow) (hdrawn : s'.drawn = s.drawn) (hgranted : s'.granted = s.granted)
    (hpoint : ∀ i, (s'.point i).ticket = (s.point i).ticket ∧ (s'.point i).hasLock = (s.point i).hasLock) :
    Inv s' queue := by
  refine ⟨h.nodup, fun i t hi ↦ h.mem i t ((hpoint i).1 ▸ hi), ?_, ?_,
    fun i hi ↦ h.first i ((hpoint i).2 ▸ hi), ?_, ?_⟩
  all_goals grind [h.tickets, h.get, h.logs, h.served]

theorem Inv.grant (h : Inv s queue) (hlen : queue.length ≤ 2 ^ 32) (hpoint : s.point now = .spinning s.ticketNow) :
    Inv ({ s with granted := s.granted ++ [(now, s.ticketNow)] }.goto now (.entering s.ticketNow)) queue := by
  obtain ⟨rest, rfl⟩ := h.head_of_ticket hlen (by rw [hpoint]; rfl)
  have hnone : ∀ i, (s.point i).hasLock = false := fun i ↦ by
    by_contra hlock
    obtain rfl : now = i := Option.some_inj.mp (h.first i (by simpa using hlock))
    simp [hpoint, SpinPoint.hasLock] at hlock
  set s' := { s with granted := s.granted ++ [(now, s.ticketNow)] }.goto now (.entering s.ticketNow) with hs'
  have hself : s'.point now = .entering s.ticketNow := goto_self _
  have hother : ∀ i, i ≠ now → s'.point i = s.point i := fun i hi ↦ goto_of_ne _ hi
  have hticket : ∀ i, (s'.point i).ticket = (s.point i).ticket := fun i ↦ by
    by_cases hi : i = now
    · rw [hi, hself, hpoint]
      rfl
    · rw [hother i hi]
  obtain ⟨past, hdrawn, hnow, hgranted⟩ := h.logs
  have hpast : s.granted.map Prod.fst = past := by simpa [hnone] using hgranted
  refine ⟨h.nodup, fun i t hi ↦ h.mem i t (hticket i ▸ hi), ?_, h.get, fun i hi ↦ ?_, ⟨past, hdrawn, hnow, ?_⟩, ?_⟩
  · rw [map_congr_left fun i _ ↦ hticket i]
    exact h.tickets
  · by_cases heq : i = now
    · rw [heq, List.head?_cons]
    · rw [hother i heq, hnone i] at hi
      simp at hi
  · have hrest : rest.filter (fun i ↦ (s'.point i).hasLock) = [] := by
      refine List.filter_eq_nil_iff.mpr fun i hi ↦ ?_
      rw [hother i fun heq ↦ (List.nodup_cons.mp h.nodup).1 (heq ▸ hi), hnone i]
      simp
    rw [filter_cons_of_pos (by simp [hself, SpinPoint.hasLock]), hrest, ← hpast]
    exact map_append
  · have hlength : s.granted.length = past.length := by rw [← hpast, length_map]
    have hserved : (s.granted ++ [(now, s.ticketNow)]).map Prod.snd =
        List.iterate (· + 1) 0 (s.granted ++ [(now, s.ticketNow)]).length := by
      rw [map_append, length_append, length_singleton, iterate_succ_append, h.served, hlength, ← hnow]
      rfl
    exact hserved

theorem Inv.release {t : BitVec 32} (h : Inv s queue) (hpoint : s.point now = .locked t) :
    ∃ rest, queue = now :: rest ∧ Inv ({ s with ticketNow := s.ticketNow + 1 }.goto now .leaving) rest := by
  have hlock : (s.point now).hasLock := by simp [hpoint, SpinPoint.hasLock]
  obtain ⟨rest, rfl⟩ := List.head?_eq_some_iff.mp (h.first now hlock)
  obtain ⟨hnew, hnodup⟩ := List.nodup_cons.mp h.nodup
  set s' := { s with ticketNow := s.ticketNow + 1 }.goto now .leaving with hs'
  have hself : s'.point now = .leaving := goto_self _
  have hother : ∀ i, i ≠ now → s'.point i = s.point i := fun i hi ↦ goto_of_ne _ hi
  have hrest : ∀ i ∈ rest, s'.point i = s.point i := fun i hi ↦ hother i fun heq ↦ hnew (heq ▸ hi)
  have hnone : ∀ i, (s'.point i).hasLock = false := fun i ↦ by
    by_contra hi
    by_cases heq : i = now
    · simp [heq, hself, SpinPoint.hasLock] at hi
    · rw [hother i heq] at hi
      exact heq (Option.some_inj.mp ((h.first i (by simpa using hi)).symm.trans List.head?_cons))
  refine ⟨rest, rfl, hnodup, fun i t' hi ↦ ?_, ?_, ?_, fun i hi ↦ ?_, ?_, h.served⟩
  · grind [SpinPoint.ticket, h.mem]
  · rw [map_congr_left fun i hi ↦ congrArg SpinPoint.ticket (hrest i hi)]
    have htickets := h.tickets
    rw [length_cons, List.iterate, map_cons, map_cons] at htickets
    exact (List.cons.inj htickets).2
  · exact h.get
  · simp [hnone i] at hi
  · obtain ⟨past, hdrawn, hnow, hgranted⟩ := h.logs
    refine ⟨past ++ [now], hdrawn.trans (by simp), ?_, ?_⟩
    · rw [length_append, length_singleton, iterate_succ_apply', ← hnow]
      rfl
    · rw [filter_congr fun i hi ↦ by rw [hrest i hi], append_assoc, singleton_append]
      exact hgranted.trans (by simp [hlock])

/-- The owner and the store that ends `spin_unlock` are no part of the queue. -/
theorem Inv.store {o : Option ι} {p : SpinPoint} (h : Inv s queue) (hticket : p.ticket = (s.point now).ticket)
    (hlock : p.hasLock = (s.point now).hasLock) : Inv ({ s with owner := o }.goto now p) queue := by
  refine h.quiet rfl rfl rfl rfl fun i ↦ ?_
  by_cases hi : i = now
  · rw [hi, goto_self, hticket, hlock]
    exact ⟨rfl, rfl⟩
  · rw [goto_of_ne _ hi]
    exact ⟨rfl, rfl⟩

/-- A step of a context whose turn it is not: it may join the queue. -/
theorem Inv.next_other (h : Inv s queue) (hlen : queue.length ≤ 2 ^ 32) (hnow : queue.head? ≠ some now) :
    ∃ extra, Inv (s.next now) (queue ++ extra) ∧ (∀ j ∈ queue, (s.next now).point j = s.point j) ∧
      (s.next now).granted = s.granted := by
  have houtside : (s.point now).ticket = none → ∀ j ∈ queue, j ≠ now := by
    rintro hnone j hj rfl
    have hmem := mem_map_of_mem (f := fun j ↦ (s.point j).ticket) hj
    rw [h.tickets, hnone] at hmem
    simp at hmem
  cases hpoint : s.point now with
  | idle =>
    have hnext : s.next now = s.draw now := by rw [next, hpoint]
    rw [hnext]
    exact ⟨[now], h.draw hpoint, fun j hj ↦ goto_of_ne _ (houtside (by rw [hpoint]; rfl) j hj), rfl⟩
  | spinning ticket =>
    have hne : s.ticketNow ≠ ticket := by
      rintro rfl
      obtain ⟨rest, rfl⟩ := h.head_of_ticket hlen (by rw [hpoint]; rfl)
      exact hnow rfl
    have hnext : s.next now = s := by simp [next, hpoint, test, hne]
    rw [hnext]
    exact ⟨[], by rwa [append_nil], fun _ _ ↦ rfl, rfl⟩
  | entering ticket | locked ticket => exact absurd (h.first now (by simp [hpoint, SpinPoint.hasLock])) hnow
  | leaving =>
    have hnext : s.next now = { s with owner := none }.goto now .idle := by rw [next, hpoint]
    rw [hnext, ← append_nil queue] at *
    exact ⟨[], (append_nil queue).symm ▸ h.store (by rw [hpoint]; rfl) (by rw [hpoint]; rfl),
      fun j hj ↦ goto_of_ne _ (houtside (by rw [hpoint]; rfl) j hj), rfl⟩

/-- The steps of the first of the queue: it gets the lock, becomes its owner and gives it on. -/
inductive HeadStep (s : Spinlock ι) (now : ι) (rest : List ι) : Prop
  | grants (hpoint : s.point now = .spinning s.ticketNow) (hpoint' : (s.next now).point now = .entering s.ticketNow)
    (hinv : Inv (s.next now) (now :: rest)) (hgranted : (s.next now).granted.length = s.granted.length + 1)
  | enters (ticket : BitVec 32) (hpoint : s.point now = .entering ticket)
    (hpoint' : (s.next now).point now = .locked ticket) (hinv : Inv (s.next now) (now :: rest))
    (hgranted : (s.next now).granted = s.granted)
  | leaves (ticket : BitVec 32) (hpoint : s.point now = .locked ticket) (hinv : Inv (s.next now) rest)
    (hgranted : (s.next now).granted = s.granted)

theorem Inv.next_head {rest : List ι} (h : Inv s (now :: rest)) (hlen : (now :: rest).length ≤ 2 ^ 32) :
    HeadStep s now rest := by
  have hticket : (s.point now).ticket = some s.ticketNow := by
    have htickets := h.tickets
    rw [length_cons, List.iterate, map_cons, map_cons] at htickets
    exact (List.cons.inj htickets).1
  cases hpoint : s.point now with
  | idle | leaving => simp [hpoint, SpinPoint.ticket] at hticket
  | spinning ticket =>
    obtain rfl : ticket = s.ticketNow := by simpa [hpoint, SpinPoint.ticket] using hticket
    have hnext : s.next now =
        { s with granted := s.granted ++ [(now, s.ticketNow)] }.goto now (.entering s.ticketNow) := by
      simp [next, hpoint, test]
    exact .grants hpoint (by rw [hnext, goto_self]) (hnext ▸ h.grant hlen hpoint) (by simp [hnext, goto])
  | entering ticket =>
    have hnext : s.next now = { s with owner := some now }.goto now (.locked ticket) := by rw [next, hpoint]
    exact .enters ticket hpoint (by rw [hnext, goto_self])
      (hnext ▸ h.store (by rw [hpoint]; rfl) (by rw [hpoint]; rfl)) (by rw [hnext]; rfl)
  | locked ticket =>
    have hnext : s.next now = { s with ticketNow := s.ticketNow + 1 }.goto now .leaving := by rw [next, hpoint]
    obtain ⟨rest', hqueue, hinv⟩ := h.release hpoint
    obtain rfl : rest = rest' := (List.cons.inj hqueue).2
    exact .leaves ticket hpoint (hnext ▸ hinv) (by rw [hnext]; rfl)

theorem next_of_ne {j : ι} (hj : j ≠ now) : (s.next now).point j = s.point j := by
  unfold next
  split
  all_goals first | exact goto_of_ne _ hj | skip
  unfold test
  split_ifs
  · rfl
  · exact goto_of_ne _ hj

variable [Fintype ι] {s' : Spinlock ι}

theorem Inv.length_lt (h : Inv s queue) (hcard : Fintype.card ι < 2 ^ 32) : queue.length < 2 ^ 32 :=
  h.nodup.length_le_card.trans_lt hcard

theorem inv_step (hcard : Fintype.card ι < 2 ^ 32) (h : ∃ queue, Inv s queue) (hstep : system.step s now s') :
    ∃ queue, Inv s' queue := by
  obtain ⟨queue, h⟩ := h
  have hlen := (h.length_lt hcard).le
  obtain rfl : s' = s.next now := hstep
  by_cases hnow : queue.head? = some now
  · obtain ⟨rest, rfl⟩ := List.head?_eq_some_iff.mp hnow
    obtain ⟨-, -, hinv, -⟩ | ⟨-, -, -, hinv, -⟩ | ⟨-, -, hinv, -⟩ := h.next_head hlen
    all_goals exact ⟨_, hinv⟩
  · obtain ⟨extra, hinv, -⟩ := h.next_other hlen hnow
    exact ⟨_, hinv⟩

theorem inv_spinInit : Inv (spinInit : Spinlock ι) [] :=
  ⟨.nil, by simp [spinInit, SpinPoint.ticket], rfl, rfl, by simp [spinInit, SpinPoint.hasLock], ⟨[], rfl, rfl, rfl⟩,
    rfl⟩

theorem Inv.contract (h : Inv s queue) (hcard : Fintype.card ι < 2 ^ 32) : s.Contract := by
  have hlen := h.length_lt hcard
  have hget : (s.ticketGet - s.ticketNow).toNat = queue.length := by rw [h.get, toNat_iterate_sub _ hlen]
  have htickets : (queue.map fun i ↦ (s.point i).ticket).Nodup := by
    rw [h.tickets]
    exact (nodup_iterate_bitVec _ hlen.le).map (Option.some_injective _)
  refine ⟨fun i j hi hj ↦ ?_, fun i j t hi hj ↦ ?_, fun t ↦ ?_, ?_, h.served⟩
  · exact Option.some_inj.mp ((h.first i hi).symm.trans (h.first j hj))
  · exact inj_on_of_nodup_map htickets (h.mem i t hi) (h.mem j t hj) (hi.trans hj.symm)
  · rw [hget, ← mem_iterate_bitVec hlen.le, ← mem_map_of_injective (Option.some_injective _), ← h.tickets, mem_map]
    grind [h.mem]
  · obtain ⟨past, hdrawn, -, hgranted⟩ := h.logs
    cases queue with
    | nil => exact ⟨[], by simp [hdrawn, hgranted]⟩
    | cons i rest =>
      have hrest : rest.filter (fun i ↦ (s.point i).hasLock) = [] := by
        refine List.filter_eq_nil_iff.mpr fun j hj hlock ↦ ?_
        obtain rfl : i = j := Option.some_inj.mp (h.first j hlock)
        exact (List.nodup_cons.mp h.nodup).1 hj
      cases hi : (s.point i).hasLock with
      | true => exact ⟨rest, by simp [hdrawn, hgranted, hi, hrest]⟩
      | false => exact ⟨i :: rest, by simp [hdrawn, hgranted, hi, hrest]⟩

theorem inv_of_reachable (hcard : Fintype.card ι < 2 ^ 32) (h : system.Reachable s) : ∃ queue, Inv s queue := by
  refine h.invariant (P := fun s ↦ ∃ queue, Inv s queue) (fun s hs ↦ ?_) fun s i s' hinv hstep ↦
    inv_step hcard hinv hstep
  obtain rfl : s = spinInit := hs
  exact ⟨[], inv_spinInit⟩

/-- Fewer than `2 ^ 32` contexts take and release the lock, in any interleaving and for any number of times. -/
theorem spinlock_contract (hcard : Fintype.card ι < 2 ^ 32) (h : system.Reachable s) : s.Contract := by
  obtain ⟨queue, hinv⟩ := inv_of_reachable hcard h
  exact hinv.contract hcard

end Steps

/-- Two contexts: the second draws its ticket while the first has the lock, and is given it after the first. -/
theorem spinlock_contract_example : ∃ s : Spinlock Bool, s.granted = [(false, 0), (true, 1)] ∧
    s.point true = .entering 1 ∧ s.Contract := by
  have hreach : system.Reachable ([false, false, false, true, true, false, true].foldl next
      (spinInit : Spinlock Bool)) := by refine List.foldlRecOn _ next (.init rfl) fun s hs i _ ↦ hs.step trivial rfl
  exact ⟨_, rfl, rfl, spinlock_contract (by decide) hreach⟩

/-! ### Waiting contexts -/

/-- A context spins behind the contexts `front`. -/
structure Waits (s : Spinlock ι) (i : ι) (t : BitVec 32) (front : List ι) : Prop where
  queue : ∃ back, Inv s (front ++ i :: back)
  spins : s.point i = .spinning t

/-- The steps that contexts take until they all have given the lock on, one after the other. -/
def work (s : Spinlock ι) (front : List ι) : ℕ := (front.map fun j ↦ (s.point j).left).sum

/-- The grants so far, and those to come of the contexts. -/
def grants (s : Spinlock ι) (front : List ι) : ℕ :=
  s.granted.length + (front.filter fun j ↦ ¬ (s.point j).hasLock).length

section Waiting

variable {s s' : Spinlock ι} {front : List ι} {i now : ι} {t : BitVec 32}

theorem work_congr (h : ∀ j ∈ front, s'.point j = s.point j) : s'.work front = s.work front :=
  congrArg List.sum (map_congr_left fun j hj ↦ congrArg SpinPoint.left (h j hj))

theorem filter_congr_point (h : ∀ j ∈ front, s'.point j = s.point j) :
    (front.filter fun j ↦ ¬ (s'.point j).hasLock) = front.filter fun j ↦ ¬ (s.point j).hasLock :=
  filter_congr fun j hj ↦ by rw [h j hj]

theorem work_le (s : Spinlock ι) (front : List ι) : s.work front ≤ 3 * front.length := by
  induction front with
  | nil => simp [work]
  | cons j rest ih =>
    have hleft : (s.point j).left ≤ 3 := by cases s.point j <;> simp [SpinPoint.left]
    simp only [work, map_cons, sum_cons, length_cons] at ih ⊢
    omega

/-- There are as many contexts in front as tickets before the own one. -/
theorem Inv.front_length {back : List ι} (h : Inv s (front ++ i :: back)) (hi : s.point i = .spinning t)
    (hlen : (front ++ i :: back).length < 2 ^ 32) : (t - s.ticketNow).toNat = front.length := by
  have hfront : front.length < (front ++ i :: back).length := by simp
  have hticket := congrArg (fun l ↦ l[front.length]?) h.tickets
  simp only [List.getElem?_map, List.getElem?_iterate _ _ _ _ hfront, List.getElem?_append_right le_rfl,
    Nat.sub_self,
    List.getElem?_cons_zero, Option.map_some, hi, SpinPoint.ticket, Option.some.injEq] at hticket
  rw [hticket, toNat_iterate_sub _ (hfront.trans hlen)]

variable [Fintype ι]

section

variable (h : Waits s i t front) (hcard : Fintype.card ι < 2 ^ 32)
include h hcard

/-- A step while a context waits: it gets the lock, or it goes on waiting, and a step of the first of the queue
brings it forward. -/
theorem Waits.next (now : ι) :
    (s.next now).point i = .entering t ∨ ∃ front', Waits (s.next now) i t front' ∧ front' <:+ front ∧
      (s.next now).grants front' = s.grants front ∧
      ((front ++ [i]).head? ≠ some now ∧ front' = front ∧ (s.next now).work front = s.work front ∨
        (s.next now).work front' < s.work front) := by
  obtain ⟨back, hinv⟩ := h.queue
  have hlen := (hinv.length_lt hcard).le
  have hhead : (front ++ i :: back).head? = (front ++ [i]).head? := by cases front <;> rfl
  by_cases hnow : (front ++ i :: back).head? = some now
  · cases front with
    | nil =>
      obtain rfl : i = now := by simpa using hnow
      obtain ⟨hpoint, hpoint', -⟩ | ⟨ticket, hpoint, -⟩ | ⟨ticket, hpoint, -⟩ := hinv.next_head hlen
      · obtain rfl : t = s.ticketNow := by simpa [h.spins] using hpoint
        exact .inl hpoint'
      all_goals simp [h.spins] at hpoint
    | cons j rest =>
      obtain rfl : j = now := by simpa using hnow
      have hne : ∀ k ∈ rest ++ [i], (s.next j).point k = s.point k := fun k hk ↦ by
        have hnodup := hinv.nodup
        exact next_of_ne (by grind)
      have hrest : ∀ k ∈ rest, (s.next j).point k = s.point k := fun k hk ↦ hne k (mem_append_left _ hk)
      have hspins : (s.next j).point i = .spinning t := (hne i (by simp)).trans h.spins
      have hwork : ∀ s : Spinlock ι, s.work (j :: rest) = (s.point j).left + s.work rest := fun s ↦ sum_cons
      have hgrants : ∀ s : Spinlock ι, s.grants (j :: rest) =
          s.grants rest + if (s.point j).hasLock then 0 else 1 := fun s ↦ by
        cases hlock : (s.point j).hasLock <;> simp [grants, hlock, Nat.add_assoc]
      have hfilter := congrArg List.length (filter_congr_point hrest)
      obtain ⟨hpoint, hpoint', hinv', hgranted⟩ | ⟨ticket, hpoint, hpoint', hinv', hgranted⟩ |
        ⟨ticket, hpoint, hinv', hgranted⟩ := hinv.next_head hlen
      · refine .inr ⟨j :: rest, ⟨⟨back, hinv'⟩, hspins⟩, suffix_refl _, ?_, .inr ?_⟩
        · rw [hgrants, hgrants, hpoint, hpoint', grants, grants, hfilter, hgranted]
          simp [SpinPoint.hasLock, Nat.add_right_comm]
        · rw [hwork, hwork, hpoint, hpoint', work_congr hrest]
          exact Nat.add_lt_add_right (Nat.lt_succ_self _) _
      · refine .inr ⟨j :: rest, ⟨⟨back, hinv'⟩, hspins⟩, suffix_refl _, ?_, .inr ?_⟩
        · rw [hgrants, hgrants, hpoint, hpoint', grants, grants, hfilter, hgranted]
          rfl
        · rw [hwork, hwork, hpoint, hpoint', work_congr hrest]
          exact Nat.add_lt_add_right (Nat.lt_succ_self _) _
      · refine .inr ⟨rest, ⟨⟨back, hinv'⟩, hspins⟩, suffix_cons _ _, ?_, .inr ?_⟩
        · rw [hgrants, hpoint, grants, grants, hfilter, hgranted]
          rfl
        · rw [hwork, hpoint, work_congr hrest]
          exact Nat.lt_add_of_pos_left Nat.one_pos
  · obtain ⟨extra, hinv', hpoints, hgranted⟩ := hinv.next_other hlen hnow
    have hfront : ∀ j ∈ front, (s.next now).point j = s.point j := fun j hj ↦ hpoints j (by simp [hj])
    rw [append_assoc] at hinv'
    refine .inr ⟨front, ⟨⟨back ++ extra, hinv'⟩, (hpoints i (by simp)).trans h.spins⟩, suffix_refl _, ?_,
      .inl ⟨hhead ▸ hnow, rfl, work_congr hfront⟩⟩
    rw [grants, grants, hgranted, filter_congr_point hfront]

/-- A run while a context waits; if the first of the queue takes a step in it, the context comes forward. -/
theorem Waits.run (acts : List ι) : (∃ p, p <+: acts ∧ (p.foldl Spinlock.next s).point i = .entering t) ∨
    ∃ front', Waits (acts.foldl Spinlock.next s) i t front' ∧ front' <:+ front ∧
      (acts.foldl Spinlock.next s).grants front' = s.grants front ∧
      (acts.foldl Spinlock.next s).work front' ≤ s.work front ∧
      ((∃ j ∈ acts, (front ++ [i]).head? = some j) → (acts.foldl Spinlock.next s).work front' < s.work front) := by
  induction acts generalizing s front with
  | nil => exact .inr ⟨front, h, suffix_refl _, rfl, le_rfl, by simp⟩
  | cons now acts ih =>
    obtain hserved | ⟨front₁, h₁, hsuffix₁, hgrants₁, hwork₁⟩ := h.next hcard now
    · exact .inl ⟨[now], prefix_append [now] acts, hserved⟩
    obtain ⟨p, hp, hserved⟩ | ⟨front', h', hsuffix, hgrants, hle, hlt⟩ := ih h₁
    · exact .inl ⟨now :: p, List.cons_prefix_cons.mpr ⟨rfl, hp⟩, hserved⟩
    refine .inr ⟨front', h', hsuffix.trans hsuffix₁, hgrants.trans hgrants₁, ?_⟩
    obtain ⟨hnow, rfl, hwork₁⟩ | hwork₁ := hwork₁
    · refine ⟨hle.trans hwork₁.le, ?_⟩
      rintro ⟨j, hj, hhead⟩
      obtain rfl | hj := List.mem_cons.mp hj
      · exact absurd hhead hnow
      · exact (hlt ⟨j, hj, hhead⟩).trans_le hwork₁.le
    · exact ⟨hle.trans hwork₁.le, fun _ ↦ hle.trans_lt hwork₁⟩

/-- Rounds in which every context of the queue takes a step: there are no more of them than work is left. -/
theorem Waits.rounds (rounds : List (List ι)) (hrounds : ∀ r ∈ rounds, ∀ j ∈ front ++ [i], j ∈ r)
    (hwork : s.work front < rounds.length) :
    ∃ p, p <+: rounds.flatten ∧ (p.foldl Spinlock.next s).point i = .entering t := by
  induction rounds generalizing s front with
  | nil => simp at hwork
  | cons r rounds ih =>
    rw [flatten_cons]
    obtain ⟨p, hp, hserved⟩ | ⟨front', h', hsuffix, -, -, hlt⟩ := h.run hcard r
    · exact ⟨p, hp.trans (prefix_append _ _), hserved⟩
    have hless := hlt ⟨(front ++ [i]).head (by simp), hrounds r mem_cons_self _ (head_mem _),
      List.head?_eq_some_head _⟩
    rw [length_cons] at hwork
    have hqueue : ∀ j ∈ front' ++ [i], j ∈ front ++ [i] := fun j hj ↦
      List.mem_append.mpr ((List.mem_append.mp hj).imp_left fun hj ↦ hsuffix.subset hj)
    obtain ⟨p, hp, hserved⟩ :=
      ih h' (fun r' hr' j hj ↦ hrounds r' (mem_cons_of_mem _ hr') j (hqueue j hj)) (by omega)
    exact ⟨r ++ p, (prefix_append_right_inj r).mpr hp, by rwa [foldl_append]⟩

end

/-- Bounded waiting, in every run from a reachable state in which a context spins. Until the context gets the lock it
goes on spinning, and the lock is given to others at most as often as there are tickets before its own. It gets the
lock in the course of any rounds in which every context with a ticket takes a step or more: three rounds for each
ticket before its own, and one more.

Assumes: fewer than `2 ^ 32` contexts. -/
theorem spinning_served (hcard : Fintype.card ι < 2 ^ 32) (h : system.Reachable s) (hi : s.point i = .spinning t) :
    (∀ acts : List ι, (∃ p, p <+: acts ∧ (p.foldl next s).point i = .entering t) ∨
      (acts.foldl next s).point i = .spinning t ∧
        (acts.foldl next s).granted.length ≤ s.granted.length + (t - s.ticketNow).toNat) ∧
    ∀ rounds : List (List ι), (∀ r ∈ rounds, ∀ j, (s.point j).ticket ≠ none → j ∈ r) →
      3 * (t - s.ticketNow).toNat < rounds.length →
      ∃ p, p <+: rounds.flatten ∧ (p.foldl next s).point i = .entering t := by
  obtain ⟨queue, hinv⟩ := inv_of_reachable hcard h
  obtain ⟨front, back, rfl⟩ := append_of_mem (hinv.mem i t (by rw [hi]; rfl))
  have hlength := hinv.front_length hi (hinv.length_lt hcard)
  have hwaits : Waits s i t front := ⟨⟨back, hinv⟩, hi⟩
  refine ⟨fun acts ↦ ?_, fun rounds hrounds hlt ↦ ?_⟩
  · refine (hwaits.run hcard acts).imp_right ?_
    rintro ⟨front', hwaits', -, hgrants, -⟩
    have hfilter := length_filter_le (fun j ↦ ¬ (s.point j).hasLock) front
    rw [grants, grants] at hgrants
    exact ⟨hwaits'.spins, by omega⟩
  · refine hwaits.rounds hcard rounds (fun r hr j hj ↦ hrounds r hr j ?_)
      ((s.work_le front).trans_lt (hlength ▸ hlt))
    have hmem : (s.point j).ticket ∈ (front ++ i :: back).map fun j ↦ (s.point j).ticket :=
      mem_map_of_mem (by grind)
    rw [hinv.tickets] at hmem
    obtain ⟨ticket, -, hticket⟩ := List.mem_map.mp hmem
    simp [← hticket]

end Waiting

theorem reachable_foldl {s : Spinlock ι} (h : system.Reachable s) (acts : List ι) :
    system.Reachable (acts.foldl next s) :=
  List.foldlRecOn _ next h fun _ hs _ _ ↦ hs.step trivial rfl

/-- The second context spins while the first has the lock, and gets it in four rounds. -/
theorem spinning_served_example : ∃ s : Spinlock Bool, s.point true = .spinning 1 ∧
    ∃ p, p <+: (List.replicate 4 [true, false]).flatten ∧ (p.foldl next s).point true = .entering 1 :=
  ⟨_, rfl, (spinning_served (by decide) (reachable_foldl (.init rfl) [false, false, false, true]) rfl).2 _
    (by decide) (by decide)⟩

end Spinlock

end Lanthorn
