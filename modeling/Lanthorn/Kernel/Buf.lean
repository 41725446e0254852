import Lanthorn.Kernel.Basic
import Lanthorn.Library.Cyclic
import Lanthorn.Library.Run

/-!
# `lib/buf.c`

The ring buffer of the console. `b` and `e` are the indices of the next byte to read and to write, and `freesz` is
the number of free bytes, which alone tells a full buffer from an empty one.

A buffer holds a queue of bytes (`Buf.Holds`): `buf_write` puts a byte at its end and `buf_read` takes the first one
(`bufWrite_holds`, `bufRead_holds`). `BufHistory.history_contract` is what follows for any calls one after another.
What a reader and a writer do at the same time is in `Proc.BufRace`.
-/

namespace Lanthorn

open Function Library List

/-- `buf_t` without its mutexes. -/
structure Buf (τ : Type) where
  cache : ℕ → BitVec 8
  size : ℕ
  freesz : ℕ
  b : ℕ
  e : ℕ
  /-- The thread that waits for a free byte. -/
  wblkt : Option τ
  /-- The thread that waits for a byte to read. -/
  rblkt : Option τ

namespace Buf

variable {τ : Type}

def after (s : Buf τ) (i : ℕ) : ℕ := wordAdd i 1 % s.size

/-- What `freesz--` stores. -/
def less (freesz : ℕ) : ℕ := if freesz = 0 then addressSpace - 1 else freesz - 1

/-- `buf->cache[buf->e] = c`. -/
def put (s : Buf τ) (c : BitVec 8) : Buf τ := { s with cache := update s.cache s.e c }

/-- `buf_read`: the byte and the thread that it wakes up, or nothing when the thread blocks. -/
def bufRead (s : Buf τ) : Result (Option (BitVec 8 × Option τ × Buf τ)) :=
  if s.freesz = s.size then return none
  else do
    assert (s.freesz < s.size)
    let c := s.cache s.b
    let s := { s with b := s.after s.b, freesz := wordAdd s.freesz 1 }
    return some (c, s.wblkt, { s with wblkt := none })

/-- `buf_write`: the thread that it wakes up, or nothing when the thread blocks. -/
def bufWrite (s : Buf τ) (c : BitVec 8) : Result (Option (Option τ × Buf τ)) :=
  if s.freesz = 0 then return none
  else do
    assert (0 < s.freesz)
    let s := s.put c
    let s := { s with e := s.after s.e, freesz := less s.freesz }
    return some (s.rblkt, { s with rblkt := none })

/-- `buf_init`, with what `kmalloc` returns. -/
def bufInit (s : Buf τ) (size : UInt32) (cache : Except Errno (ℕ → BitVec 8)) : Errno × Buf τ :=
  match cache with
  | .error err => (err, s)
  | .ok cache => (.ok,
      { cache := cache, size := size.toNat, freesz := size.toNat, b := 0, e := 0, wblkt := none, rblkt := none })

/-! ### The queue in a buffer -/

/-- The bytes of a queue are in the buffer, from `b` on. -/
structure Holds (s : Buf τ) (queue : List (BitVec 8)) : Prop where
  size_lt : s.size < addressSpace
  b_lt : s.b < s.size
  count : s.freesz + queue.length = s.size
  e_eq : s.e = (fun i ↦ (i + 1) % s.size)^[queue.length] s.b
  bytes : (List.iterate (fun i ↦ (i + 1) % s.size) s.b queue.length).map s.cache = queue

variable {s : Buf τ} {queue : List (BitVec 8)} {c : BitVec 8}

theorem after_of_lt (hsize : s.size < addressSpace) {i : ℕ} (hi : i < s.size) : s.after i = (i + 1) % s.size := by
  rw [after, wordAdd_of_lt (by omega)]

theorem less_of_pos {freesz : ℕ} (hpos : 0 < freesz) : less freesz = freesz - 1 := if_neg hpos.ne'

theorem Holds.e_lt (h : s.Holds queue) : s.e < s.size := by
  rw [h.e_eq]
  exact iterate_mod_lt h.b_lt _

theorem Holds.e_not_mem (h : s.Holds queue) (hfull : s.freesz ≠ 0) :
    s.e ∉ List.iterate (fun i ↦ (i + 1) % s.size) s.b queue.length := by
  have hcount := h.count
  have hnodup : (List.iterate (fun i ↦ (i + 1) % s.size) s.b (queue.length + 1)).Nodup :=
    nodup_iterate_mod h.b_lt (by omega)
  grind [iterate_succ_append, h.e_eq]

theorem bufWrite_holds (h : s.Holds queue) (hfull : s.freesz ≠ 0) (c : BitVec 8) :
    ∃ s', s.bufWrite c = .ok (some (s.rblkt, s')) ∧ s'.Holds (queue ++ [c]) ∧ s'.size = s.size ∧ s'.b = s.b ∧
      s'.wblkt = s.wblkt ∧ s'.rblkt = none := by
  have hsize := h.size_lt
  have hcount := h.count
  have hless : less s.freesz = s.freesz - 1 := less_of_pos (by omega)
  refine ⟨{ s.put c with e := s.after s.e, freesz := less s.freesz, rblkt := none }, ?_, ?_, rfl, rfl, rfl, rfl⟩
  · rw [bufWrite, if_neg hfull, assert_of_true (Nat.pos_of_ne_zero hfull)]
    rfl
  · refine ⟨hsize, h.b_lt, ?_, ?_, ?_⟩
    · rw [length_append, length_singleton]
      exact (by rw [hless]; omega : less s.freesz + (queue.length + 1) = s.size)
    · rw [length_append, length_singleton, iterate_succ_apply']
      exact (after_of_lt hsize h.e_lt).trans (congrArg (fun i ↦ (i + 1) % s.size) h.e_eq)
    · rw [length_append, length_singleton, iterate_succ_append, map_append, map_singleton]
      refine congrArg₂ _ ?_ ?_
      · refine (map_congr_left fun i hi ↦ ?_).trans h.bytes
        exact update_of_ne (fun heq : i = s.e ↦ h.e_not_mem hfull (heq ▸ hi)) _ _
      · exact congrArg (fun x ↦ [x]) ((congrArg _ h.e_eq.symm).trans (update_self _ _ _))

theorem bufRead_holds (h : s.Holds (c :: queue)) :
    ∃ s', s.bufRead = .ok (some (c, s.wblkt, s')) ∧ s'.Holds queue ∧ s'.size = s.size ∧ s'.e = s.e ∧
      s'.wblkt = none ∧ s'.rblkt = s.rblkt := by
  have hsize := h.size_lt
  have hcount := h.count
  rw [length_cons] at hcount
  have hbytes := h.bytes
  rw [length_cons, List.iterate, map_cons] at hbytes
  obtain ⟨hfirst, hrest⟩ := List.cons.inj hbytes
  have hafter := after_of_lt hsize h.b_lt
  have hmore : wordAdd s.freesz 1 = s.freesz + 1 := wordAdd_of_lt (by omega)
  refine ⟨{ s with b := s.after s.b, freesz := wordAdd s.freesz 1, wblkt := none }, ?_, ?_, rfl, rfl, rfl, rfl⟩
  · rw [bufRead, if_neg (by omega), assert_of_true (by omega), ← hfirst]
    rfl
  · refine ⟨hsize, ?_, ?_, ?_, ?_⟩
    · exact hafter ▸ Nat.mod_lt _ (by omega)
    · exact (by rw [hmore]; omega : wordAdd s.freesz 1 + queue.length = s.size)
    all_goals grind [h.e_eq, iterate_succ_apply]

theorem bufInit_holds (s : Buf τ) {size : UInt32} (hsize : 0 < size) (cache : ℕ → BitVec 8) :
    (s.bufInit size (.ok cache)).2.Holds [] := by
  refine ⟨?_, ?_, rfl, rfl, rfl⟩
  · exact size.toNat_lt
  · exact UInt32.lt_iff_toNat_lt.mp hsize

end Buf

/-! ### Calls one after another -/

/-- A buffer, and the bytes written to it and read from it. -/
structure BufHistory (τ : Type) where
  buf : Buf τ
  written : List (BitVec 8)
  read : List (BitVec 8)

inductive BufCall
  | write (c : BitVec 8)
  | read

namespace BufHistory

variable {τ : Type}

/-- A call that completes. One whose thread blocks does not: no other call is made that wakes it up. -/
def next (st : BufHistory τ) : BufCall → Result (BufHistory τ)
  | .write c => do
    let result ← st.buf.bufWrite c
    match result with
    | none => throw .endless
    | some (_, buf) => return ⟨buf, st.written ++ [c], st.read⟩
  | .read => do
    let result ← st.buf.bufRead
    match result with
    | none => throw .endless
    | some (c, _, buf) => return ⟨buf, st.written, st.read ++ [c]⟩

/-- A buffer of a size after `buf_init`, and any calls that complete. -/
def system (size : UInt32) : System (BufHistory τ) BufCall := System.ofNext
  (fun st ↦ ∃ (s : Buf τ) (cache : ℕ → BitVec 8), st = ⟨(s.bufInit size (.ok cache)).2, [], []⟩) next

/-- First in, first out, and the meaning of the members of the buffer. -/
structure Contract (size : UInt32) (st : BufHistory τ) : Prop where
  order : st.read <+: st.written
  count : st.buf.freesz + (st.written.length - st.read.length) = size.toNat
  ends : st.buf.e = (st.buf.b + size.toNat - st.buf.freesz) % size.toNat
  /-- A write completes when the buffer is not full: its assertion holds. -/
  writes : st.buf.freesz ≠ 0 → ∀ c, ∃ result, st.buf.bufWrite c = .ok (some result)
  /-- A read completes when the buffer is not empty: its assertion holds. -/
  reads : st.buf.freesz ≠ size.toNat → ∃ result, st.buf.bufRead = .ok (some result)

/-- The buffer has the bytes that have been written and not read. -/
structure Inv (size : UInt32) (st : BufHistory τ) : Prop where
  size_eq : st.buf.size = size.toNat
  holds : ∃ queue, st.written = st.read ++ queue ∧ st.buf.Holds queue

variable {size : UInt32} {st st' : BufHistory τ}

theorem inv_init (hsize : 0 < size) (h : (system size).init st) : st.Inv size := by
  obtain ⟨s, cache, rfl⟩ := h
  exact ⟨rfl, [], rfl, s.bufInit_holds hsize cache⟩

theorem inv_step {call : BufCall} (h : st.Inv size) (hstep : (system size).step st call st') : st'.Inv size := by
  obtain ⟨queue, hwritten, hholds⟩ := h.holds
  cases call with
  | write c =>
    obtain ⟨result, hrun, hret⟩ := bind_eq_ok.mp hstep
    by_cases hfull : st.buf.freesz = 0
    · rw [Buf.bufWrite, if_pos hfull] at hrun
      cases hrun
      cases hret
    · obtain ⟨s', hrun', hholds', hsize', -⟩ := Buf.bufWrite_holds hholds hfull c
      obtain rfl := Except.ok.inj (hrun'.symm.trans hrun)
      cases hret
      exact ⟨hsize'.trans h.size_eq, queue ++ [c], by simp [hwritten], hholds'⟩
  | read =>
    obtain ⟨result, hrun, hret⟩ := bind_eq_ok.mp hstep
    cases queue with
    | nil =>
      rw [Buf.bufRead, if_pos (by simpa using hholds.count)] at hrun
      cases hrun
      cases hret
    | cons c queue =>
      obtain ⟨s', hrun', hholds', hsize', -⟩ := Buf.bufRead_holds hholds
      obtain rfl := Except.ok.inj (hrun'.symm.trans hrun)
      cases hret
      exact ⟨hsize'.trans h.size_eq, queue, by simp [hwritten], hholds'⟩

theorem Inv.contract (h : st.Inv size) : st.Contract size := by
  obtain ⟨queue, hwritten, hholds⟩ := h.holds
  have hcount := hholds.count
  have hsize := h.size_eq
  refine ⟨⟨queue, hwritten.symm⟩, ?_, ?_, fun hfull c ↦ ?_, fun hempty ↦ ?_⟩
  · rw [hwritten, length_append, Nat.add_sub_cancel_left, hcount, hsize]
  · rw [hholds.e_eq, iterate_mod hholds.b_lt, ← hsize]
    congr 1
    omega
  · obtain ⟨s', hrun, -⟩ := Buf.bufWrite_holds hholds hfull c
    exact ⟨_, hrun⟩
  · cases queue with
    | nil => exact absurd (by simpa [hsize] using hcount) hempty
    | cons c queue =>
      obtain ⟨s', hrun, -⟩ := Buf.bufRead_holds hholds
      exact ⟨_, hrun⟩

/-- For every size and any calls that complete, one after another. -/
theorem history_contract (hsize : 0 < size) (h : (system size).Reachable st) : st.Contract size :=
  (h.invariant (P := Inv size) (fun _ hinit ↦ inv_init hsize hinit) fun _ _ _ hinv hstep ↦
    inv_step hinv hstep).contract

def exampleBuf : Buf ℕ :=
  (Buf.bufInit { cache := fun _ ↦ 0, size := 0, freesz := 0, b := 0, e := 0, wblkt := none, rblkt := none } 2
    (.ok fun _ ↦ 0)).2

/-- Three bytes through a buffer of two: the third is put where the first was. -/
theorem history_contract_example : ∃ st : BufHistory ℕ, st.written = [1, 2, 3] ∧ st.read = [1, 2] ∧
    st.buf.b = 0 ∧ st.buf.e = 1 ∧ st.Contract 2 := by
  have hresult : ([.write 1, .write 2, .read, .write 3, .read].foldlM next ⟨exampleBuf, [], []⟩).map (fun st ↦
      (st.written, st.read, st.buf.b, st.buf.e)) = .ok ([1, 2, 3], [1, 2], 0, 1) := by decide +kernel
  obtain ⟨st, hcalls, hview⟩ := map_eq_ok.mp hresult
  have hreach : (system 2).Reachable st := System.reachable_of_foldlM (.init ⟨_, _, rfl⟩) hcalls
  obtain ⟨hwritten, hread, hb, he⟩ : st.written = [1, 2, 3] ∧ st.read = [1, 2] ∧ st.buf.b = 0 ∧ st.buf.e = 1 := by
    simpa using hview
  exact ⟨st, hwritten, hread, hb, he, history_contract (by decide) hreach⟩

end BufHistory

end Lanthorn
