import Lanthorn.Msg.Reads

/-!
# The bounds of `msg_read`

`msg_read` as one call, on the messages with their buffers and the memory of the kernel. The test
`offset + size > msg->size` is 32-bit arithmetic. `Reads.msgRead_within_iff` says for which arguments the call
stays inside a received message: for all but those whose sum wraps to at most its size. Such a pair makes
`msg_read` copy memory of the kernel outside the message (`Reads.msgRead_beyond`: the bytes in front of it).
-/

set_option linter.unusedSectionVars false

namespace Lanthorn

open Library Msgs

namespace Reads

variable {π τ μ β : Type} [DecidableEq π] [DecidableEq τ] [DecidableEq μ] [DecidableEq β]

/-- `msg_read` by the process `p`: the answer with the bytes that are copied to the cache. -/
def msgRead (s : Reads π τ μ β) (p : π) (msgId offset size : ℕ) : Result Answer := do
  match s.msgs.msgAlct msgId with
  | none => return .fail .notfound
  | some m =>
    let msg ← s.msgs.msgOf m
    if msg.owner ≠ p then return .fail .inval
    if msg.state ≠ .recieved then return .fail .inval
    return s.answer m (.read offset size)

/-- The process has received the message, which is in the buffer. -/
structure Recieved (s : Reads π τ μ β) (p : π) (msgId : ℕ) (buf : Buffer) : Prop where
  found : ∃ m msg, s.msgs.msgAlct msgId = some m ∧ s.msgs.msg m = some msg ∧ msg.owner = p ∧
    msg.state = .recieved ∧ s.buf m = buf
  word : buf.size < 2 ^ 32
  bound : buf.addr + buf.size ≤ 2 ^ 32

def contents (s : Reads π τ μ β) (buf : Buffer) : List UInt8 := Bytes.read s.mem buf.addr buf.size

/-- `msg_read` returns `E_OK` exactly if the bytes are in the message, which it copies then; otherwise it
returns `E_INVAL` and copies nothing. -/
def ReadsWithin (s : Reads π τ μ β) (p : π) (msgId : ℕ) (buf : Buffer) (offset size : ℕ) : Prop :=
  s.msgRead p msgId offset size = .ok (if offset + size ≤ buf.size
    then .bytes (((s.contents buf).drop offset).take size) else .fail .inval)

variable {s : Reads π τ μ β} {p : π} {msgId offset size : ℕ} {buf : Buffer}

theorem Recieved.msgRead (h : s.Recieved p msgId buf) (offset size : ℕ) :
    s.msgRead p msgId offset size = .ok (if buf.size < (offset + size) % 2 ^ 32 then .fail .inval
      else .bytes ((List.range size).map fun i ↦ s.mem ((buf.addr + offset + i) % 2 ^ 32))) := by
  obtain ⟨m, msg, hid, hmsg, howner, hstate, rfl⟩ := h.found
  simp [Reads.msgRead, hid, msgOf_eq_ok.mpr hmsg, howner, hstate, answer]

theorem Recieved.copied (h : s.Recieved p msgId buf) (hle : offset + size ≤ buf.size) :
    (List.range size).map (fun i ↦ s.mem ((buf.addr + offset + i) % 2 ^ 32)) =
      ((s.contents buf).drop offset).take size := by
  have hbound := h.bound
  rw [contents, Bytes.take_drop_read hle]
  refine List.map_congr_left fun i hi ↦ ?_
  rw [List.mem_range] at hi
  rw [Nat.mod_eq_of_lt (by omega)]

/-- `msg_read` stays inside the message for all offsets and sizes but those whose sum wraps to at most the
size of the message. -/
theorem msgRead_within_iff (h : s.Recieved p msgId buf) (hoffset : offset < 2 ^ 32) (hsize : size < 2 ^ 32) :
    s.ReadsWithin p msgId buf offset size ↔ ¬ (2 ^ 32 ≤ offset + size ∧ offset + size ≤ 2 ^ 32 + buf.size) := by
  grind [h.word, ReadsWithin, h.msgRead, h.copied]

/-- A process with a message of four bytes at `0x1000`, and a byte of the kernel at `0xFF0`. -/
def exampleRecieved : Reads (Fin 2) Unit Unit Unit where
  control := ⟨{ (Mail.initial : Mail (Fin 2) Unit Unit Unit Unit) with
    msgs := ⟨fun id ↦ if id = 3 then some () else none, fun _ ↦ none,
      fun _ ↦ some ⟨3, .recieved, 1, ()⟩, fun _ ↦ none⟩ }, fun _ ↦ .idle⟩
  buf _ := ⟨0x1000, 4⟩
  allocated := [⟨0x1000, 4⟩]
  mem a := if a = 0xFF0 then 42 else 0
  log := []

theorem exampleRecieved_recieved : exampleRecieved.Recieved 1 3 ⟨0x1000, 4⟩ :=
  ⟨⟨(), _, rfl, rfl, rfl, rfl, rfl⟩, by decide, by decide⟩

/-- The last two bytes of the message. -/
theorem msgRead_within_example : exampleRecieved.ReadsWithin 1 3 ⟨0x1000, 4⟩ 2 2 :=
  (msgRead_within_iff exampleRecieved_recieved (by decide) (by decide)).mpr (by decide)

/-- An offset of minus sixteen and seventeen bytes: the copy begins with the byte of the kernel. -/
theorem msgRead_beyond : exampleRecieved.Recieved 1 3 ⟨0x1000, 4⟩ ∧
      exampleRecieved.msgRead 1 3 (2 ^ 32 - 16) 17 = .ok (.bytes (42 :: List.replicate 16 0)) ∧
      ¬ exampleRecieved.ReadsWithin 1 3 ⟨0x1000, 4⟩ (2 ^ 32 - 16) 17 := by
  have hrun : exampleRecieved.msgRead 1 3 (2 ^ 32 - 16) 17 = .ok (.bytes (42 :: List.replicate 16 0)) := by
    decide +kernel
  refine ⟨exampleRecieved_recieved, hrun, ?_⟩
  rw [ReadsWithin, hrun, if_neg (by decide)]
  simp

end Reads

end Lanthorn
