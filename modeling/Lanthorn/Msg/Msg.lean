import Lanthorn.Kernel.Basic
import Lanthorn.Library.Run
import Mathlib

/-!
# Messages and message boxes

Model of the sections of `msg.c` that are under the lock of a message or of a box, for processes `π`,
threads `τ`, messages `μ` and boxes `β`. A message carries a body of any type `γ`. Freed memory is not
used again (`kmfree` does nothing), so that an element of `μ` or `β` is one object from its creation on;
the id allocators are finite maps from ids to objects.

`msg_read` and `msg_size` are for messages whose bodies are strings of bytes.

`msg_recieve` takes the first message of a box in two parts, `takeFirst` and `takeSecond`: the state of
the message is changed before its owner. `Msgs.sendMsg_cases` and its like say what a section does.
-/

set_option linter.unusedSectionVars false

namespace Lanthorn

open Function

/-- `enum MSG_STATE` of `msg.h`. -/
inductive MsgState
  | unsend
  | sended
  | recieved
  deriving DecidableEq, Repr

/-- `enum BOX_STATE` of `msg.h`. -/
inductive BoxState
  | rcvable
  | rcvBlk
  deriving DecidableEq, Repr

/-- `struct msg_t`, with the part behind `addr` and `size` as a body. -/
structure Msg (π γ : Type) where
  id : ℕ
  state : MsgState
  owner : π
  body : γ

/-- `struct msgbox_t`. -/
structure MsgBox (π τ μ : Type) where
  id : ℕ
  state : BoxState
  nmsg : ℕ
  owner : π
  blkThread : Option τ
  msgLs : List μ

/-- The id allocators and the objects; none is an object that has not been created. -/
structure Msgs (π τ μ β γ : Type) where
  /-- `MSG.msg_alct`. -/
  msgAlct : ℕ → Option μ
  /-- `MSG.box_alct`. -/
  boxAlct : ℕ → Option β
  msg : μ → Option (Msg π γ)
  box : β → Option (MsgBox π τ μ)

namespace Msgs

variable {π τ μ β γ : Type} [DecidableEq π] [DecidableEq μ] [DecidableEq β]

def setMsg (s : Msgs π τ μ β γ) (m : μ) (msg : Msg π γ) : Msgs π τ μ β γ :=
  { s with msg := update s.msg m (some msg) }

def setBox (s : Msgs π τ μ β γ) (b : β) (box : MsgBox π τ μ) : Msgs π τ μ β γ :=
  { s with box := update s.box b (some box) }

def msgOf (s : Msgs π τ μ β γ) (m : μ) : Result (Msg π γ) :=
  match s.msg m with
  | none => .error .unset
  | some msg => .ok msg

def boxOf (s : Msgs π τ μ β γ) (b : β) : Result (MsgBox π τ μ) :=
  match s.box b with
  | none => .error .unset
  | some box => .ok box

/-- `msg_newmsg` for the process `p`: the fields of the new message and its id. -/
def newMsg (s : Msgs π τ μ β γ) (p : π) (m : μ) (id : ℕ) (body : γ) : Msgs π τ μ β γ :=
  { s.setMsg m ⟨id, .unsend, p, body⟩ with msgAlct := update s.msgAlct id (some m) }

/-- `msg_newbox` for the process `p`. -/
def newBox (s : Msgs π τ μ β γ) (p : π) (b : β) (id : ℕ) : Msgs π τ μ β γ :=
  { s.setBox b ⟨id, .rcvable, 0, p, none, []⟩ with
    boxAlct := update s.boxAlct id (some b) }

/-- `list_push_back` and `nmsg++`, and `blk_thread = NULL` after the `schd_run` for a blocked receiver. -/
def push (box : MsgBox π τ μ) (m : μ) : MsgBox π τ μ :=
  { box with
    msgLs := box.msgLs ++ [m]
    nmsg := box.nmsg + 1
    blkThread := if box.state = .rcvBlk then none else box.blkThread }

/-- The thread that `msg_send` gives to `schd_run`, if it calls it. -/
def wakes (box : MsgBox π τ μ) : Option (Option τ) :=
  if box.state = .rcvBlk then some box.blkThread else none

/-- `msg_send` under the lock of the box: the code, the thread that is given to `schd_run` if it is
called, and the state. -/
def sendMsg (s : Msgs π τ μ β γ) (p : π) (b : β) (m : μ) : Result (Errno × Option (Option τ) × Msgs π τ μ β γ) := do
  let msg ← s.msgOf m
  let box ← s.boxOf b
  if msg.owner ≠ p then return (.inval, none, s)
  if msg.state ≠ .unsend then return (.inval, none, s)
  return (.ok, wakes box, (s.setBox b (push box m)).setMsg m { msg with state := .sended })

/-- What the first section of `msg_recieve` comes to. -/
inductive Test
  | fail (err : Errno)
  | block
  | ready
  deriving DecidableEq, Repr

/-- The tests of `msg_recieve` by a thread of the process `p`, and what it sets before it blocks. -/
def recieveTest (s : Msgs π τ μ β γ) (now : τ) (p : π) (b : β) (isBlock : Bool) :
    Result (Test × Msgs π τ μ β γ) := do
  let box ← s.boxOf b
  if box.owner ≠ p then return (.fail .inval, s)
  if box.state = .rcvBlk then return (.fail .block, s)
  if box.nmsg ≠ 0 then return (.ready, s)
  if isBlock then return (.block, s.setBox b { box with state := .rcvBlk, blkThread := some now })
  return (.fail .nomsg, s)

/-- `box->state = BOX_RCVABLE` after the receiver has got the lock again. -/
def recieveAgain (s : Msgs π τ μ β γ) (b : β) : Result (Msgs π τ μ β γ) := do
  let box ← s.boxOf b
  return s.setBox b { box with state := .rcvable }

def takeFirst (s : Msgs π τ μ β γ) (b : β) : Result (μ × Msgs π τ μ β γ) := do
  let box ← s.boxOf b
  assert (0 < box.nmsg)
  match box.msgLs with
  | [] => .error .unset
  | m :: rest =>
    let msg ← s.msgOf m
    assert (msg.state = .sended)
    return (m, (s.setBox b { box with msgLs := rest }).setMsg m { msg with state := .recieved })

/-- `nmsg--` and the new owner of the message. -/
def takeSecond (s : Msgs π τ μ β γ) (p : π) (b : β) (m : μ) : Result (Msgs π τ μ β γ) := do
  let box ← s.boxOf b
  let msg ← s.msgOf m
  return (s.setBox b { box with nmsg := box.nmsg - 1 }).setMsg m { msg with owner := p }

def take (s : Msgs π τ μ β γ) (p : π) (b : β) : Result (μ × Msgs π τ μ β γ) := do
  let (m, s) ← s.takeFirst b
  let s ← s.takeSecond p b m
  return (m, s)

/-- The test of the owner in `msg_delmsg`, under the lock of the message. -/
def delMsgTest (s : Msgs π τ μ β γ) (p : π) (m : μ) : Result Errno := do
  let msg ← s.msgOf m
  return if msg.owner ≠ p then .inval else .ok

/-- `msg_delmsg` after the test of the owner. -/
def delMsg (s : Msgs π τ μ β γ) (m : μ) : Result (Errno × Msgs π τ μ β γ) := do
  let msg ← s.msgOf m
  if msg.state = .sended then return (.inval, s)
  assert (s.msgAlct msg.id ≠ none)
  return (.ok, { s with msgAlct := update s.msgAlct msg.id none })

/-- `msg_delbox` under the lock of the box. -/
def delBox (s : Msgs π τ μ β γ) (p : π) (b : β) : Result (Errno × Msgs π τ μ β γ) := do
  let box ← s.boxOf b
  if box.owner ≠ p then return (.inval, s)
  if box.state = .rcvBlk then return (.inval, s)
  if box.nmsg > 0 then return (.inval, s)
  assert (s.boxAlct box.id ≠ none)
  return (.ok, { s with boxAlct := update s.boxAlct box.id none })

/-! ### Reading -/

section Read

variable (s : Msgs π τ μ β (List UInt8)) (p : π) (msgId : ℕ)

/-- The tests of `msg_read` and `msg_size` by the process `p`, and the bytes of the message. -/
def readTest : Result (Errno × List UInt8) := do
  match s.msgAlct msgId with
  | none => return (.notfound, [])
  | some m =>
    let msg ← s.msgOf m
    if msg.owner ≠ p then return (.inval, [])
    if msg.state ≠ .recieved then return (.inval, [])
    return (.ok, msg.body)

/-- `msg_size`. -/
def msgSize : Result (Errno × ℕ) := do
  let (err, body) ← s.readTest p msgId
  return (err, body.length)

/-- `msg_read`. The test is 32-bit arithmetic; a copy that goes beyond the message is not modelled. -/
def msgRead (offset size : ℕ) : Result (Errno × List UInt8) := do
  let (err, body) ← s.readTest p msgId
  if err ≠ .ok then return (err, [])
  if body.length < (offset + size) % 2 ^ 32 then return (.inval, [])
  if body.length < offset + size then .error .unset
  return (.ok, (body.drop offset).take size)

def Holds (body : List UInt8) : Prop :=
  ∃ m msg, s.msgAlct msgId = some m ∧ s.msg m = some msg ∧ msg.owner = p ∧ msg.state = .recieved ∧ msg.body = body

end Read

/-! ### What the sections do -/

section Cases

variable {s s' : Msgs π τ μ β γ} {now : τ} {p : π} {b : β} {m : μ} {err : Errno}

theorem msgOf_eq_ok {msg : Msg π γ} : s.msgOf m = .ok msg ↔ s.msg m = some msg := by
  unfold msgOf
  cases s.msg m <;> simp

theorem boxOf_eq_ok {box : MsgBox π τ μ} : s.boxOf b = .ok box ↔ s.box b = some box := by
  unfold boxOf
  cases s.box b <;> simp

theorem sendMsg_cases {wake : Option (Option τ)} (h : s.sendMsg p b m = .ok (err, wake, s')) :
    err ≠ .ok ∧ wake = none ∧ s' = s ∨
      ∃ msg box, s.msg m = some msg ∧ s.box b = some box ∧ msg.owner = p ∧ msg.state = .unsend ∧
        err = .ok ∧ wake = wakes box ∧ s' = (s.setBox b (push box m)).setMsg m { msg with state := .sended } := by
  unfold sendMsg at h
  obtain ⟨msg, hmsg, h⟩ := bind_eq_ok.mp h
  obtain ⟨box, hbox, h⟩ := bind_eq_ok.mp h
  rw [msgOf_eq_ok] at hmsg
  rw [boxOf_eq_ok] at hbox
  split_ifs at h with howner hstate
  all_goals
    obtain ⟨rfl, rfl, rfl⟩ := ok_triple_inj h
  all_goals grind

theorem recieveTest_cases {isBlock : Bool} {r : Test} (h : s.recieveTest now p b isBlock = .ok (r, s')) :
    ∃ box, s.box b = some box ∧ ((∃ err, r = .fail err ∧ s' = s) ∨
        (r = .ready ∧ s' = s ∧ box.owner = p ∧ box.state = .rcvable ∧ box.nmsg ≠ 0) ∨
        (r = .block ∧ isBlock = true ∧ box.owner = p ∧ box.state = .rcvable ∧ box.nmsg = 0 ∧
          s' = s.setBox b { box with state := .rcvBlk, blkThread := some now })) := by
  unfold recieveTest at h
  obtain ⟨box, hbox, h⟩ := bind_eq_ok.mp h
  rw [boxOf_eq_ok] at hbox
  refine ⟨box, hbox, ?_⟩
  split_ifs at h with howner hstate hnmsg hblock
  all_goals cases h
  · exact .inl ⟨_, rfl, rfl⟩
  · exact .inl ⟨_, rfl, rfl⟩
  · refine .inr (.inl ⟨rfl, rfl, not_not.mp howner, ?_, hnmsg⟩)
    cases hs : box.state with
    | rcvable => rfl
    | rcvBlk => exact absurd hs hstate
  · refine .inr (.inr ⟨rfl, hblock, not_not.mp howner, ?_, not_not.mp hnmsg, rfl⟩)
    cases hs : box.state with
    | rcvable => rfl
    | rcvBlk => exact absurd hs hstate
  · exact .inl ⟨_, rfl, rfl⟩

theorem recieveAgain_eq_ok : s.recieveAgain b = .ok s' ↔
    ∃ box, s.box b = some box ∧ s' = s.setBox b { box with state := .rcvable } := by
  simp only [recieveAgain, bind_eq_ok, boxOf_eq_ok, Except.ok.injEq, @eq_comm _ s', pure_eq]

theorem takeFirst_eq_ok : s.takeFirst b = .ok (m, s') ↔
    ∃ box msg rest, s.box b = some box ∧ 0 < box.nmsg ∧ box.msgLs = m :: rest ∧ s.msg m = some msg ∧
      msg.state = .sended ∧
      s' = (s.setBox b { box with msgLs := rest }).setMsg m { msg with state := .recieved } := by
  unfold takeFirst
  simp only [bind_eq_ok, boxOf_eq_ok, assert_eq_ok, exists_const]
  constructor
  · rintro ⟨box, hbox, hnmsg, h⟩
    cases hls : box.msgLs with
    | nil => simp [hls] at h
    | cons m' rest =>
      simp only [hls] at h
      obtain ⟨msg, hmsg, h⟩ := bind_eq_ok.mp h
      obtain ⟨_, hstate, h⟩ := bind_eq_ok.mp h
      cases h
      exact ⟨box, msg, rest, hbox, hnmsg, hls, msgOf_eq_ok.mp hmsg, assert_eq_ok.mp hstate, rfl⟩
  · rintro ⟨box, msg, rest, hbox, hnmsg, hls, hmsg, hstate, rfl⟩
    refine ⟨box, hbox, hnmsg, ?_⟩
    simp only [hls, msgOf_eq_ok.mpr hmsg, assert_of_true hstate, ok_bind, pure_eq]

theorem takeSecond_eq_ok : s.takeSecond p b m = .ok s' ↔ ∃ box msg, s.box b = some box ∧ s.msg m = some msg ∧
      s' = (s.setBox b { box with nmsg := box.nmsg - 1 }).setMsg m { msg with owner := p } := by
  simp only [takeSecond, bind_eq_ok, boxOf_eq_ok, msgOf_eq_ok, Except.ok.injEq, @eq_comm _ s', pure_eq]
  grind

theorem take_cases (h : s.take p b = .ok (m, s')) :
    ∃ box msg rest, s.box b = some box ∧ 0 < box.nmsg ∧ box.msgLs = m :: rest ∧ s.msg m = some msg ∧
      msg.state = .sended ∧ s' = (s.setBox b { box with msgLs := rest, nmsg := box.nmsg - 1 }).setMsg m
        { msg with state := .recieved, owner := p } := by
  unfold take at h
  obtain ⟨⟨m', mid⟩, hfirst, h⟩ := bind_eq_ok.mp h
  obtain ⟨mid', hsecond, h⟩ := bind_eq_ok.mp h
  cases h
  obtain ⟨box, msg, rest, hbox, hnmsg, hls, hmsg, hstate, rfl⟩ := takeFirst_eq_ok.mp hfirst
  obtain ⟨box', msg', hbox', hmsg', rfl⟩ := takeSecond_eq_ok.mp hsecond
  obtain rfl : { box with msgLs := rest } = box' := by simpa [setMsg, setBox] using hbox'
  obtain rfl : { msg with state := .recieved } = msg' := by simpa [setMsg] using hmsg'
  refine ⟨box, msg, rest, hbox, hnmsg, hls, hmsg, hstate, ?_⟩
  simp [setMsg, setBox, update_idem]

section Read

variable {s s' : Msgs π τ μ β (List UInt8)} {p : π} {b : β} {m : μ} {msgId offset size : ℕ}
  {body : List UInt8} {msg : Msg π (List UInt8)}

theorem holds_of_take (h : s.take p b = .ok (m, s')) (hmsg : s.msg m = some msg)
    (hid : s.msgAlct msg.id = some m) : s'.Holds p msg.id msg.body := by
  obtain ⟨box, msg', rest, -, -, -, hmsg', -, rfl⟩ := take_cases h
  obtain rfl : msg = msg' := Option.some_inj.mp (hmsg.symm.trans hmsg')
  exact ⟨m, _, hid, update_self _ _ _, rfl, rfl, rfl⟩

theorem Holds.readTest (h : s.Holds p msgId body) : s.readTest p msgId = .ok (.ok, body) := by
  obtain ⟨m, msg, hid, hmsg, howner, hstate, rfl⟩ := h
  simp [Msgs.readTest, hid, msgOf_eq_ok.mpr hmsg, howner, hstate]

theorem Holds.msgSize (h : s.Holds p msgId body) : s.msgSize p msgId = .ok (.ok, body.length) := by
  simp [Msgs.msgSize, h.readTest]

theorem Holds.msgRead (h : s.Holds p msgId body) (hsize : offset + size ≤ body.length)
    (hlt : body.length < 2 ^ 32) : s.msgRead p msgId offset size = .ok (.ok, (body.drop offset).take size) := by
  have hmod : (offset + size) % 2 ^ 32 = offset + size := Nat.mod_eq_of_lt (by omega)
  simp only [Msgs.msgRead, h.readTest, hmod, ok_bind]
  rw [if_neg (by simp), if_neg (by omega), if_neg (by omega)]
  rfl

end Read

theorem delMsg_cases (h : s.delMsg m = .ok (err, s')) :
    err ≠ .ok ∧ s' = s ∨ ∃ msg, s.msg m = some msg ∧ msg.state ≠ .sended ∧ err = .ok ∧
      s' = { s with msgAlct := update s.msgAlct msg.id none } := by
  unfold delMsg at h
  obtain ⟨msg, hmsg, h⟩ := bind_eq_ok.mp h
  rw [msgOf_eq_ok] at hmsg
  split_ifs at h with hstate
  · cases h
    exact .inl ⟨by simp, rfl⟩
  · obtain ⟨_, -, h⟩ := bind_eq_ok.mp h
    cases h
    exact .inr ⟨msg, hmsg, hstate, rfl, rfl⟩

theorem delBox_cases (h : s.delBox p b = .ok (err, s')) :
    err ≠ .ok ∧ s' = s ∨ ∃ box, s.box b = some box ∧ box.owner = p ∧ box.nmsg = 0 ∧ err = .ok ∧
      s' = { s with boxAlct := update s.boxAlct box.id none } := by
  unfold delBox at h
  obtain ⟨box, hbox, h⟩ := bind_eq_ok.mp h
  rw [boxOf_eq_ok] at hbox
  split_ifs at h with howner hstate hnmsg
  · cases h
    exact .inl ⟨by simp, rfl⟩
  · cases h
    exact .inl ⟨by simp, rfl⟩
  · cases h
    exact .inl ⟨by simp, rfl⟩
  · obtain ⟨_, -, h⟩ := bind_eq_ok.mp h
    cases h
    exact .inr ⟨box, hbox, not_not.mp howner, by omega, rfl, rfl⟩

end Cases

end Msgs

end Lanthorn
