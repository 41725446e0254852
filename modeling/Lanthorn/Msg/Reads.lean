import Lanthorn.Library.Bytes
import Lanthorn.Msg.Delivery

/-!
# Reading messages

`msg_read` and `msg_size` beside the other operations of `msg.c`. They look at the owner and at the state
of a message under its lock, one after the other; `msg_recieve` writes the state and then the owner under
the lock of the box only. Each look and each write is a step here.

The fields `addr` and `size` of a message, the memory of the kernel and the log of what was received and
answered are apart from the rest (`ReadControl`), which never depends on them.

`Reads.inv_step` is the invariant of the runs in which the looks and the writes at one message do not
overlap: an answer is for a process that has received the message from a box of its own.
-/

set_option linter.unusedSectionVars false

namespace Lanthorn

open Function List

open Library Msgs

/-- Memory from `kmalloc`. -/
structure Buffer where
  addr : ℕ
  size : ℕ
  deriving DecidableEq, Repr

def Buffer.Apart (x y : Buffer) : Prop :=
  x.addr + x.size ≤ y.addr ∨ y.addr + y.size ≤ x.addr

instance (x y : Buffer) : Decidable (x.Apart y) := by
  unfold Buffer.Apart
  infer_instance

/-- The calls `msg_size` and `msg_read`. -/
inductive Query
  | size
  | read (offset size : ℕ)
  deriving DecidableEq, Repr

namespace Query

def Fits : Query → Bool
  | .size => true
  | .read offset len => offset < 2 ^ 32 && len < 2 ^ 32

/-- Whether `offset + size` wraps. -/
def Wraps : Query → Bool
  | .size => false
  | .read offset len => 2 ^ 32 ≤ offset + len

end Query

/-- What a call returns: an error, or `E_OK` with a size or the bytes that were copied. -/
inductive Answer
  | fail (err : Errno)
  | size (n : ℕ)
  | bytes (data : List UInt8)
  deriving DecidableEq, Repr

def Answer.isOk : Answer → Bool
  | .fail _ => false
  | .size _ | .bytes _ => true

/-- Where a thread stands in `msg_read` and `msg_size`, or between the two writes of `msg_recieve`. -/
inductive ReadPoint (μ β : Type)
  | idle
  /-- Before the lock of the message. -/
  | lock (m : μ) (q : Query)
  /-- Before the look at the owner. -/
  | owner (m : μ) (q : Query)
  /-- Before the look at the state. -/
  | state (m : μ) (q : Query)
  /-- Before the answer. -/
  | copy (m : μ) (q : Query)
  | unlock (m : μ)
  /-- `msg_recieve` between the new state and the new owner of the message. -/
  | take (b : β) (m : μ)
  deriving DecidableEq, Repr

namespace ReadPoint

variable {μ β : Type} [DecidableEq μ]

def Takes (m : μ) : ReadPoint μ β → Bool
  | .take _ m' => m = m'
  | _ => false

def Looks (m : μ) : ReadPoint μ β → Bool
  | .state m' _ => m = m'
  | _ => false

theorem not_looks {m : μ} {at' : ReadPoint μ β} (h : ¬ at'.Looks m) (q : Query) : at' ≠ .state m q := by
  rintro rfl
  simp [Looks] at h

theorem not_takes {m : μ} {at' : ReadPoint μ β} (h : ¬ at'.Takes m) (b : β) : at' ≠ .take b m := by
  rintro rfl
  simp [Takes] at h

end ReadPoint

/-- What has happened: a process has received a message, or got an answer. -/
inductive Event (π μ β : Type)
  | recieved (p : π) (b : β) (m : μ)
  | answered (p : π) (m : Option μ) (q : Query) (answer : Answer)
  deriving DecidableEq, Repr

namespace Mail.Action

variable {τ μ β γ : Type}

def now : Mail.Action τ μ β γ → τ
  | .newMsg now _ _ _ | .newBox now _ _ | .send now _ _ | .sendLock now | .sendFind now
  | .sendSection now | .sendUnlock now | .recieve now _ _ | .recieveSection now | .recieveAgain now
  | .delMsg now _ | .delMsgTest now | .delMsgSection now | .delBox now _ | .delBoxSection now => now

def Plain : Mail.Action τ μ β γ → Bool
  | .newMsg _ _ _ _ | .recieveSection _ | .recieveAgain _ => false
  | _ => true

end Mail.Action

inductive Note (π μ β : Type)
  | nothing
  | newMsg (m : μ) (addr : ℕ) (data : List UInt8)
  | recieved (p : π) (b : β) (m : μ)
  | failed (p : π) (m : Option μ) (q : Query) (err : Errno)
  | copied (p : π) (m : μ) (q : Query)

inductive ReadAction (τ μ β : Type)
  | mail (a : Mail.Action τ μ β Unit)
  | newMsg (now : τ) (m : μ) (id : ℕ) (addr : ℕ) (data : List UInt8)
  | recieveSection (now : τ)
  | recieveAgain (now : τ)
  | takeSecond (now : τ)
  | call (now : τ) (msgId : ℕ) (q : Query)
  | readLock (now : τ)
  | readOwner (now : τ)
  | readState (now : τ)
  | readCopy (now : τ)
  | readUnlock (now : τ)

/-- The messages without their buffers, the locks and the threads. -/
structure ReadControl (π τ μ β : Type) where
  mail : Mail π τ μ β Unit
  reads : τ → ReadPoint μ β

namespace ReadControl

variable {π τ μ β : Type} [DecidableEq π] [DecidableEq τ] [DecidableEq μ] [DecidableEq β]

def goto (s : ReadControl π τ μ β) (now : τ) (at' : ReadPoint μ β) : ReadControl π τ μ β :=
  { s with reads := update s.reads now at' }

def takeFirst (s : ReadControl π τ μ β) (msgs : Msgs π τ μ β Unit) (now : τ) (b : β) :
    Result (Note π μ β × ReadControl π τ μ β) := do
  let (m, msgs) ← msgs.takeFirst b
  let mail := ({ s.mail with msgs := msgs }).lockBox b (some now)
  return (.nothing, ({ s with mail := mail }).goto now (.take b m))

/-- The rest of the section of `msg_recieve`. -/
def takeSecond (s : ReadControl π τ μ β) (p : π) (now : τ) (b : β) (m : μ) :
    Result (Note π μ β × ReadControl π τ μ β) := do
  let msgs ← s.mail.msgs.takeSecond p b m
  let recieved := update s.mail.recieved b (s.mail.recieved b ++ [m])
  let mail := (({ s.mail with msgs := msgs, recieved := recieved }).lockBox b none).goto now .idle
  return (.recieved p b m, ({ s with mail := mail }).goto now .idle)

/-- The first section of `msg_recieve`. -/
def recieveSection (s : ReadControl π τ μ β) (p : π) (now : τ) (b : β) (isBlock : Bool) :
    Result (Note π μ β × ReadControl π τ μ β) := do
  assert (s.mail.boxLock b = none)
  let (r, msgs) ← s.mail.msgs.recieveTest now p b isBlock
  match r with
  | .fail _ => return (.nothing, { s with mail := s.mail.goto now .idle })
  | .block => return (.nothing, { s with mail := ({ s.mail with msgs := msgs }).goto now (.recieveWait b) })
  | .ready => s.takeFirst msgs now b

/-- The second section of a blocking `msg_recieve`. -/
def recieveAgain (s : ReadControl π τ μ β) (now : τ) (b : β) : Result (Note π μ β × ReadControl π τ μ β) := do
  assert (s.mail.boxLock b = none)
  let msgs ← s.mail.msgs.recieveAgain b
  s.takeFirst msgs now b

def look (s : ReadControl π τ μ β) (p : π) (now : τ) (m : μ) (q : Query)
    (passes : Msg π Unit → Bool) (next : ReadPoint μ β) : Result (Note π μ β × ReadControl π τ μ β) := do
  let msg ← s.mail.msgs.msgOf m
  if passes msg then return (.nothing, s.goto now next)
  else return (.failed p (some m) q .inval, s.goto now (.unlock m))

/-- The outcome of a step; `proc` gives the process of each thread. -/
def act (proc : τ → π) (s : ReadControl π τ μ β) : ReadAction τ μ β → Result (Note π μ β × ReadControl π τ μ β)
  | .mail a => do
    assert (s.reads a.now = .idle ∧ a.Plain)
    let mail ← s.mail.act proc a
    return (.nothing, { s with mail := mail })
  | .newMsg now m id addr data => do
    assert (s.reads now = .idle)
    let mail ← s.mail.act proc (.newMsg now m id ())
    return (.newMsg m addr data, { s with mail := mail })
  | .recieveSection now => do
    assert (s.reads now = .idle)
    match s.mail.point now with
    | .recieve b isBlock => s.recieveSection (proc now) now b isBlock
    | _ => .error .assertion
  | .recieveAgain now => do
    assert (s.reads now = .idle)
    match s.mail.point now with
    | .recieveWait b => s.recieveAgain now b
    | _ => .error .assertion
  | .takeSecond now =>
    match s.reads now with
    | .take b m => s.takeSecond (proc now) now b m
    | _ => .error .assertion
  | .call now msgId q => do
    assert (s.mail.point now = .idle ∧ s.reads now = .idle ∧ q.Fits)
    match s.mail.msgs.msgAlct msgId with
    | none => return (.failed (proc now) none q .notfound, s)
    | some m => return (.nothing, s.goto now (.lock m q))
  | .readLock now =>
    match s.reads now with
    | .lock m q => do
      assert (s.mail.msgLock m = none)
      return (.nothing, ({ s with mail := s.mail.lockMsg m (some now) }).goto now (.owner m q))
    | _ => .error .assertion
  | .readOwner now =>
    match s.reads now with
    | .owner m q => s.look (proc now) now m q (fun msg ↦ msg.owner = proc now) (.state m q)
    | _ => .error .assertion
  | .readState now =>
    match s.reads now with
    | .state m q => s.look (proc now) now m q (fun msg ↦ msg.state = .recieved) (.copy m q)
    | _ => .error .assertion
  | .readCopy now =>
    match s.reads now with
    | .copy m q => .ok (.copied (proc now) m q, s.goto now (.unlock m))
    | _ => .error .assertion
  | .readUnlock now =>
    match s.reads now with
    | .unlock m => .ok (.nothing, ({ s with mail := s.mail.lockMsg m none }).goto now .idle)
    | _ => .error .assertion

end ReadControl

structure Reads (π τ μ β : Type) where
  control : ReadControl π τ μ β
  /-- The fields `addr` and `size` of a message, zero before there is one. -/
  buf : μ → Buffer
  /-- What `kmalloc` has given out. -/
  allocated : List Buffer
  mem : ℕ → UInt8
  log : List (Event π μ β)

namespace Reads

variable {π τ μ β : Type} [DecidableEq π] [DecidableEq τ] [DecidableEq μ] [DecidableEq β]

def msgs (s : Reads π τ μ β) : Msgs π τ μ β Unit := s.control.mail.msgs

/-- What a call returns after its two looks. The test of `msg_read` and its addresses are 32-bit
arithmetic. -/
def answer (s : Reads π τ μ β) (m : μ) : Query → Answer
  | .size => .size (s.buf m).size
  | .read offset size =>
    if (s.buf m).size < (offset + size) % 2 ^ 32 then .fail .inval
    else .bytes ((List.range size).map fun i ↦ s.mem (((s.buf m).addr + offset + i) % 2 ^ 32))

/-- What a step does to the memory and the log. The memory of a new message is apart from all that has
been given out. -/
def record (s : Reads π τ μ β) : Note π μ β → Result (Reads π τ μ β)
  | .nothing => .ok s
  | .newMsg m addr data => do
    let new : Buffer := ⟨addr, data.length⟩
    assert (addr + data.length ≤ 2 ^ 32 ∧ ∀ x ∈ s.allocated, x.Apart new)
    return { s with
      buf := update s.buf m new
      allocated := new :: s.allocated
      mem := Bytes.write s.mem addr data }
  | .recieved p b m => .ok { s with log := s.log ++ [.recieved p b m] }
  | .failed p m q err => .ok { s with log := s.log ++ [.answered p m q (.fail err)] }
  | .copied p m q => .ok { s with log := s.log ++ [.answered p (some m) q (s.answer m q)] }

def act (proc : τ → π) (s : Reads π τ μ β) (a : ReadAction τ μ β) : Result (Reads π τ μ β) := do
  let (note, control) ← s.control.act proc a
  record { s with control := control } note

/-- After `msg_init`, with any memory. -/
def Init (s : Reads π τ μ β) : Prop :=
  s.control = ⟨.initial, fun _ ↦ .idle⟩ ∧ (∀ m, s.buf m = ⟨0, 0⟩) ∧ s.allocated = [] ∧ s.log = []

def system (proc : τ → π) (μ β : Type) [DecidableEq μ] [DecidableEq β] :
    System (Reads π τ μ β) (ReadAction τ μ β) :=
  .ofNext Init (act proc)

def nextOf (s : Reads π τ μ β) (now : τ) : Option μ :=
  match s.control.mail.point now with
  | .recieve b _ | .recieveWait b => (s.msgs.box b).bind fun box ↦ box.msgLs.head?
  | _ => none

/-- No call looks at the owner of a message between the two writes of a receipt, and no receipt begins
its writes while a call is between its two looks at the message. -/
def Separated (s : Reads π τ μ β) : ReadAction τ μ β → Prop
  | .readOwner now =>
    match s.control.reads now with
    | .owner m _ => ∀ t, ¬ (s.control.reads t).Takes m
    | _ => True
  | .recieveSection now | .recieveAgain now =>
    match s.nextOf now with
    | some m => ∀ t, ¬ (s.control.reads t).Looks m
    | none => True
  | _ => True

instance [Fintype τ] (s : Reads π τ μ β) (a : ReadAction τ μ β) : Decidable (s.Separated a) := by
  unfold Separated
  split
  · split <;> infer_instance
  · split <;> infer_instance
  · split <;> infer_instance
  · infer_instance

/-! ### What the steps keep -/

def BoxesKept (s s' : Msgs π τ μ β Unit) : Prop :=
  ∀ b box, s.box b = some box → ∃ box', s'.box b = some box' ∧ box'.owner = box.owner

theorem BoxesKept.refl (s : Msgs π τ μ β Unit) : BoxesKept s s :=
  fun _ box h ↦ ⟨box, h, rfl⟩

variable {s msgs : Msgs π τ μ β Unit} {b : β} {p : π} {log : List (Event π μ β)}

theorem BoxesKept.owner {s' : Msgs π τ μ β Unit} (h : BoxesKept s s')
    (howner : ∃ box, s.box b = some box ∧ box.owner = p) : ∃ box, s'.box b = some box ∧ box.owner = p := by
  obtain ⟨box, hbox, rfl⟩ := howner
  exact h b box hbox

/-- Boxes and messages keep their owners, and no message comes into the state `MSG_RECIEVED`. -/
structure Kept (s s' : Msgs π τ μ β Unit) : Prop where
  box : BoxesKept s s'
  msg : ∀ m msg, s.msg m = some msg → ∃ msg', s'.msg m = some msg' ∧ msg'.owner = msg.owner
  recieved : ∀ m msg', s'.msg m = some msg' → msg'.state = .recieved →
    ∃ msg, s.msg m = some msg ∧ msg.state = .recieved ∧ msg'.owner = msg.owner

theorem Kept.of_eq {s' : Msgs π τ μ β Unit} (hmsg : s'.msg = s.msg) (hbox : s'.box = s.box) : Kept s s' where
  box b box h := ⟨box, by rw [hbox, h], rfl⟩
  msg m msg h := ⟨msg, by rw [hmsg, h], rfl⟩
  recieved m msg' h hstate := ⟨msg', by rw [← hmsg, h], hstate, rfl⟩

theorem kept_setBox {box box' : MsgBox π τ μ} (hbox : s.box b = some box)
    (howner : box'.owner = box.owner) : Kept s (s.setBox b box') := by
  constructor <;> simp only [BoxesKept, setBox, update_apply] <;> grind

theorem kept_newBox {id : ℕ} (hnew : s.box b = none) : Kept s (s.newBox p b id) := by
  constructor <;> simp only [BoxesKept, newBox, setBox, update_apply] <;> grind

theorem kept_push {m : μ} {box : MsgBox π τ μ} {msg : Msg π Unit} (hbox : s.box b = some box)
    (hmsg : s.msg m = some msg) : Kept s ((s.setBox b (push box m)).setMsg m { msg with state := .sended }) := by
  constructor <;> simp only [BoxesKept, setBox, setMsg, push, update_apply] <;> grind

theorem kept_of_plain {proc : τ → π} {s s' : Mail π τ μ β Unit} {a : Mail.Action τ μ β Unit}
    (hact : s.act proc a = .ok s') (hplain : a.Plain) :
    Kept s.msgs s'.msgs ∧ ∀ t b, s'.point t = .recieveWait b → s.point t = .recieveWait b := by
  have hgoto : ∀ {now : τ} {at' : MailPoint μ β}, (∀ b, at' ≠ .recieveWait b) → ∀ t b,
      update s.point now at' t = .recieveWait b → s.point t = .recieveWait b := by grind
  cases a with
  | newMsg | recieveSection | recieveAgain => cases hplain
  | newBox now b id =>
    obtain ⟨_, hguard, hact⟩ := bind_eq_ok.mp hact
    cases hact
    exact ⟨kept_newBox (Option.isNone_iff_eq_none.mp (assert_eq_ok.mp hguard).2.1), fun _ _ h ↦ h⟩
  | send now boxId msgId | delMsg now msgId | recieve now boxId isBlock | delBox now boxId =>
    obtain ⟨_, -, hact⟩ := bind_eq_ok.mp hact
    split at hact
    all_goals first
      | cases hact; done
      | cases hact
        first
        | exact ⟨.of_eq rfl rfl, fun _ _ h ↦ h⟩
        | exact ⟨.of_eq rfl rfl, hgoto (by simp)⟩
  | sendLock now =>
    simp only [Mail.act] at hact
    split at hact
    · obtain ⟨_, -, hact⟩ := bind_eq_ok.mp hact
      cases hact
      exact ⟨.of_eq rfl rfl, hgoto (by simp)⟩
    · cases hact
  | sendFind now =>
    simp only [Mail.act] at hact
    split at hact
    · split at hact <;> obtain rfl := Except.ok.inj hact <;>
        exact ⟨.of_eq rfl rfl, hgoto (by simp)⟩
    · cases hact
  | sendSection now =>
    simp only [Mail.act] at hact
    split at hact
    · unfold Mail.sendSection at hact
      obtain ⟨_, -, hact⟩ := bind_eq_ok.mp hact
      obtain ⟨⟨err, wake, msgs⟩, hsend, hact⟩ := bind_eq_ok.mp hact
      simp only at hact
      split_ifs at hact
      cases hact
      refine ⟨?_, hgoto (by simp)⟩
      obtain ⟨-, -, rfl⟩ | ⟨msg, box, hmsg, hbox, -, -, -, -, rfl⟩ := sendMsg_cases hsend
      · exact .of_eq rfl rfl
      · exact kept_push hbox hmsg
    · cases hact
  | sendUnlock now =>
    simp only [Mail.act] at hact
    split at hact
    · cases hact
      exact ⟨.of_eq rfl rfl, hgoto (by simp)⟩
    · cases hact
  | delMsgTest now =>
    simp only [Mail.act] at hact
    split at hact
    · unfold Mail.delMsgTest at hact
      obtain ⟨_, -, hact⟩ := bind_eq_ok.mp hact
      obtain ⟨err, -, hact⟩ := bind_eq_ok.mp hact
      split_ifs at hact <;> obtain rfl := Except.ok.inj hact <;>
        exact ⟨.of_eq rfl rfl, hgoto (by simp)⟩
    · cases hact
  | delMsgSection now =>
    simp only [Mail.act] at hact
    split at hact
    · unfold Mail.delMsgSection at hact
      obtain ⟨⟨err, msgs⟩, hdel, hact⟩ := bind_eq_ok.mp hact
      obtain ⟨-, rfl⟩ | ⟨msg, -, -, -, rfl⟩ := delMsg_cases hdel
      all_goals
        simp only at hact
        split_ifs at hact <;> obtain rfl := Except.ok.inj hact <;>
          exact ⟨.of_eq rfl rfl, hgoto (by simp)⟩
    · cases hact
  | delBoxSection now =>
    simp only [Mail.act] at hact
    split at hact
    · unfold Mail.delBoxSection at hact
      obtain ⟨_, -, hact⟩ := bind_eq_ok.mp hact
      obtain ⟨⟨err, msgs⟩, hdel, hact⟩ := bind_eq_ok.mp hact
      obtain ⟨-, rfl⟩ | ⟨box, -, -, -, -, rfl⟩ := delBox_cases hdel
      all_goals
        simp only at hact
        split_ifs at hact <;> obtain rfl := Except.ok.inj hact <;>
          exact ⟨.of_eq rfl rfl, hgoto (by simp)⟩
    · cases hact

/-! ### The invariant -/

/-- The process has received the message from a box of its own, by a receipt in the log. -/
def Received (log : List (Event π μ β)) (msgs : Msgs π τ μ β Unit) (p : π) (m : μ) : Prop :=
  ∃ b box, .recieved p b m ∈ log ∧ msgs.box b = some box ∧ box.owner = p

theorem Received.mono {log' : List (Event π μ β)} {msgs' : Msgs π τ μ β Unit} {m : μ}
    (h : Received log msgs p m) (hlog : log ⊆ log') (hkept : BoxesKept msgs msgs') : Received log' msgs' p m := by
  obtain ⟨b, box, hmem, hbox, howner⟩ := h
  obtain ⟨box', hbox', howner'⟩ := hkept b box hbox
  exact ⟨b, box', hlog hmem, hbox', howner'.trans howner⟩

/-- Every answer with `E_OK` comes after a receipt. -/
def AnswersReceived (log : List (Event π μ β)) (msgs : Msgs π τ μ β Unit) : Prop :=
  ∀ before p m q answer after, log = before ++ .answered p m q answer :: after → answer.isOk →
    ∃ m', m = some m' ∧ Received before msgs p m'

theorem AnswersReceived.mono {msgs' : Msgs π τ μ β Unit} (h : AnswersReceived log msgs)
    (hkept : BoxesKept msgs msgs') : AnswersReceived log msgs' := by
  intro before p m q answer after hlog hok
  obtain ⟨m', hm, hreceived⟩ := h before p m q answer after hlog hok
  exact ⟨m', hm, hreceived.mono (List.Subset.refl _) hkept⟩

theorem AnswersReceived.append {event : Event π μ β} (h : AnswersReceived log msgs)
    (hnew : ∀ p m q answer, event = .answered p m q answer → answer.isOk →
      ∃ m', m = some m' ∧ Received log msgs p m') : AnswersReceived (log ++ [event]) msgs := by
  intro before p m q answer after hlog hok
  obtain rfl | ⟨rest, last, rfl⟩ := eq_nil_or_concat after
  · obtain ⟨rfl, hevent⟩ := append_inj' hlog rfl
    exact hnew p m q answer (List.cons.inj hevent).1 hok
  · rw [concat_eq_append, ← cons_append, ← append_assoc] at hlog
    exact h before p m q answer rest (append_inj' hlog rfl).1 hok

structure Inv (proc : τ → π) (s : Reads π τ μ β) : Prop where
  recieved : ∀ m msg, s.msgs.msg m = some msg → msg.state = .recieved →
    (∃ t b, s.control.reads t = .take b m) ∨ Received s.log s.msgs msg.owner m
  take : ∀ t b m, s.control.reads t = .take b m → ∃ box, s.msgs.box b = some box ∧ box.owner = proc t
  wait : ∀ t b, s.control.mail.point t = .recieveWait b → ∃ box, s.msgs.box b = some box ∧ box.owner = proc t
  state : ∀ t m q, s.control.reads t = .state m q →
    (∃ msg, s.msgs.msg m = some msg ∧ msg.owner = proc t) ∧ ∀ u b, s.control.reads u ≠ .take b m
  copy : ∀ t m q, s.control.reads t = .copy m q → Received s.log s.msgs (proc t) m
  answers : AnswersReceived s.log s.msgs
  own : ∀ p b m, .recieved p b m ∈ s.log → ∃ box, s.msgs.box b = some box ∧ box.owner = p
  buf : ∀ m, s.buf m ∈ s.allocated ∨ s.buf m = ⟨0, 0⟩
  bound : ∀ x ∈ s.allocated, x.addr + x.size ≤ 2 ^ 32

section Steps

variable {proc : τ → π} {s s' : Reads π τ μ β} {a : ReadAction τ μ β} {now : τ} {p : π} {b : β} {m : μ}
  {q : Query}

theorem Inv.mail (h : Inv proc s) {mail : Mail π τ μ β Unit} (hkept : Kept s.msgs mail.msgs)
    (hwait : ∀ t b, mail.point t = .recieveWait b → s.control.mail.point t = .recieveWait b ∨
      ∃ box, s.msgs.box b = some box ∧ box.owner = proc t) :
    Inv proc { s with control := { s.control with mail := mail } } where
  recieved m msg' hmsg' hstate := by
    obtain ⟨msg, hmsg, hstate, howner⟩ := hkept.recieved m msg' hmsg' hstate
    obtain htake | hreceived := h.recieved m msg hmsg hstate
    · exact .inl htake
    · exact .inr (howner ▸ hreceived.mono (List.Subset.refl _) hkept.box)
  take t b m ht := hkept.box.owner (h.take t b m ht)
  wait t b ht := hkept.box.owner ((hwait t b ht).elim (h.wait t b) id)
  state t m q ht := by
    obtain ⟨⟨msg, hmsg, howner⟩, hfree⟩ := h.state t m q ht
    obtain ⟨msg', hmsg', howner'⟩ := hkept.msg m msg hmsg
    exact ⟨⟨msg', hmsg', howner'.trans howner⟩, hfree⟩
  copy t m q ht := (h.copy t m q ht).mono (List.Subset.refl _) hkept.box
  answers := h.answers.mono hkept.box
  own p b m hmem := hkept.box.owner (h.own p b m hmem)
  buf := h.buf
  bound := h.bound

theorem Inv.locked (h : Inv proc s) {holder : Option τ} :
    Inv proc { s with control := { s.control with mail := s.control.mail.lockMsg m holder } } :=
  h.mail (.of_eq rfl rfl) fun _ _ ht ↦ .inl ht

theorem Inv.logged (h : Inv proc s) {p : π} {m : Option μ} {answer : Answer}
    (hnew : answer.isOk → ∃ m', m = some m' ∧ Received s.log s.msgs p m') :
    Inv proc { s with log := s.log ++ [.answered p m q answer] } where
  recieved m msg hmsg hstate := (h.recieved m msg hmsg hstate).imp_right
    fun hreceived ↦ hreceived.mono (subset_append_left _ _) (.refl _)
  take := h.take
  wait := h.wait
  state := h.state
  copy t m q ht := (h.copy t m q ht).mono (subset_append_left _ _) (.refl _)
  answers := h.answers.append (by
    rintro p' m' q' answer' heq hok
    obtain ⟨rfl, rfl, -, rfl⟩ := Event.answered.inj heq
    exact hnew hok)
  own p b m hmem := h.own p b m (by simpa using hmem)
  buf := h.buf
  bound := h.bound

theorem Inv.advance (h : Inv proc s) {at' : ReadPoint μ β} (hat : ∀ b m, s.control.reads now ≠ .take b m)
    (htake' : ∀ b m, at' ≠ .take b m)
    (hstate : ∀ m q, at' = .state m q → (∃ msg, s.msgs.msg m = some msg ∧ msg.owner = proc now) ∧
      ∀ u b, s.control.reads u ≠ .take b m)
    (hcopy : ∀ m q, at' = .copy m q → Received s.log s.msgs (proc now) m) :
    Inv proc { s with control := s.control.goto now at' } := by
  have htake : ∀ t b m, update s.control.reads now at' t = .take b m ↔ s.control.reads t = .take b m := by grind
  constructor
  case recieved =>
    intro m msg hmsg hstate
    refine (h.recieved m msg hmsg hstate).imp_left ?_
    rintro ⟨t, b, ht⟩
    exact ⟨t, b, (htake t b m).mpr ht⟩
  case take => exact fun t b m ht ↦ h.take t b m ((htake t b m).mp ht)
  case wait => exact h.wait
  case state =>
    intro t m q ht
    simp only [ReadControl.goto, update_apply] at ht
    have hsource : (∃ msg, s.msgs.msg m = some msg ∧ msg.owner = proc t) ∧
        ∀ u b, s.control.reads u ≠ .take b m := by
      split_ifs at ht with heq
      · exact heq ▸ hstate m q ht
      · exact h.state t m q ht
    exact ⟨hsource.1, fun u b hu ↦ hsource.2 u b ((htake u b m).mp hu)⟩
  case copy =>
    intro t m q ht
    simp only [ReadControl.goto, update_apply] at ht
    split_ifs at ht with heq
    · exact heq ▸ hcopy m q ht
    · exact h.copy t m q ht
  case answers => exact h.answers
  case own => exact h.own
  case buf => exact h.buf
  case bound => exact h.bound

theorem inv_newMsg (h : Inv proc s) {id : ℕ} {new : Buffer} {mem : ℕ → UInt8}
    (hnew : s.msgs.msg m = none) (hbound : new.addr + new.size ≤ 2 ^ 32) : Inv proc { s with
      control := { s.control with mail :=
        { s.control.mail with msgs := s.msgs.newMsg p m id () } }
      buf := update s.buf m new
      allocated := new :: s.allocated
      mem := mem } := by
  have hold : ∀ m' msg, s.msgs.msg m' = some msg → m' ≠ m := by
    rintro m' msg hmsg rfl
    simp [hnew] at hmsg
  have hbox : BoxesKept s.msgs (s.msgs.newMsg p m id ()) := BoxesKept.refl s.msgs
  constructor
  case recieved =>
    intro m' msg hmsg hstate
    simp only [msgs, newMsg, setMsg, update_apply] at hmsg
    by_cases heq : m' = m
    · rw [if_pos heq, Option.some_inj] at hmsg
      simp [← hmsg] at hstate
    · rw [if_neg heq] at hmsg
      exact (h.recieved m' msg hmsg hstate).imp_right fun hr ↦ hr.mono (List.Subset.refl _) hbox
  case take => exact h.take
  case wait => exact h.wait
  case state =>
    intro t m' q ht
    obtain ⟨⟨msg, hmsg, howner⟩, hfree⟩ := h.state t m' q ht
    refine ⟨⟨msg, ?_, howner⟩, hfree⟩
    simpa [msgs, newMsg, setMsg, update_of_ne (hold m' msg hmsg)] using hmsg
  case copy => exact fun t m' q ht ↦ (h.copy t m' q ht).mono (List.Subset.refl _) hbox
  case answers => exact h.answers.mono hbox
  case own => exact h.own
  case buf =>
    grind [h.buf]
  case bound =>
    intro x hx
    obtain rfl | hx := List.mem_cons.mp hx
    · exact hbound
    · exact h.bound x hx

variable {note : Note π μ β} {control : ReadControl π τ μ β}

section

variable (h : Inv proc s)
include h

theorem inv_takeFirst {msgs : Msgs π τ μ β Unit} {box : MsgBox π τ μ} (hidle : s.control.reads now = .idle)
    (hkept : Kept s.msgs msgs) (hbox : s.msgs.box b = some box) (howner : box.owner = proc now)
    (hls : ∀ box', msgs.box b = some box' → box'.msgLs = box.msgLs)
    (hlooks : ∀ m, box.msgLs.head? = some m → ∀ t q, s.control.reads t ≠ .state m q)
    (hact : s.control.takeFirst msgs now b = .ok (note, control)) :
    note = .nothing ∧ Inv proc { s with control := control } := by
  unfold ReadControl.takeFirst at hact
  obtain ⟨⟨m, msgs'⟩, htake, hact⟩ := bind_eq_ok.mp hact
  cases hact
  obtain ⟨box', msg, rest, hbox', -, hls', hmsg, -, rfl⟩ := takeFirst_eq_ok.mp htake
  refine ⟨rfl, ?_⟩
  have hhead : box.msgLs.head? = some m := by rw [← hls box' hbox', hls']; rfl
  have hboxes : BoxesKept s.msgs ((msgs.setBox b { box' with msgLs := rest }).setMsg m
      { msg with state := .recieved }) := by
    intro c cbox hc
    obtain ⟨cbox', hc', hcowner⟩ := hkept.box c cbox hc
    simp only [setMsg, setBox, update_apply]
    grind
  have htakes : ∀ t c m', s.control.reads t = .take c m' → t ≠ now := by
    rintro t c m' ht rfl
    simp [hidle] at ht
  constructor
  case recieved =>
    intro m' msg' hmsg' hstate
    simp only [Reads.msgs, ReadControl.goto, Mail.lockBox, setMsg, update_apply] at hmsg'
    by_cases heq : m' = m
    · exact .inl ⟨now, b, by simp [ReadControl.goto, heq]⟩
    · rw [if_neg heq] at hmsg'
      obtain ⟨msg₀, hmsg₀, hstate₀, howner₀⟩ := hkept.recieved m' msg' hmsg' hstate
      obtain ⟨t, c, ht⟩ | hreceived := h.recieved m' msg₀ hmsg₀ hstate₀
      · exact .inl ⟨t, c, by simpa [ReadControl.goto, update_of_ne (htakes t c m' ht)] using ht⟩
      · exact .inr (howner₀ ▸ hreceived.mono (List.Subset.refl _) hboxes)
  case take =>
    intro t c m' ht
    simp only [ReadControl.goto, update_apply] at ht
    refine hboxes.owner ?_
    grind [h.take]
  case wait =>
    intro t c ht
    exact hboxes.owner (h.wait t c ht)
  case state =>
    intro t m' q ht
    simp only [ReadControl.goto, update_apply] at ht
    split_ifs at ht with heq
    obtain ⟨⟨msg₀, hmsg₀, howner₀⟩, hfree⟩ := h.state t m' q ht
    have hne : m' ≠ m := by
      rintro rfl
      exact hlooks m' hhead t q ht
    obtain ⟨msg₁, hmsg₁, howner₁⟩ := hkept.msg m' msg₀ hmsg₀
    refine ⟨⟨msg₁, ?_, howner₁.trans howner₀⟩, ?_⟩
    · simpa [Reads.msgs, ReadControl.goto, Mail.lockBox, setMsg, setBox, update_of_ne hne] using hmsg₁
    · intro u c hu
      simp only [ReadControl.goto, update_apply] at hu
      split_ifs at hu
      · exact hne (ReadPoint.take.inj hu).2.symm
      · exact hfree u c hu
  case copy =>
    intro t m' q ht
    simp only [ReadControl.goto, update_apply] at ht
    split_ifs at ht
    exact (h.copy t m' q ht).mono (List.Subset.refl _) hboxes
  case answers => exact h.answers.mono hboxes
  case own => exact fun p c m' hmem ↦ hboxes.owner (h.own p c m' hmem)
  case buf => exact h.buf
  case bound => exact h.bound

theorem inv_takeSecond (hat : s.control.reads now = .take b m)
    (hact : s.control.takeSecond (proc now) now b m = .ok (note, control)) : note = .recieved (proc now) b m ∧
      Inv proc { s with control := control, log := s.log ++ [.recieved (proc now) b m] } := by
  unfold ReadControl.takeSecond at hact
  obtain ⟨msgs, htake, hact⟩ := bind_eq_ok.mp hact
  cases hact
  obtain ⟨box, msg, hbox, hmsg, rfl⟩ := takeSecond_eq_ok.mp htake
  refine ⟨rfl, ?_⟩
  obtain ⟨box₀, hbox₀, howner⟩ := h.take now b m hat
  obtain rfl : box = box₀ := Option.some_inj.mp (hbox.symm.trans hbox₀)
  have hsubset : s.log ⊆ s.log ++ [.recieved (proc now) b m] := subset_append_left _ _
  have hboxes : BoxesKept s.msgs ((s.msgs.setBox b { box with nmsg := box.nmsg - 1 }).setMsg m
      { msg with owner := proc now }) := by
    intro c cbox hc
    change s.msgs.box b = some box at hbox
    simp only [setMsg, setBox, update_apply]
    grind
  have hreceived : Received (s.log ++ [.recieved (proc now) b m])
      ((s.msgs.setBox b { box with nmsg := box.nmsg - 1 }).setMsg m { msg with owner := proc now })
      (proc now) m :=
    ⟨b, { box with nmsg := box.nmsg - 1 }, by simp, by simp [setMsg, setBox], howner⟩
  constructor
  case recieved =>
    intro m' msg' hmsg' hstate
    simp only [Reads.msgs, ReadControl.goto, Mail.lockBox, Mail.goto, setMsg, setBox, update_apply] at hmsg'
    by_cases heq : m' = m
    · rw [if_pos heq, Option.some_inj] at hmsg'
      rw [← hmsg', heq]
      exact .inr hreceived
    · rw [if_neg heq] at hmsg'
      obtain ⟨t, c, ht⟩ | hold := h.recieved m' msg' hmsg' hstate
      · refine .inl ⟨t, c, ?_⟩
        have hne : t ≠ now := by
          rintro rfl
          exact heq (ReadPoint.take.inj (ht.symm.trans hat)).2
        simpa [ReadControl.goto, update_of_ne hne] using ht
      · exact .inr (hold.mono hsubset hboxes)
  case take =>
    intro t c m' ht
    simp only [ReadControl.goto, update_apply] at ht
    split_ifs at ht
    exact hboxes.owner (h.take t c m' ht)
  case wait =>
    intro t c ht
    simp only [ReadControl.goto, Mail.goto, Mail.lockBox, update_apply] at ht
    split_ifs at ht
    exact hboxes.owner (h.wait t c ht)
  case state =>
    intro t m' q ht
    simp only [ReadControl.goto, update_apply] at ht
    split_ifs at ht
    obtain ⟨⟨msg₀, hmsg₀, howner₀⟩, hfree⟩ := h.state t m' q ht
    have hne : m' ≠ m := by
      rintro rfl
      exact hfree now b hat
    refine ⟨⟨msg₀, ?_, howner₀⟩, ?_⟩
    · simpa [Reads.msgs, ReadControl.goto, Mail.lockBox, Mail.goto, setMsg, setBox, update_of_ne hne] using hmsg₀
    · intro u c hu
      simp only [ReadControl.goto, update_apply] at hu
      split_ifs at hu
      exact hfree u c hu
  case copy =>
    intro t m' q ht
    simp only [ReadControl.goto, update_apply] at ht
    split_ifs at ht
    exact (h.copy t m' q ht).mono hsubset hboxes
  case answers => exact (h.answers.mono hboxes).append (by simp)
  case own =>
    intro p c m' hmem
    refine hboxes.owner ?_
    grind [h.own]
  case buf => exact h.buf
  case bound => exact h.bound

theorem Inv.received (hat : s.control.reads now = .state m q) {msg : Msg π Unit}
    (hmsg : s.msgs.msg m = some msg) (hstate : msg.state = .recieved) : Received s.log s.msgs (proc now) m := by
  grind [h.state, h.recieved]

theorem inv_look {passes : Msg π Unit → Bool} {next : ReadPoint μ β}
    (hat : ∀ b m, s.control.reads now ≠ .take b m)
    (hnext : ∀ msg, s.msgs.msg m = some msg → passes msg →
      Inv proc { s with control := s.control.goto now next })
    (hact : s.control.look (proc now) now m q passes next = .ok (note, control))
    (hrecord : record { s with control := control } note = .ok s') : Inv proc s' := by
  unfold ReadControl.look at hact
  obtain ⟨msg, hmsg, hact⟩ := bind_eq_ok.mp hact
  split_ifs at hact with hpasses
  · cases hact
    cases hrecord
    exact hnext msg (msgOf_eq_ok.mp hmsg) hpasses
  · cases hact
    cases hrecord
    exact Inv.logged (h.advance hat (by simp) (by simp) (by simp)) (by simp [Answer.isOk])

theorem inv_recieveSection {isBlock : Bool} (hidle : s.control.reads now = .idle)
    (hlooks : ∀ box m, s.msgs.box b = some box → box.msgLs.head? = some m → ∀ t q, s.control.reads t ≠ .state m q)
    (hact : s.control.recieveSection (proc now) now b isBlock = .ok (note, control)) :
    note = .nothing ∧ Inv proc { s with control := control } := by
  unfold ReadControl.recieveSection at hact
  obtain ⟨_, -, hact⟩ := bind_eq_ok.mp hact
  obtain ⟨⟨r, msgs⟩, htest, hact⟩ := bind_eq_ok.mp hact
  have hwait : ∀ at' : MailPoint μ β, (∀ c, at' = .recieveWait c →
      ∃ box, s.msgs.box c = some box ∧ box.owner = proc now) → ∀ t c,
      update s.control.mail.point now at' t = .recieveWait c →
        s.control.mail.point t = .recieveWait c ∨ ∃ box, s.msgs.box c = some box ∧ box.owner = proc t := by grind
  obtain ⟨box, hbox, ⟨err, rfl, rfl⟩ | ⟨rfl, rfl, howner, -⟩ | ⟨rfl, -, howner, -, -, rfl⟩⟩ :=
    recieveTest_cases htest
  · cases hact
    exact ⟨rfl, h.mail (.of_eq rfl rfl) (hwait .idle (by simp))⟩
  · exact inv_takeFirst h hidle (.of_eq rfl rfl) hbox howner
      (fun box' hbox' ↦ by rw [Option.some_inj.mp (hbox.symm.trans hbox')])
      (fun m ↦ hlooks box m hbox) hact
  · cases hact
    refine ⟨rfl, h.mail (kept_setBox hbox rfl) (hwait (.recieveWait b) ?_)⟩
    rintro c hc
    obtain rfl := MailPoint.recieveWait.inj hc
    exact ⟨box, hbox, howner⟩

theorem inv_recieveAgain (hidle : s.control.reads now = .idle)
    (hat : s.control.mail.point now = .recieveWait b)
    (hlooks : ∀ box m, s.msgs.box b = some box → box.msgLs.head? = some m → ∀ t q, s.control.reads t ≠ .state m q)
    (hact : s.control.recieveAgain now b = .ok (note, control)) :
    note = .nothing ∧ Inv proc { s with control := control } := by
  unfold ReadControl.recieveAgain at hact
  obtain ⟨_, -, hact⟩ := bind_eq_ok.mp hact
  obtain ⟨msgs, hagain, hact⟩ := bind_eq_ok.mp hact
  obtain ⟨box, hbox, rfl⟩ := recieveAgain_eq_ok.mp hagain
  obtain ⟨box', hbox', howner⟩ := h.wait now b hat
  obtain rfl : box = box' := Option.some_inj.mp (hbox.symm.trans hbox')
  have hkept : Kept s.msgs (s.msgs.setBox b { box with state := .rcvable }) := kept_setBox hbox rfl
  refine inv_takeFirst h hidle hkept hbox howner ?_ (fun m ↦ hlooks box m hbox) hact
  intro box₁ hbox₁
  obtain rfl : { box with state := .rcvable } = box₁ := by simpa [setBox] using hbox₁
  rfl

end

theorem looks_of_separated (hat : (∃ isBlock, s.control.mail.point now = .recieve b isBlock) ∨
      s.control.mail.point now = .recieveWait b)
    (hallowed : match s.nextOf now with
      | some m => ∀ t, ¬ (s.control.reads t).Looks m
      | none => True) :
    ∀ box m, s.msgs.box b = some box → box.msgLs.head? = some m → ∀ t q, s.control.reads t ≠ .state m q := by
  intro box m hbox hhead t q
  have hnext : s.nextOf now = some m := by obtain ⟨isBlock, hat⟩ | hat := hat <;> simp [nextOf, hat, hbox, hhead]
  rw [hnext] at hallowed
  exact ReadPoint.not_looks (hallowed t) q

theorem inv_step (h : Inv proc s) (hallowed : s.Separated a) (hact : s.act proc a = .ok s') : Inv proc s' := by
  obtain ⟨⟨note, control⟩, hact, hrecord⟩ := bind_eq_ok.mp hact
  cases a with
  | mail a =>
    obtain ⟨_, hguard, hact⟩ := bind_eq_ok.mp hact
    obtain ⟨mail, hmail, hact⟩ := bind_eq_ok.mp hact
    cases hact
    cases hrecord
    obtain ⟨hkept, hwait⟩ := kept_of_plain hmail (assert_eq_ok.mp hguard).2
    exact h.mail hkept fun t b ht ↦ .inl (hwait t b ht)
  | newMsg now m id addr data =>
    obtain ⟨_, -, hact⟩ := bind_eq_ok.mp hact
    obtain ⟨mail, hmail, hact⟩ := bind_eq_ok.mp hact
    cases hact
    obtain ⟨_, hnew, hmail⟩ := bind_eq_ok.mp hmail
    cases hmail
    obtain ⟨_, hfresh, hrecord⟩ := bind_eq_ok.mp hrecord
    cases hrecord
    exact inv_newMsg h (Option.isNone_iff_eq_none.mp (assert_eq_ok.mp hnew).2.1)
      (assert_eq_ok.mp hfresh).1
  | recieveSection now =>
    obtain ⟨_, hidle, hact⟩ := bind_eq_ok.mp hact
    split at hact
    · next b isBlock hat =>
      obtain ⟨rfl, hinv⟩ := inv_recieveSection h (assert_eq_ok.mp hidle)
        (looks_of_separated (.inl ⟨isBlock, hat⟩) hallowed) hact
      cases hrecord
      exact hinv
    · cases hact
  | recieveAgain now =>
    obtain ⟨_, hidle, hact⟩ := bind_eq_ok.mp hact
    split at hact
    · next b hat =>
      obtain ⟨rfl, hinv⟩ := inv_recieveAgain h (assert_eq_ok.mp hidle) hat
        (looks_of_separated (.inr hat) hallowed) hact
      cases hrecord
      exact hinv
    · cases hact
  | takeSecond now =>
    simp only [ReadControl.act] at hact
    split at hact
    · next b m hat =>
      obtain ⟨rfl, hinv⟩ := inv_takeSecond h hat hact
      cases hrecord
      exact hinv
    · cases hact
  | call now msgId q =>
    obtain ⟨_, hguard, hact⟩ := bind_eq_ok.mp hact
    have hidle := (assert_eq_ok.mp hguard).2.1
    split at hact
    · cases hact
      cases hrecord
      exact h.logged (by simp [Answer.isOk])
    · cases hact
      cases hrecord
      exact h.advance (by simp [hidle]) (by simp) (by simp) (by simp)
  | readLock now =>
    simp only [ReadControl.act] at hact
    split at hact
    · next m q hat =>
      obtain ⟨_, -, hact⟩ := bind_eq_ok.mp hact
      cases hact
      cases hrecord
      exact h.locked.advance (by simp [hat]) (by simp) (by simp) (by simp)
    · cases hact
  | readOwner now =>
    simp only [ReadControl.act] at hact
    split at hact
    · next m q hat =>
      refine inv_look h (by simp [hat]) (fun msg hmsg howner ↦ ?_) hact hrecord
      refine h.advance (by simp [hat]) (by simp) ?_ (by simp)
      rintro m' q' heq
      obtain ⟨rfl, rfl⟩ := ReadPoint.state.inj heq
      simp only [Separated, hat] at hallowed
      exact ⟨⟨msg, hmsg, by simpa using howner⟩, fun u b ↦ ReadPoint.not_takes (hallowed u) b⟩
    · cases hact
  | readState now =>
    simp only [ReadControl.act] at hact
    split at hact
    · next m q hat =>
      refine inv_look h (by simp [hat]) (fun msg hmsg hstate ↦ ?_) hact hrecord
      refine h.advance (by simp [hat]) (by simp) (by simp) ?_
      grind [h.received]
    · cases hact
  | readCopy now =>
    simp only [ReadControl.act] at hact
    split at hact
    · next m q hat =>
      cases hact
      cases hrecord
      exact Inv.logged (h.advance (by simp [hat]) (by simp) (by simp) (by simp))
        fun _ ↦ ⟨m, rfl, h.copy now m q hat⟩
    · cases hact
  | readUnlock now =>
    simp only [ReadControl.act] at hact
    split at hact
    · next m hat =>
      cases hact
      cases hrecord
      exact h.locked.advance (by simp [hat]) (by simp) (by simp) (by simp)
    · cases hact

theorem inv_init (h : Init s) : Inv proc s := by
  obtain ⟨hcontrol, hbuf, hallocated, hlog⟩ := h
  constructor <;> simp [msgs, hcontrol, hbuf, hallocated, hlog, Mail.initial, AnswersReceived]

end Steps

end Reads

end Lanthorn
