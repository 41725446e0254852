import Lanthorn.Msg.Msg

/-!
# Delivery of messages

The operations of `msg.c` by any number of threads, interleaved. An operation looks up its message or
box, takes locks and runs a section under them; each of these is a step, and a section under the lock
of a box is one step. A message or box that is deleted stays locked, since `msg_delmsg` and `msg_delbox`
return without unlocking, so that an operation that had looked it up before never goes on.

`Mail.delivery_contract` is the contract in every reachable state: a box counts the messages in its list,
the lists hold the messages that are sent and not received, each once, states only go forward, and what
has been received from a box is what was sent to it first, in the same order.
-/

set_option linter.unusedSectionVars false

namespace Lanthorn

open Function

open Library Msgs

/-- Where a thread stands in the operations of `msg.c`. -/
inductive MailPoint (μ β : Type)
  | idle
  /-- `msg_send` before the lock of the message. -/
  | sendMsg (boxId : ℕ) (m : μ)
  /-- `msg_send` before it looks up the box. -/
  | sendFind (boxId : ℕ) (m : μ)
  /-- `msg_send` before the lock of the box. -/
  | sendBox (b : β) (m : μ)
  /-- `msg_send` before it unlocks the message. -/
  | sendUnlock (m : μ)
  /-- `msg_recieve` before the lock of the box. -/
  | recieve (b : β) (isBlock : Bool)
  /-- `msg_recieve` in `schd_block` or before it has the lock again. -/
  | recieveWait (b : β)
  /-- `msg_delmsg` before the lock of the message. -/
  | delMsg (m : μ)
  /-- `msg_delmsg` between the tests of the owner and of the state. -/
  | delMsgState (m : μ)
  /-- `msg_delbox` before the lock of the box. -/
  | delBox (b : β)
  deriving DecidableEq, Repr

/-- The messages and boxes, their locks, the threads, and what has been sent to and received from each
box so far. -/
structure Mail (π τ μ β γ : Type) where
  msgs : Msgs π τ μ β γ
  /-- The threads that hold the locks. -/
  msgLock : μ → Option τ
  boxLock : β → Option τ
  point : τ → MailPoint μ β
  sent : β → List μ
  recieved : β → List μ

namespace Mail

variable {π τ μ β γ : Type} [DecidableEq π] [DecidableEq τ] [DecidableEq μ] [DecidableEq β]

def goto (s : Mail π τ μ β γ) (now : τ) (at' : MailPoint μ β) : Mail π τ μ β γ :=
  { s with point := update s.point now at' }

def lockMsg (s : Mail π τ μ β γ) (m : μ) (holder : Option τ) : Mail π τ μ β γ :=
  { s with msgLock := update s.msgLock m holder }

def lockBox (s : Mail π τ μ β γ) (b : β) (holder : Option τ) : Mail π τ μ β γ :=
  { s with boxLock := update s.boxLock b holder }

/-- What happens next: a thread calls an operation, or goes on in one. -/
inductive Action (τ μ β γ : Type)
  | newMsg (now : τ) (m : μ) (id : ℕ) (body : γ)
  | newBox (now : τ) (b : β) (id : ℕ)
  | send (now : τ) (boxId msgId : ℕ)
  | sendLock (now : τ)
  | sendFind (now : τ)
  | sendSection (now : τ)
  | sendUnlock (now : τ)
  | recieve (now : τ) (boxId : ℕ) (isBlock : Bool)
  | recieveSection (now : τ)
  | recieveAgain (now : τ)
  | delMsg (now : τ) (msgId : ℕ)
  | delMsgTest (now : τ)
  | delMsgSection (now : τ)
  | delBox (now : τ) (boxId : ℕ)
  | delBoxSection (now : τ)

/-- What has been sent after a `msg_send` that returns `err`. -/
def sentTo (s : Mail π τ μ β γ) (err : Errno) (b : β) (m : μ) : β → List μ :=
  if err = .ok then update s.sent b (s.sent b ++ [m]) else s.sent

/-- The section of `msg_send`. `schd_run` on a null pointer is a fault. -/
def sendSection (s : Mail π τ μ β γ) (p : π) (now : τ) (b : β) (m : μ) : Result (Mail π τ μ β γ) := do
  assert (s.boxLock b = none)
  let (err, wake, msgs) ← s.msgs.sendMsg p b m
  if wake = some none then .error .null
  else
    return ({ s with msgs := msgs, sent := s.sentTo err b m }).goto now (.sendUnlock m)

def recieveOne (s : Mail π τ μ β γ) (p : π) (now : τ) (b : β) : Result (Mail π τ μ β γ) := do
  let (m, msgs) ← s.msgs.take p b
  let recieved := update s.recieved b (s.recieved b ++ [m])
  return ({ s with msgs := msgs, recieved := recieved }).goto now .idle

/-- The first section of `msg_recieve`, up to a receipt or to the point where it blocks. -/
def recieveSection (s : Mail π τ μ β γ) (p : π) (now : τ) (b : β) (isBlock : Bool) : Result (Mail π τ μ β γ) := do
  assert (s.boxLock b = none)
  let (r, msgs) ← s.msgs.recieveTest now p b isBlock
  match r with
  | .fail _ => return s.goto now .idle
  | .block => return ({ s with msgs := msgs }).goto now (.recieveWait b)
  | .ready => recieveOne { s with msgs := msgs } p now b

/-- The second section of a blocking `msg_recieve`. -/
def recieveAgain (s : Mail π τ μ β γ) (p : π) (now : τ) (b : β) : Result (Mail π τ μ β γ) := do
  assert (s.boxLock b = none)
  let msgs ← s.msgs.recieveAgain b
  recieveOne { s with msgs := msgs } p now b

/-- `msg_delmsg` up to the test of the owner. -/
def delMsgTest (s : Mail π τ μ β γ) (p : π) (now : τ) (m : μ) : Result (Mail π τ μ β γ) := do
  assert (s.msgLock m = none)
  let err ← s.msgs.delMsgTest p m
  if err = .ok then return (s.lockMsg m (some now)).goto now (.delMsgState m)
  else return s.goto now .idle

/-- The rest of `msg_delmsg`; a deleted message stays locked. -/
def delMsgSection (s : Mail π τ μ β γ) (now : τ) (m : μ) : Result (Mail π τ μ β γ) := do
  let (err, msgs) ← s.msgs.delMsg m
  if err = .ok then return ({ s with msgs := msgs }).goto now .idle
  else return (s.lockMsg m none).goto now .idle

/-- The section of `msg_delbox`; a deleted box stays locked. -/
def delBoxSection (s : Mail π τ μ β γ) (p : π) (now : τ) (b : β) : Result (Mail π τ μ β γ) := do
  assert (s.boxLock b = none)
  let (err, msgs) ← s.msgs.delBox p b
  if err = .ok then return (lockBox { s with msgs := msgs } b (some now)).goto now .idle
  else return s.goto now .idle

/-- The outcome of an action; `proc` gives the process of each thread. An action that does not belong
where the thread stands is refused by an assertion, and so is taking a lock that is held. -/
def act (proc : τ → π) (s : Mail π τ μ β γ) : Action τ μ β γ → Result (Mail π τ μ β γ)
  | .newMsg now m id body => do
    assert (s.point now = .idle ∧ (s.msgs.msg m).isNone ∧ (s.msgs.msgAlct id).isNone)
    return { s with msgs := s.msgs.newMsg (proc now) m id body }
  | .newBox now b id => do
    assert (s.point now = .idle ∧ (s.msgs.box b).isNone ∧ (s.msgs.boxAlct id).isNone)
    return { s with msgs := s.msgs.newBox (proc now) b id }
  | .send now boxId msgId => do
    assert (s.point now = .idle)
    match s.msgs.msgAlct msgId with
    | none => return s
    | some m => return s.goto now (.sendMsg boxId m)
  | .sendLock now =>
    match s.point now with
    | .sendMsg boxId m => do
      assert (s.msgLock m = none)
      return (s.lockMsg m (some now)).goto now (.sendFind boxId m)
    | _ => .error .assertion
  | .sendFind now =>
    match s.point now with
    | .sendFind boxId m =>
      match s.msgs.boxAlct boxId with
      | none => .ok (s.goto now (.sendUnlock m))
      | some b => .ok (s.goto now (.sendBox b m))
    | _ => .error .assertion
  | .sendSection now =>
    match s.point now with
    | .sendBox b m => s.sendSection (proc now) now b m
    | _ => .error .assertion
  | .sendUnlock now =>
    match s.point now with
    | .sendUnlock m => .ok ((s.lockMsg m none).goto now .idle)
    | _ => .error .assertion
  | .recieve now boxId isBlock => do
    assert (s.point now = .idle)
    match s.msgs.boxAlct boxId with
    -- On an unknown id, `mutex_unlock` is called for a null pointer.
    | none => .error .null
    | some b => return s.goto now (.recieve b isBlock)
  | .recieveSection now =>
    match s.point now with
    | .recieve b isBlock => s.recieveSection (proc now) now b isBlock
    | _ => .error .assertion
  | .recieveAgain now =>
    match s.point now with
    | .recieveWait b => s.recieveAgain (proc now) now b
    | _ => .error .assertion
  | .delMsg now msgId => do
    assert (s.point now = .idle)
    match s.msgs.msgAlct msgId with
    | none => return s
    | some m => return s.goto now (.delMsg m)
  | .delMsgTest now =>
    match s.point now with
    | .delMsg m => s.delMsgTest (proc now) now m
    | _ => .error .assertion
  | .delMsgSection now =>
    match s.point now with
    | .delMsgState m => s.delMsgSection now m
    | _ => .error .assertion
  | .delBox now boxId => do
    assert (s.point now = .idle)
    match s.msgs.boxAlct boxId with
    | none => return s
    | some b => return s.goto now (.delBox b)
  | .delBoxSection now =>
    match s.point now with
    | .delBox b => s.delBoxSection (proc now) now b
    | _ => .error .assertion

/-- After `msg_init`. -/
def initial : Mail π τ μ β γ where
  msgs := ⟨fun _ ↦ none, fun _ ↦ none, fun _ ↦ none, fun _ ↦ none⟩
  msgLock _ := none
  boxLock _ := none
  point _ := .idle
  sent _ := []
  recieved _ := []

def system (γ : Type) (proc : τ → π) (μ β : Type) [DecidableEq μ] [DecidableEq β] :
    System (Mail π τ μ β γ) (Action τ μ β γ) :=
  .ofNext (· = initial) (act proc)

/-! ### The invariant -/

/-- How the boxes, the states of the messages and the histories fit together. -/
structure Inv (s : Msgs π τ μ β γ) (sent recieved : β → List μ) : Prop where
  nmsg : ∀ b box, s.box b = some box → box.nmsg = box.msgLs.length
  nodup : ∀ b box, s.box b = some box → box.msgLs.Nodup
  unique : ∀ b box b' box' m, s.box b = some box → s.box b' = some box' → m ∈ box.msgLs → m ∈ box'.msgLs → b = b'
  sended : ∀ b box m, s.box b = some box → m ∈ box.msgLs → ∃ msg, s.msg m = some msg ∧ msg.state = .sended
  in_box : ∀ m msg, s.msg m = some msg → msg.state = .sended → ∃ b box, s.box b = some box ∧ m ∈ box.msgLs
  history : ∀ b, sent b = recieved b ++ ((s.box b).elim [] fun box ↦ box.msgLs)

section Steps

variable {s : Msgs π τ μ β γ} {sent recieved : β → List μ} {p : π} {b : β} {m : μ}

section

variable (h : Inv s sent recieved)
include h

theorem inv_newMsg (hnew : s.msg m = none) {id : ℕ} {body : γ} : Inv (s.newMsg p m id body) sent recieved := by
  obtain ⟨hnmsg, hnodup, hunique, hsended, hbox, hhistory⟩ := h
  constructor <;> simp only [newMsg, setMsg, update_apply] <;> grind

theorem inv_newBox (hnew : s.box b = none) {id : ℕ} : Inv (s.newBox p b id) sent recieved := by
  obtain ⟨hnmsg, hnodup, hunique, hsended, hbox, hhistory⟩ := h
  constructor <;> simp only [newBox, setBox, update_apply] <;> grind

theorem inv_setBox {box : MsgBox π τ μ} (box' : MsgBox π τ μ) (hbox : s.box b = some box)
    (hnmsg : box'.nmsg = box.nmsg) (hls : box'.msgLs = box.msgLs) : Inv (s.setBox b box') sent recieved := by
  obtain ⟨hnmsg', hnodup, hunique, hsended, hbox', hhistory⟩ := h
  constructor <;> simp only [setBox, update_apply] <;> grind

theorem inv_push {box : MsgBox π τ μ} {msg : Msg π γ} (hbox : s.box b = some box) (hmsg : s.msg m = some msg)
    (hstate : msg.state = .unsend) : Inv ((s.setBox b (push box m)).setMsg m { msg with state := .sended })
      (update sent b (sent b ++ [m])) recieved := by
  have hnot : ∀ b' box', s.box b' = some box' → m ∉ box'.msgLs := fun b' box' hb' hm ↦ by grind [h.sended]
  obtain ⟨hnmsg, hnodup, hunique, hsended, hinbox, hhistory⟩ := h
  constructor
  case nodup =>
    intro b' box' hb'
    simp only [setMsg, setBox, push, update_apply] at hb'
    grind
  all_goals
    simp only [setMsg, setBox, push, update_apply]
    grind

theorem inv_take {box : MsgBox π τ μ} (msg : Msg π γ) {rest : List μ} (hbox : s.box b = some box)
    (hls : box.msgLs = m :: rest) : Inv ((s.setBox b { box with msgLs := rest, nmsg := box.nmsg - 1 }).setMsg m
      { msg with state := .recieved, owner := p }) sent
      (update recieved b (recieved b ++ [m])) := by
  obtain ⟨hnmsg, hnodup, hunique, hsended, hinbox, hhistory⟩ := h
  constructor <;> simp only [setMsg, setBox, update_apply] <;> grind

end

end Steps

/-! ### What a step does to the messages -/

/-- The changes a step can make to the messages, the boxes and the histories. -/
inductive Effect (s : Mail π τ μ β γ) : Mail π τ μ β γ → Prop
  | same {s'} (hmsg : s'.msgs.msg = s.msgs.msg) (hbox : s'.msgs.box = s.msgs.box)
    (hsent : s'.sent = s.sent) (hrecieved : s'.recieved = s.recieved) : Effect s s'
  | newMsg {s'} {p : π} {m : μ} {id : ℕ} {body : γ} (hnew : s.msgs.msg m = none)
    (hmsgs : s'.msgs = s.msgs.newMsg p m id body) (hsent : s'.sent = s.sent)
    (hrecieved : s'.recieved = s.recieved) : Effect s s'
  | newBox {s'} {p : π} {b : β} {id : ℕ} (hnew : s.msgs.box b = none)
    (hmsgs : s'.msgs = s.msgs.newBox p b id) (hsent : s'.sent = s.sent)
    (hrecieved : s'.recieved = s.recieved) : Effect s s'
  | mark {s'} {b : β} {box : MsgBox π τ μ} {state : BoxState} {thread : Option τ}
    (hbox : s.msgs.box b = some box)
    (hmsgs : s'.msgs = s.msgs.setBox b { box with state := state, blkThread := thread })
    (hsent : s'.sent = s.sent) (hrecieved : s'.recieved = s.recieved) : Effect s s'
  | send {s'} {b : β} {m : μ} {box : MsgBox π τ μ} {msg : Msg π γ} (hbox : s.msgs.box b = some box)
    (hmsg : s.msgs.msg m = some msg) (hstate : msg.state = .unsend)
    (hmsgs : s'.msgs = (s.msgs.setBox b (push box m)).setMsg m { msg with state := .sended })
    (hsent : s'.sent = update s.sent b (s.sent b ++ [m]))
    (hrecieved : s'.recieved = s.recieved) : Effect s s'
  | recieve {s'} (p : π) (state : BoxState) {b : β} {m : μ} {box : MsgBox π τ μ} {msg : Msg π γ}
    {rest : List μ} (hbox : s.msgs.box b = some box) (hls : box.msgLs = m :: rest)
    (hmsg : s.msgs.msg m = some msg) (hstate : msg.state = .sended)
    (hmsgs : s'.msgs = (s.msgs.setBox b { box with state := state, msgLs := rest, nmsg := box.nmsg - 1 }).setMsg m
        { msg with state := .recieved, owner := p })
    (hsent : s'.sent = s.sent)
    (hrecieved : s'.recieved = update s.recieved b (s.recieved b ++ [m])) : Effect s s'

section Effects

variable {proc : τ → π} {s s' : Mail π τ μ β γ} {a : Action τ μ β γ} {p : π} {now : τ} {b : β} {m : μ}

theorem effect_sendSection (h : s.sendSection p now b m = .ok s') : Effect s s' := by
  unfold sendSection at h
  obtain ⟨_, -, h⟩ := bind_eq_ok.mp h
  obtain ⟨⟨err, wake, msgs⟩, hsend, h⟩ := bind_eq_ok.mp h
  simp only at h
  split_ifs at h
  cases h
  obtain ⟨herr, -, rfl⟩ | ⟨msg, box, hmsg, hbox, -, hstate, rfl, -, rfl⟩ := sendMsg_cases hsend
  · exact .same rfl rfl (if_neg herr) rfl
  · exact .send hbox hmsg hstate rfl rfl rfl

theorem effect_recieveOne {box : MsgBox π τ μ} (state : BoxState) (hbox : s.msgs.box b = some box)
    (h : recieveOne { s with msgs := s.msgs.setBox b { box with state := state } } p now b = .ok s') :
    Effect s s' := by
  unfold recieveOne at h
  obtain ⟨⟨m, msgs⟩, htake, h⟩ := bind_eq_ok.mp h
  cases h
  obtain ⟨box', msg, rest, hbox', -, hls, hmsg, hstate, rfl⟩ := take_cases htake
  obtain rfl : { box with state := state } = box' := by simpa [setBox] using hbox'
  refine .recieve p state hbox hls hmsg hstate ?_ rfl rfl
  simp [goto, setMsg, setBox, update_idem]

theorem effect_recieveSection {isBlock : Bool} (h : s.recieveSection p now b isBlock = .ok s') : Effect s s' := by
  unfold recieveSection at h
  obtain ⟨_, -, h⟩ := bind_eq_ok.mp h
  obtain ⟨⟨r, msgs⟩, htest, h⟩ := bind_eq_ok.mp h
  obtain ⟨box, hbox, ⟨err, rfl, rfl⟩ | ⟨rfl, rfl, -⟩ | ⟨rfl, -, -, -, -, rfl⟩⟩ :=
    recieveTest_cases htest
  · cases h
    exact .same rfl rfl rfl rfl
  · have hsame : s.msgs.setBox b { box with state := box.state } = s.msgs := by simp [setBox, ← hbox]
    exact effect_recieveOne box.state hbox (by rw [hsame]; exact h)
  · cases h
    exact .mark hbox rfl rfl rfl

theorem effect_recieveAgain (h : s.recieveAgain p now b = .ok s') : Effect s s' := by
  unfold recieveAgain at h
  obtain ⟨_, -, h⟩ := bind_eq_ok.mp h
  obtain ⟨msgs, hagain, h⟩ := bind_eq_ok.mp h
  obtain ⟨box, hbox, rfl⟩ := recieveAgain_eq_ok.mp hagain
  exact effect_recieveOne .rcvable hbox h

theorem effect_delMsgTest (h : s.delMsgTest p now m = .ok s') : Effect s s' := by
  unfold delMsgTest at h
  obtain ⟨_, -, h⟩ := bind_eq_ok.mp h
  obtain ⟨err, -, h⟩ := bind_eq_ok.mp h
  split_ifs at h <;> obtain rfl := Except.ok.inj h <;> exact .same rfl rfl rfl rfl

theorem effect_delMsgSection (h : s.delMsgSection now m = .ok s') : Effect s s' := by
  unfold delMsgSection at h
  obtain ⟨⟨err, msgs⟩, hdel, h⟩ := bind_eq_ok.mp h
  obtain ⟨-, rfl⟩ | ⟨msg, -, -, -, rfl⟩ := delMsg_cases hdel
  all_goals
    simp only at h
    split_ifs at h <;> obtain rfl := Except.ok.inj h <;> exact .same rfl rfl rfl rfl

theorem effect_delBoxSection (h : s.delBoxSection p now b = .ok s') : Effect s s' := by
  unfold delBoxSection at h
  obtain ⟨_, -, h⟩ := bind_eq_ok.mp h
  obtain ⟨⟨err, msgs⟩, hdel, h⟩ := bind_eq_ok.mp h
  obtain ⟨-, rfl⟩ | ⟨box, -, -, -, -, rfl⟩ := delBox_cases hdel
  all_goals
    simp only at h
    split_ifs at h <;> obtain rfl := Except.ok.inj h <;> exact .same rfl rfl rfl rfl

theorem effect_of_act (h : s.act proc a = .ok s') : Effect s s' := by
  cases a with
  | newMsg now m id body =>
    obtain ⟨_, hguard, h⟩ := bind_eq_ok.mp h
    cases h
    exact .newMsg (Option.isNone_iff_eq_none.mp (assert_eq_ok.mp hguard).2.1) rfl rfl rfl
  | newBox now b id =>
    obtain ⟨_, hguard, h⟩ := bind_eq_ok.mp h
    cases h
    exact .newBox (Option.isNone_iff_eq_none.mp (assert_eq_ok.mp hguard).2.1) rfl rfl rfl
  | send now boxId msgId | delMsg now msgId | recieve now boxId isBlock | delBox now boxId =>
    obtain ⟨_, -, h⟩ := bind_eq_ok.mp h
    split at h <;> first | cases h; done | (obtain rfl := Except.ok.inj h; exact .same rfl rfl rfl rfl)
  | sendLock now =>
    simp only [act] at h
    split at h
    · obtain ⟨_, -, h⟩ := bind_eq_ok.mp h
      cases h
      exact .same rfl rfl rfl rfl
    · cases h
  | sendFind now =>
    simp only [act] at h
    split at h
    · split at h <;> obtain rfl := Except.ok.inj h <;> exact .same rfl rfl rfl rfl
    · cases h
  | sendSection now =>
    simp only [act] at h
    split at h
    · exact effect_sendSection h
    · cases h
  | sendUnlock now =>
    simp only [act] at h
    split at h
    · cases h
      exact .same rfl rfl rfl rfl
    · cases h
  | recieveSection now =>
    simp only [act] at h
    split at h
    · exact effect_recieveSection h
    · cases h
  | recieveAgain now =>
    simp only [act] at h
    split at h
    · exact effect_recieveAgain h
    · cases h
  | delMsgTest now =>
    simp only [act] at h
    split at h
    · exact effect_delMsgTest h
    · cases h
  | delMsgSection now =>
    simp only [act] at h
    split at h
    · exact effect_delMsgSection h
    · cases h
  | delBoxSection now =>
    simp only [act] at h
    split at h
    · exact effect_delBoxSection h
    · cases h

theorem inv_effect (h : Inv s.msgs s.sent s.recieved) (heffect : Effect s s') :
    Inv s'.msgs s'.sent s'.recieved := by
  cases heffect with
  | same hmsg hbox hsent hrecieved =>
    obtain ⟨hnmsg, hnodup, hunique, hsended, hinbox, hhistory⟩ := h
    rw [hsent, hrecieved]
    constructor <;> rw [hbox] <;> first | assumption | (rw [hmsg]; assumption)
  | newMsg hnew hmsgs hsent hrecieved =>
    rw [hmsgs, hsent, hrecieved]
    exact inv_newMsg h hnew
  | newBox hnew hmsgs hsent hrecieved =>
    rw [hmsgs, hsent, hrecieved]
    exact inv_newBox h hnew
  | mark hbox hmsgs hsent hrecieved =>
    rw [hmsgs, hsent, hrecieved]
    exact inv_setBox h _ hbox rfl rfl
  | send hbox hmsg hstate hmsgs hsent hrecieved =>
    rw [hmsgs, hsent, hrecieved]
    exact inv_push h hbox hmsg hstate
  | @recieve p state b m box msg rest hbox hls hmsg hstate hmsgs hsent hrecieved =>
    rw [hmsgs, hsent, hrecieved]
    have hmarked := inv_setBox h { box with state := state } hbox rfl rfl
    have htaken := inv_take (p := p) hmarked msg (update_self _ _ _) hls
    simpa [setMsg, setBox, update_idem] using htaken

theorem forward_effect (heffect : Effect s s') {msg : Msg π γ} (hmsg : s.msgs.msg m = some msg) :
    ∃ msg', s'.msgs.msg m = some msg' ∧ (msg'.state = msg.state ∨
      msg.state = .unsend ∧ msg'.state = .sended ∨ msg.state = .sended ∧ msg'.state = .recieved) := by
  cases heffect with
  | same hsame => exact ⟨msg, by rw [hsame, hmsg], .inl rfl⟩
  | newMsg hnew hmsgs | send hbox hmsg' hstate hmsgs | recieve p state hbox hls hmsg' hstate hmsgs =>
    rw [hmsgs]
    simp only [newMsg, setMsg, setBox, update_apply]
    grind
  | newBox hnew hmsgs | mark hbox hmsgs =>
    rw [hmsgs]
    exact ⟨msg, hmsg, .inl rfl⟩

end Effects

/-! ### The contract -/

structure Contract (proc : τ → π) (s : Mail π τ μ β γ) : Prop where
  nmsg_eq_length : ∀ b box, s.msgs.box b = some box → box.nmsg = box.msgLs.length
  listed_iff_sended : ∀ m, (∃ b box, s.msgs.box b = some box ∧ m ∈ box.msgLs) ↔
    ∃ msg, s.msgs.msg m = some msg ∧ msg.state = .sended
  listed_once : ∀ b box m, s.msgs.box b = some box → m ∈ box.msgLs → box.msgLs.count m = 1 ∧
    ∀ b' box', s.msgs.box b' = some box' → m ∈ box'.msgLs → b' = b
  state_forward : ∀ a s', (system γ proc μ β).step s a s' → ∀ m msg, s.msgs.msg m = some msg →
    ∃ msg', s'.msgs.msg m = some msg' ∧ (msg'.state = msg.state ∨
      msg.state = .unsend ∧ msg'.state = .sended ∨ msg.state = .sended ∧ msg'.state = .recieved)
  recieved_in_order : ∀ b, s.recieved b <+: s.sent b
  none_lost : ∀ b, s.sent b = s.recieved b ++ ((s.msgs.box b).elim [] fun box ↦ box.msgLs)

theorem Inv.contract {proc : τ → π} {s : Mail π τ μ β γ} (h : Inv s.msgs s.sent s.recieved) : s.Contract proc where
  nmsg_eq_length := h.nmsg
  listed_iff_sended m := by grind [h.sended, h.in_box]
  listed_once b box m hbox hm :=
    ⟨List.count_eq_one_of_mem (h.nodup b box hbox) hm,
      fun b' box' hbox' hm' ↦ h.unique b' box' b box m hbox' hbox hm' hm⟩
  state_forward _ _ hstep _ _ hmsg := forward_effect (effect_of_act hstep) hmsg
  recieved_in_order b := ⟨_, (h.history b).symm⟩
  none_lost := h.history

/-- The contract holds in every state that the operations of any number of threads reach. -/
theorem delivery_contract {proc : τ → π} {s : Mail π τ μ β γ} (h : (system γ proc μ β).Reachable s) :
    s.Contract proc := by
  have hinv : Inv s.msgs s.sent s.recieved := by
    refine h.invariant (P := fun s ↦ Inv s.msgs s.sent s.recieved) ?_ ?_
    · rintro s rfl
      constructor <;> simp [initial]
    · intro s a s' hinv hact
      exact inv_effect hinv (effect_of_act hact)
  exact hinv.contract

/-- A receiver of box 7 blocks, two threads send to the box, the receiver goes on, and one message is
deleted after its receipt. -/
def exampleActions : List (Action (Fin 3) (Fin 2) Unit ℕ) :=
  [.newBox 0 () 7, .recieve 0 7 true, .recieveSection 0, .newMsg 1 0 3 100, .newMsg 2 1 4 200,
    .send 1 7 3, .sendLock 1, .send 2 7 4, .sendLock 2, .sendFind 1, .sendFind 2, .sendSection 1,
    .sendUnlock 1, .recieveAgain 0, .delMsg 0 3, .delMsgTest 0, .delMsgSection 0, .sendSection 2]

/-- The contract at a state in which one of two messages has been received. -/
theorem delivery_contract_example :
    ∃ s : Mail (Fin 3) (Fin 3) (Fin 2) Unit ℕ, (system ℕ id (Fin 2) Unit).Reachable s ∧
      s.sent () = [0, 1] ∧ s.recieved () = [0] ∧ s.Contract id := by
  have hrun : (exampleActions.foldlM (act id) (initial : Mail (Fin 3) _ _ _ _)).map
      (fun s ↦ (s.sent (), s.recieved ())) = .ok ([0, 1], [0]) := by decide +kernel
  obtain ⟨s, hacts, hrun⟩ := map_eq_ok.mp hrun
  have hreach : (system ℕ id (Fin 2) Unit).Reachable s :=
    System.reachable_of_foldlM (.init rfl) hacts
  simp only [Prod.mk.injEq] at hrun
  exact ⟨s, hreach, hrun.1, hrun.2, delivery_contract hreach⟩

end Mail

end Lanthorn
