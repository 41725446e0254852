import Lanthorn.Msg.Delivery

/-!
# Requests and replies

The protocol of `srv.c` over the message layer: any number of threads are in `srv_call`, in `srv_called`
of a service, or answer with `srv_reply` what some `srv_called` has given out. A call makes a return box,
puts its id in the request and waits on the box; who replies sends to the id from the request. Creations,
sections under the lock of a box and readings are steps.

A reply says here for which request it was issued, which the message itself does not. In every reachable
state each call that has returned got the reply for its own request, and each request is given out once
at most and not lost (`Calls.reply_contract`).
-/

set_option linter.unusedSectionVars false

namespace Lanthorn

open Function

open Library Msgs

/-- What a message is for: a request with the id of its return box, or a reply to a request. -/
inductive Body (μ : Type)
  | request (sid : ℕ)
  | reply (req : μ)
  deriving DecidableEq, Repr

inductive CallPoint (μ β : Type)
  | idle
  /-- `srv_call` of the service with the box id, with the return box and its id. -/
  | callBox (boxId : ℕ) (r : β) (rid : ℕ)
  | callSend (boxId : ℕ) (m : μ) (r : β)
  | callRecieve (m : μ) (r : β)
  | callWait (m : μ) (r : β)
  /-- `srv_call` with the message that it has received. -/
  | callRead (m : μ) (r : β) (answer : μ)
  | called (b : β)
  | calledWait (b : β)
  | calledRead (m : μ)
  /-- `srv_reply` to the id, with the message that it has made. -/
  | replySend (sid : ℕ) (answer : μ)
  deriving DecidableEq, Repr

namespace CallPoint

variable {μ β : Type}

def unused : CallPoint μ β → Option ℕ
  | .callBox _ _ rid => some rid
  | _ => none

/-- The request that a `srv_called` has received and not given out yet. -/
def reading : CallPoint μ β → Option μ
  | .calledRead m => some m
  | _ => none

end CallPoint

/-- The message layer, the threads and what has happened. -/
structure Calls (π τ μ β : Type) where
  msgs : Msgs π τ μ β (Body μ)
  point : τ → CallPoint μ β
  /-- What `srv_called` has given out and nobody has replied to: a request and its `sid`. -/
  tickets : List (μ × ℕ)
  /-- The requests that `srv_called` has given out. -/
  delivered : List μ
  /-- The requests of the calls that have returned, with the requests that their replies are for. -/
  returned : List (μ × μ)
  sent : β → List μ
  recieved : β → List μ

namespace Calls

variable {π τ μ β : Type} [DecidableEq π] [DecidableEq τ] [DecidableEq μ] [DecidableEq β]

def goto (s : Calls π τ μ β) (now : τ) (at' : CallPoint μ β) : Calls π τ μ β :=
  { s with point := update s.point now at' }

inductive Action (τ μ β : Type)
  | register (now : τ) (b : β) (id : ℕ)
  | call (now : τ) (boxId : ℕ) (r : β) (rid : ℕ)
  | callMsg (now : τ) (m : μ) (id : ℕ)
  | callSend (now : τ)
  | callRecieve (now : τ)
  | callAgain (now : τ)
  | callRead (now : τ)
  /-- `srv_call` returns an error for want of memory. -/
  | callFail (now : τ)
  | called (now : τ) (boxId : ℕ)
  | calledRecieve (now : τ)
  | calledAgain (now : τ)
  /-- With whether `umalloc` finds memory for the arguments. -/
  | calledRead (now : τ) (alloc : Bool)
  | reply (now : τ) (m : μ) (sid : ℕ) (answer : μ) (id : ℕ)
  | replySend (now : τ)

def bodyOf (s : Calls π τ μ β) (m : μ) : Option (Body μ) := (s.msgs.msg m).map Msg.body

/-- `msg_send` to a box id; on an error the call returns. A `schd_run` of a null pointer is a fault. -/
def send (s : Calls π τ μ β) (p : π) (now : τ) (boxId : ℕ) (m : μ) (next : CallPoint μ β) :
    Result (Calls π τ μ β) :=
  match s.msgs.boxAlct boxId with
  | none => .ok (s.goto now .idle)
  | some b => do
    let (err, wake, msgs) ← s.msgs.sendMsg p b m
    if wake = some none then .error .null
    else if err = .ok then
      return ({ s with
        msgs := msgs
        sent := update s.sent b (s.sent b ++ [m]) }).goto now next
    else return s.goto now .idle

/-- A receipt; `next` says where the thread goes on with the message. -/
def recieveOne (s : Calls π τ μ β) (p : π) (now : τ) (b : β) (next : μ → CallPoint μ β) :
    Result (Calls π τ μ β) := do
  let (m, msgs) ← s.msgs.take p b
  return ({ s with
    msgs := msgs
    recieved := update s.recieved b (s.recieved b ++ [m]) }).goto now (next m)

/-- The first section of a blocking `msg_recieve`, whose code both callers assert to be `E_OK`. -/
def recieve (s : Calls π τ μ β) (p : π) (now : τ) (b : β) (wait : CallPoint μ β)
    (next : μ → CallPoint μ β) : Result (Calls π τ μ β) := do
  let (r, msgs) ← s.msgs.recieveTest now p b true
  match r with
  | .fail _ => .error .assertion
  | .block => return ({ s with msgs := msgs }).goto now wait
  | .ready => recieveOne { s with msgs := msgs } p now b next

/-- The second section of a blocking `msg_recieve`. -/
def recieveAgain (s : Calls π τ μ β) (p : π) (now : τ) (b : β) (next : μ → CallPoint μ β) :
    Result (Calls π τ μ β) := do
  let msgs ← s.msgs.recieveAgain b
  recieveOne { s with msgs := msgs } p now b next

def serviceBox (svc : β → Bool) (s : Calls π τ μ β) (boxId : ℕ) : Option β :=
  (s.msgs.boxAlct boxId).filter fun b ↦ svc b

/-- The outcome of a step; `proc` gives the process of a thread and `svc` says which boxes are for
services. -/
def act (proc : τ → π) (svc : β → Bool) (s : Calls π τ μ β) : Action τ μ β → Result (Calls π τ μ β)
  | .register now b id => do
    assert (s.point now = .idle ∧ svc b ∧ (s.msgs.box b).isNone ∧ (s.msgs.boxAlct id).isNone)
    return { s with msgs := s.msgs.newBox (proc now) b id }
  | .call now boxId r rid => do
    assert (s.point now = .idle ∧ (s.serviceBox svc boxId).isSome ∧ ¬ svc r ∧
      (s.msgs.box r).isNone ∧ (s.msgs.boxAlct rid).isNone)
    return ({ s with msgs := s.msgs.newBox (proc now) r rid }).goto now (.callBox boxId r rid)
  | .callMsg now m id =>
    match s.point now with
    | .callBox boxId r rid => do
      assert ((s.msgs.msg m).isNone ∧ (s.msgs.msgAlct id).isNone)
      return ({ s with msgs := s.msgs.newMsg (proc now) m id (.request rid) }).goto now
        (.callSend boxId m r)
    | _ => .error .assertion
  | .callSend now =>
    match s.point now with
    | .callSend boxId m r => s.send (proc now) now boxId m (.callRecieve m r)
    | _ => .error .assertion
  | .callRecieve now =>
    match s.point now with
    | .callRecieve m r => s.recieve (proc now) now r (.callWait m r) (.callRead m r)
    | _ => .error .assertion
  | .callAgain now =>
    match s.point now with
    | .callWait m r => s.recieveAgain (proc now) now r (.callRead m r)
    | _ => .error .assertion
  | .callRead now =>
    match s.point now with
    | .callRead m _ answer =>
      match s.bodyOf answer with
      | some (.reply req) => .ok (({ s with returned := (m, req) :: s.returned }).goto now .idle)
      | _ => .error .unset
    | _ => .error .assertion
  | .callFail now =>
    match s.point now with
    | .callBox _ _ _ | .callRead _ _ _ => .ok (s.goto now .idle)
    | _ => .error .assertion
  | .called now boxId => do
    assert (s.point now = .idle)
    match s.serviceBox svc boxId with
    | none => return s
    | some b => return s.goto now (.called b)
  | .calledRecieve now =>
    match s.point now with
    | .called b => s.recieve (proc now) now b (.calledWait b) .calledRead
    | _ => .error .assertion
  | .calledAgain now =>
    match s.point now with
    | .calledWait b => s.recieveAgain (proc now) now b .calledRead
    | _ => .error .assertion
  | .calledRead now alloc =>
    match s.point now with
    | .calledRead m =>
      match s.bodyOf m with
      | some (.request sid) => .ok (({ s with
          delivered := m :: s.delivered
          tickets := if alloc then (m, sid) :: s.tickets else s.tickets }).goto now .idle)
      | _ => .error .unset
    | _ => .error .assertion
  | .reply now m sid answer id => do
    assert (s.point now = .idle ∧ (m, sid) ∈ s.tickets ∧ (s.msgs.msg answer).isNone ∧ (s.msgs.msgAlct id).isNone)
    return ({ s with
      tickets := s.tickets.erase (m, sid)
      msgs := s.msgs.newMsg (proc now) answer id (.reply m) }).goto now (.replySend sid answer)
  | .replySend now =>
    match s.point now with
    | .replySend sid answer => s.send (proc now) now sid answer .idle
    | _ => .error .assertion

def initial : Calls π τ μ β where
  msgs := ⟨fun _ ↦ none, fun _ ↦ none, fun _ ↦ none, fun _ ↦ none⟩
  point _ := .idle
  tickets := []
  delivered := []
  returned := []
  sent _ := []
  recieved _ := []

def system (proc : τ → π) (svc : β → Bool) (μ : Type) [DecidableEq μ] : System (Calls π τ μ β) (Action τ μ β) :=
  .ofNext (· = initial) (act proc svc)

/-! ### What is known of requests and replies -/

def Request (s : Calls π τ μ β) (m : μ) (sid : ℕ) : Prop := s.bodyOf m = some (.request sid)

def Answerable (s : Calls π τ μ β) (m : μ) (sid : ℕ) : Prop := s.Request m sid ∧ m ∈ s.delivered

def ReplyFor (s : Calls π τ μ β) (answer : μ) (sid : ℕ) : Prop :=
  ∃ m, s.bodyOf answer = some (.reply m) ∧ s.Answerable m sid

def CallOk (svc : β → Bool) (s : Calls π τ μ β) (m : μ) (r : β) : Prop :=
  svc r = false ∧ ∃ sid, s.Request m sid ∧ s.msgs.boxAlct sid = some r

def PointOk (svc : β → Bool) (s : Calls π τ μ β) : CallPoint μ β → Prop
  | .idle => True
  | .callBox boxId r rid => (∃ b, s.msgs.boxAlct boxId = some b ∧ svc b) ∧ svc r = false ∧
      s.msgs.boxAlct rid = some r
  | .callSend boxId m r => (∃ b, s.msgs.boxAlct boxId = some b ∧ svc b) ∧ s.CallOk svc m r
  | .callRecieve m r | .callWait m r => s.CallOk svc m r
  | .callRead m r answer => s.CallOk svc m r ∧
      ∃ sid, s.msgs.boxAlct sid = some r ∧ s.ReplyFor answer sid
  | .called b | .calledWait b => svc b
  | .calledRead m => ∃ sid, s.Request m sid
  | .replySend sid answer => s.ReplyFor answer sid

def ListedOk (svc : β → Bool) (s : Calls π τ μ β) (b : β) (m : μ) : Prop :=
  svc b = true ∧ (∃ sid, s.Request m sid) ∨ svc b = false ∧ ∃ sid, s.msgs.boxAlct sid = some b ∧ s.ReplyFor m sid

structure Grows (s s' : Calls π τ μ β) : Prop where
  body : ∀ m body, s.bodyOf m = some body → s'.bodyOf m = some body
  box : ∀ id b, s.msgs.boxAlct id = some b → s'.msgs.boxAlct id = some b
  delivered : s.delivered ⊆ s'.delivered

section Grows

variable {svc : β → Bool} {s s' : Calls π τ μ β} {m : μ} {sid : ℕ} {b r : β} {at' : CallPoint μ β}

theorem Answerable.mono (h : s.Answerable m sid) (hgrows : Grows s s') : s'.Answerable m sid :=
  ⟨hgrows.body _ _ h.1, hgrows.delivered h.2⟩

theorem ReplyFor.mono (h : s.ReplyFor m sid) (hgrows : Grows s s') : s'.ReplyFor m sid := by
  obtain ⟨req, hbody, hreq⟩ := h
  exact ⟨req, hgrows.body _ _ hbody, hreq.mono hgrows⟩

theorem CallOk.mono (h : s.CallOk svc m r) (hgrows : Grows s s') : s'.CallOk svc m r := by
  obtain ⟨hr, sid, hrequest, hbox⟩ := h
  exact ⟨hr, sid, hgrows.body _ _ hrequest, hgrows.box _ _ hbox⟩

theorem PointOk.mono (h : s.PointOk svc at') (hgrows : Grows s s') : s'.PointOk svc at' := by
  have hservice : ∀ {boxId : ℕ}, (∃ b, s.msgs.boxAlct boxId = some b ∧ svc b) →
      ∃ b, s'.msgs.boxAlct boxId = some b ∧ svc b := by
    rintro boxId ⟨b, hb, hsvc⟩
    exact ⟨b, hgrows.box _ _ hb, hsvc⟩
  cases at' with
  | idle | called | calledWait => exact h
  | callBox boxId r rid => exact ⟨hservice h.1, h.2.1, hgrows.box _ _ h.2.2⟩
  | callSend boxId m r => exact ⟨hservice h.1, h.2.mono hgrows⟩
  | callRecieve m r | callWait m r => exact CallOk.mono h hgrows
  | callRead m r answer =>
    obtain ⟨hcall, sid, hbox, hreply⟩ := h
    exact ⟨hcall.mono hgrows, sid, hgrows.box _ _ hbox, hreply.mono hgrows⟩
  | calledRead m =>
    obtain ⟨sid, hrequest⟩ := h
    exact ⟨sid, hgrows.body _ _ hrequest⟩
  | replySend sid answer => exact ReplyFor.mono h hgrows

theorem ListedOk.mono (h : s.ListedOk svc b m) (hgrows : Grows s s') : s'.ListedOk svc b m := by
  obtain ⟨hb, sid, hrequest⟩ | ⟨hb, sid, hbox, hreply⟩ := h
  · exact .inl ⟨hb, sid, hgrows.body _ _ hrequest⟩
  · exact .inr ⟨hb, sid, hgrows.box _ _ hbox, hreply.mono hgrows⟩

end Grows

/-! ### The invariant -/

structure Inv (svc : β → Bool) (s : Calls π τ μ β) : Prop where
  mail : Mail.Inv s.msgs s.sent s.recieved
  ids : ∀ id b, s.msgs.boxAlct id = some b → ∃ box, s.msgs.box b = some box ∧ box.id = id
  points : ∀ t, s.PointOk svc (s.point t)
  tickets : ∀ m sid, (m, sid) ∈ s.tickets → s.Answerable m sid
  listed : ∀ b box m, s.msgs.box b = some box → m ∈ box.msgLs → s.ListedOk svc b m
  /-- An id is in one request. -/
  sid_unique : ∀ m m' sid, s.Request m sid → s.Request m' sid → m = m'
  request_id : ∀ m sid, s.Request m sid → ∃ b, s.msgs.boxAlct sid = some b ∧ svc b = false
  unused : ∀ t rid m, (s.point t).unused = some rid → ¬ s.Request m rid
  unused_unique : ∀ t u rid, (s.point t).unused = some rid → (s.point u).unused = some rid → t = u
  reading : ∀ t m, (s.point t).reading = some m →
    (∃ msg, s.msgs.msg m = some msg ∧ msg.state = .recieved) ∧ m ∉ s.delivered
  reading_unique : ∀ t u m, (s.point t).reading = some m → (s.point u).reading = some m → t = u
  delivered_nodup : s.delivered.Nodup
  delivered_state : ∀ m ∈ s.delivered, ∃ msg, s.msgs.msg m = some msg ∧ msg.state = .recieved
  /-- A request that has been received is given out, or about to be. -/
  request_taken : ∀ m msg sid, s.msgs.msg m = some msg → msg.body = .request sid →
    msg.state = .recieved → m ∈ s.delivered ∨ ∃ t, (s.point t).reading = some m
  returned : ∀ m req, (m, req) ∈ s.returned → req = m ∧ m ∈ s.delivered

section Steps

variable {proc : τ → π} {svc : β → Bool} {s s' : Calls π τ μ β} {a : Action τ μ β} {now : τ} {p : π}
  {b r : β} {m : μ} {at' : CallPoint μ β}

/-- A step of the thread `now`. Bodies and ids stay; a new request has the id that the thread kept for it, a message
that comes into the state `MSG_RECIEVED` is one that the thread is about to read, and a request is given out by the
thread that has read it. -/
structure Moved (svc : β → Bool) (s s' : Calls π τ μ β) (now : τ) : Prop where
  mail : Mail.Inv s'.msgs s'.sent s'.recieved
  grows : Grows s s'
  ids : ∀ id b, s'.msgs.boxAlct id = some b → ∃ box, s'.msgs.box b = some box ∧ box.id = id
  point : ∀ t, t ≠ now → s'.point t = s.point t
  at_now : s'.PointOk svc (s'.point now)
  tickets : ∀ m sid, (m, sid) ∈ s'.tickets → (m, sid) ∈ s.tickets ∨ s'.Answerable m sid
  listed : ∀ b box m, s'.msgs.box b = some box → m ∈ box.msgLs → s.ListedOk svc b m
  request : ∀ m sid, s'.Request m sid → s.Request m sid ∨
    (s.point now).unused = some sid ∧ ∀ m', s'.Request m' sid → m' = m
  unused : ∀ rid, (s'.point now).unused = some rid → s.msgs.boxAlct rid = none
  kept : ∀ m msg, s.msgs.msg m = some msg → msg.state = .recieved →
    ∃ msg', s'.msgs.msg m = some msg' ∧ msg'.state = .recieved
  taken : ∀ m msg' sid, s'.msgs.msg m = some msg' → msg'.state = .recieved → msg'.body = .request sid →
    (∃ msg, s.msgs.msg m = some msg ∧ msg.state = .recieved ∧ msg.body = .request sid) ∨
      (s'.point now).reading = some m
  reading : ∀ m, (s'.point now).reading = some m → (∃ msg, s.msgs.msg m = some msg ∧ msg.state = .sended) ∧
    ∃ msg', s'.msgs.msg m = some msg' ∧ msg'.state = .recieved
  delivered : (s.point now).reading = none ∧ s'.delivered = s.delivered ∨
    (s'.point now).reading = none ∧ ∃ m, (s.point now).reading = some m ∧ s'.delivered = m :: s.delivered
  returned : ∀ m req, (m, req) ∈ s'.returned → (m, req) ∈ s.returned ∨ req = m ∧ m ∈ s.delivered

theorem Inv.unused_alct (h : Inv svc s) {t : τ} {rid : ℕ} (ht : (s.point t).unused = some rid) :
    ∃ r, s.msgs.boxAlct rid = some r ∧ svc r = false := by
  have hok := h.points t
  cases hat : s.point t with
  | callBox boxId r rid' =>
    rw [hat] at hok ht
    obtain rfl : rid' = rid := Option.some_inj.mp ht
    exact ⟨r, hok.2.2, hok.2.1⟩
  | _ => simp [hat, CallPoint.unused] at ht

theorem Inv.moved (h : Inv svc s) (hmoved : Moved svc s s' now) : Inv svc s' := by
  have hgrows := hmoved.grows
  have hpoint : ∀ t, s'.point t = if t = now then s'.point now else s.point t := by
    intro t
    split_ifs with ht
    · rw [ht]
    · exact hmoved.point t ht
  have halct := fun t rid (ht : (s.point t).unused = some rid) ↦ h.unused_alct ht
  -- A message that was only sent is not read by anybody and has not been given out.
  have hnew : ∀ m, (s'.point now).reading = some m → (∀ t, (s.point t).reading ≠ some m) ∧ m ∉ s.delivered := by
    grind [hmoved.reading, h.reading, h.delivered_state]
  constructor
  case mail => exact hmoved.mail
  case ids => exact hmoved.ids
  case points =>
    intro t
    by_cases ht : t = now
    · exact ht ▸ hmoved.at_now
    · exact hmoved.point t ht ▸ (h.points t).mono hgrows
  case tickets =>
    intro m sid hmem
    exact (hmoved.tickets m sid hmem).elim (fun hmem ↦ (h.tickets m sid hmem).mono hgrows) id
  case listed => exact fun b box m hbox hm ↦ (hmoved.listed b box m hbox hm).mono hgrows
  case sid_unique =>
    have hunique := h.sid_unique
    have hrequest := hmoved.request
    grind -ring -linarith
  case request_id =>
    intro m sid hm
    obtain hm | ⟨hsid, -⟩ := hmoved.request m sid hm
    all_goals grind [h.request_id, hgrows.box]
  case unused =>
    have hold := h.unused
    have hids := h.request_id
    have hunique := h.unused_unique
    have hrequest := hmoved.request
    have hfresh := hmoved.unused
    grind -ring -linarith
  case unused_unique =>
    have hunique := h.unused_unique
    have hfresh := hmoved.unused
    grind -ring -linarith
  case reading =>
    have hold := h.reading
    have hunique := h.reading_unique
    obtain ⟨-, -, -, -, -, -, -, -, -, hkept, -, hreading, hdelivered, -⟩ := hmoved
    grind -ring -linarith
  case reading_unique =>
    have hunique := h.reading_unique
    grind -ring -linarith
  case delivered_nodup =>
    grind [h.reading, h.delivered_nodup, hmoved.delivered]
  case delivered_state =>
    have hold := h.reading
    have hstate := h.delivered_state
    obtain ⟨-, -, -, -, -, -, -, -, -, hkept, -, hreading, hdelivered, -⟩ := hmoved
    grind -ring -linarith
  all_goals grind [hmoved.taken, h.request_taken, hmoved.delivered, returned, hmoved.returned]

theorem PointOk.at_now (h : s.PointOk svc at') (hgrows : Grows s s') :
    PointOk svc (s'.goto now at') ((s'.goto now at').point now) := by
  rw [show (s'.goto now at').point now = at' from update_self _ _ _]
  exact h.mono ⟨hgrows.body, hgrows.box, hgrows.delivered⟩

section Passed

variable (hat : s.PointOk svc at') (hunused : at'.unused = none) (hreading : at'.reading = none)
  (hnow : (s.point now).reading = none)
include hat hunused hreading hnow

theorem moved_goto (h : Inv svc s) : Moved svc s (s.goto now at') now := by
  constructor
  case mail => exact h.mail
  case grows => exact ⟨fun _ _ hbody ↦ hbody, fun _ _ hb ↦ hb, List.Subset.refl _⟩
  case ids => exact h.ids
  case at_now => exact hat.at_now ⟨fun _ _ hbody ↦ hbody, fun _ _ hb ↦ hb, List.Subset.refl _⟩
  case listed => exact h.listed
  case request => exact fun _ _ hm ↦ .inl hm
  all_goals
    simp only [goto, update_apply]
    grind -ring -linarith

theorem moved_mark (h : Inv svc s) {box : MsgBox π τ μ} (hbox : s.msgs.box b = some box)
    {state : BoxState} {thread : Option τ} : Moved svc s (({ s with
      msgs := s.msgs.setBox b { box with state := state, blkThread := thread } }).goto now at') now := by
  have hids := h.ids
  have hlisted := h.listed
  constructor
  case mail => exact Mail.inv_setBox h.mail _ hbox rfl rfl
  case grows => exact ⟨fun _ _ hbody ↦ hbody, fun _ _ hb ↦ hb, List.Subset.refl _⟩
  case at_now => exact hat.at_now ⟨fun _ _ hbody ↦ hbody, fun _ _ hb ↦ hb, List.Subset.refl _⟩
  case request => exact fun _ _ hm ↦ .inl hm
  all_goals
    simp only [goto, setBox, update_apply]
    grind -ring -linarith

theorem moved_push (h : Inv svc s) {box : MsgBox π τ μ} {msg : Msg π (Body μ)}
    (hbox : s.msgs.box b = some box) (hmsg : s.msgs.msg m = some msg) (hstate : msg.state = .unsend)
    (hlisted : s.ListedOk svc b m) : Moved svc s (({ s with
      msgs := (s.msgs.setBox b (push box m)).setMsg m { msg with state := .sended }
      sent := update s.sent b (s.sent b ++ [m]) }).goto now at') now := by
  have hids := h.ids
  have hold := h.listed
  have hbody : ∀ m', bodyOf (({ s with
      msgs := (s.msgs.setBox b (push box m)).setMsg m { msg with state := .sended }
      sent := update s.sent b (s.sent b ++ [m]) }).goto now at') m' = s.bodyOf m' := by
    intro m'
    simp only [bodyOf, goto, setMsg, setBox, update_apply]
    split_ifs with heq
    · simp [heq, hmsg]
    · rfl
  constructor
  case mail => exact Mail.inv_push h.mail hbox hmsg hstate
  case grows => exact ⟨fun m' _ hb ↦ (hbody m').trans hb, fun _ _ hb ↦ hb, List.Subset.refl _⟩
  case at_now => exact hat.at_now ⟨fun m' _ hb ↦ (hbody m').trans hb, fun _ _ hb ↦ hb, List.Subset.refl _⟩
  case request => exact fun m' _ hm ↦ .inl ((hbody m').symm.trans hm)
  all_goals
    simp only [goto, setMsg, setBox, push, update_apply]
    grind -ring -linarith

end Passed

section

variable (h : Inv svc s)
include h

theorem moved_take {box : MsgBox π τ μ} {state : BoxState} {next : μ → CallPoint μ β}
    (hbox : s.msgs.box b = some box) (hnext : svc b = true → ∀ m, (next m).reading = some m)
    (hnext' : ∀ m m', (next m).reading = some m' → m' = m)
    (hat : ∀ m, s.ListedOk svc b m → s.PointOk svc (next m)) (hunused : ∀ m, (next m).unused = none)
    (hnow : (s.point now).reading = none)
    (hone : recieveOne { s with msgs := s.msgs.setBox b { box with state := state } } p now b next = .ok s') :
    Moved svc s s' now := by
  unfold recieveOne at hone
  obtain ⟨⟨m, msgs⟩, htake, hone⟩ := bind_eq_ok.mp hone
  obtain ⟨box', msg, rest, hbox', -, hls, hmsg, hstate, rfl⟩ := take_cases htake
  obtain rfl : { box with state := state } = box' := by simpa [setBox] using hbox'
  change s.msgs.msg m = some msg at hmsg
  change box.msgLs = m :: rest at hls
  have hlisted : s.ListedOk svc b m := h.listed b box m hbox (by rw [hls]; exact List.mem_cons_self)
  have hbody : ∀ m', s'.bodyOf m' = s.bodyOf m' := by
    cases hone
    intro m'
    simp only [bodyOf, goto, setMsg, setBox, update_apply]
    split_ifs with heq
    · simp [heq, hmsg]
    · rfl
  have hgrows : Grows s s' := by
    refine ⟨fun m' _ hb ↦ (hbody m').trans hb, ?_, ?_⟩ <;> cases hone
    exacts [fun _ _ hb ↦ hb, List.Subset.refl _]
  have hmail := Mail.inv_take (p := p) (Mail.inv_setBox h.mail { box with state := state } hbox rfl rfl) msg
    (update_self _ _ _) hls
  have hids := h.ids
  have hold := h.listed
  cases hone
  constructor
  case mail => exact hmail
  case grows => exact hgrows
  case at_now => exact (hat m hlisted).at_now ⟨hgrows.body, hgrows.box, hgrows.delivered⟩
  case request => exact fun m' _ hm ↦ .inl ((hbody m').symm.trans hm)
  case taken =>
    intro m' msg' sid hmsg' hstate' hbody'
    simp only [goto, setMsg, setBox, update_apply] at hmsg' ⊢
    by_cases heq : m' = m
    · rw [if_pos heq, Option.some_inj] at hmsg'
      subst heq
      -- A request is in the box of a service only.
      obtain ⟨hb, -⟩ | ⟨-, sid', -, req, hreply, -⟩ := hlisted
      · exact .inr ((congrArg _ (if_pos trivial)).trans (hnext hb m'))
      · rw [bodyOf, hmsg, Option.map_some, Option.some_inj] at hreply
        rw [← hmsg'] at hbody'
        simp [hreply] at hbody'
    · rw [if_neg heq] at hmsg'
      exact .inl ⟨msg', hmsg', hstate', hbody'⟩
  all_goals
    simp only [goto, setMsg, setBox, update_apply]
    grind -ring -linarith

theorem moved_newBox {id : ℕ} (hbox : s.msgs.box b = none) (hid : s.msgs.boxAlct id = none)
    (hat : PointOk svc { s with msgs := s.msgs.newBox p b id } at')
    (hunused : ∀ rid, at'.unused = some rid → rid = id) (hreading : at'.reading = none)
    (hnow : (s.point now).reading = none) :
    Moved svc s (({ s with msgs := s.msgs.newBox p b id }).goto now at') now := by
  have hids := h.ids
  have hlisted := h.listed
  constructor
  case mail => exact Mail.inv_newBox h.mail hbox
  case grows =>
    refine ⟨fun _ _ hbody ↦ hbody, ?_, List.Subset.refl _⟩
    simp only [goto, newBox, setBox, update_apply]
    grind -ring -linarith
  case ids =>
    intro id' c hc
    simp only [goto, newBox, setBox, update_apply] at hc ⊢
    split_ifs at hc with heq
    · obtain rfl := Option.some_inj.mp hc
      exact ⟨⟨id, .rcvable, 0, p, none, []⟩, if_pos rfl, heq.symm⟩
    · grind -ring -linarith
  case at_now => exact hat.at_now ⟨fun _ _ hbody ↦ hbody, fun _ _ hb ↦ hb, List.Subset.refl _⟩
  case request => exact fun _ _ hm ↦ .inl hm
  all_goals
    simp only [goto, newBox, setBox, update_apply]
    grind -ring -linarith

theorem moved_newMsg {id : ℕ} {body : Body μ} {tickets : List (μ × ℕ)} (hmsg : s.msgs.msg m = none)
    (htickets : tickets ⊆ s.tickets) (hat : PointOk svc { s with msgs := s.msgs.newMsg p m id body } at')
    (hsid : ∀ sid, body = .request sid → (s.point now).unused = some sid) (hunused : at'.unused = none)
    (hreading : at'.reading = none) (hnow : (s.point now).reading = none) :
    Moved svc s (({ s with msgs := s.msgs.newMsg p m id body, tickets := tickets }).goto now at') now := by
  have hbodies : ∀ m', bodyOf (({ s with msgs := s.msgs.newMsg p m id body, tickets := tickets }).goto
      now at') m' = if m' = m then some body else s.bodyOf m' := by
    intro m'
    simp only [bodyOf, goto, newMsg, setMsg, update_apply]
    split_ifs <;> rfl
  have hnone : s.bodyOf m = none := by simp [bodyOf, hmsg]
  have hold := h.unused now
  constructor
  case mail => exact Mail.inv_newMsg h.mail hmsg
  case grows =>
    refine ⟨fun m' x hx ↦ ?_, fun _ _ hb ↦ hb, List.Subset.refl _⟩
    rw [hbodies, if_neg (by rintro rfl; simp [hnone] at hx), hx]
  case ids => exact h.ids
  case at_now => exact hat.at_now ⟨fun _ _ hbody ↦ hbody, fun _ _ hb ↦ hb, List.Subset.refl _⟩
  case listed => exact h.listed
  case request =>
    simp only [Request, hbodies] at hold ⊢
    grind -ring -linarith
  all_goals
    simp only [goto, newMsg, setMsg, update_apply]
    grind -ring -linarith

theorem moved_callRead {answer req : μ} (hat : s.point now = .callRead m r answer)
    (hbody : s.bodyOf answer = some (.reply req)) :
    Moved svc s (({ s with returned := (m, req) :: s.returned }).goto now .idle) now := by
  have hok := h.points now
  rw [hat] at hok
  obtain ⟨⟨-, sid, hrequest, hbox⟩, sid', hbox', req', hbody', hreq', hdelivered⟩ := hok
  -- The return box has one id, and this id is in one request.
  obtain rfl : req = req' := Body.reply.inj (Option.some_inj.mp (hbody.symm.trans hbody'))
  obtain ⟨box, hb, hid⟩ := h.ids sid r hbox
  obtain ⟨box', hb', hid'⟩ := h.ids sid' r hbox'
  obtain rfl : box = box' := Option.some_inj.mp (hb.symm.trans hb')
  obtain rfl : sid = sid' := hid.symm.trans hid'
  obtain rfl : req = m := h.sid_unique req m sid hreq' hrequest
  have hnow : (s.point now).reading = none := by rw [hat]; rfl
  constructor
  case mail => exact h.mail
  case grows => exact ⟨fun _ _ hbody ↦ hbody, fun _ _ hb ↦ hb, List.Subset.refl _⟩
  case ids => exact h.ids
  case at_now => simp [goto, PointOk]
  case listed => exact h.listed
  case request => exact fun _ _ hm ↦ .inl hm
  all_goals
    simp only [goto, update_apply, CallPoint.reading, CallPoint.unused]
    grind -ring -linarith

theorem moved_calledRead {sid : ℕ} (hat : s.point now = .calledRead m)
    (hbody : s.bodyOf m = some (.request sid)) {tickets : List (μ × ℕ)}
    (htickets : tickets ⊆ (m, sid) :: s.tickets) :
    Moved svc s (({ s with delivered := m :: s.delivered, tickets := tickets }).goto now .idle) now := by
  have hnow : (s.point now).reading = some m := by rw [hat]; rfl
  constructor
  case mail => exact h.mail
  case grows => exact ⟨fun _ _ hbody ↦ hbody, fun _ _ hb ↦ hb, List.subset_cons_self _ _⟩
  case ids => exact h.ids
  case at_now => simp [goto, PointOk]
  case tickets =>
    intro m' sid' hmem
    obtain heq | hmem := List.mem_cons.mp (htickets hmem)
    · obtain ⟨rfl, rfl⟩ := Prod.mk.inj heq
      exact .inr ⟨hbody, List.mem_cons_self⟩
    · exact .inl hmem
  case listed => exact h.listed
  case request => exact fun _ _ hm ↦ .inl hm
  all_goals
    simp only [goto, update_apply, CallPoint.reading, CallPoint.unused]
    grind -ring -linarith

theorem inv_send {boxId : ℕ} {next : CallPoint μ β} (hsend : s.send p now boxId m next = .ok s')
    (hlisted : ∀ b, s.msgs.boxAlct boxId = some b → s.ListedOk svc b m) (hnext : s.PointOk svc next)
    (hunused : next.unused = none) (hreading : next.reading = none) (hnow : (s.point now).reading = none) :
    Inv svc s' := by
  have hidle : Inv svc (s.goto now .idle) := h.moved (moved_goto trivial rfl rfl hnow h)
  unfold send at hsend
  split at hsend
  · cases hsend
    exact hidle
  · next b hb =>
    obtain ⟨⟨err, wake, msgs⟩, hmsgs, hsend⟩ := bind_eq_ok.mp hsend
    simp only at hsend
    split_ifs at hsend with hnull herr
    · cases hsend
      obtain ⟨hne, -⟩ | ⟨msg, box, hmsg, hbox, -, hstate, -, -, rfl⟩ := sendMsg_cases hmsgs
      · exact absurd herr hne
      · exact h.moved (moved_push hnext hunused hreading hnow h hbox hmsg hstate (hlisted b hb))
    · cases hsend
      exact hidle

theorem inv_recieve {wait : CallPoint μ β} {next : μ → CallPoint μ β}
    (hrecieve : s.recieve p now b wait next = .ok s') (hnext : svc b = true → ∀ m, (next m).reading = some m)
    (hnext' : ∀ m m', (next m).reading = some m' → m' = m)
    (hat : ∀ m, s.ListedOk svc b m → s.PointOk svc (next m)) (hunused : ∀ m, (next m).unused = none)
    (hwait : s.PointOk svc wait) (hwait' : wait.unused = none ∧ wait.reading = none)
    (hnow : (s.point now).reading = none) : Inv svc s' := by
  unfold recieve at hrecieve
  obtain ⟨⟨r, msgs⟩, htest, hrecieve⟩ := bind_eq_ok.mp hrecieve
  obtain ⟨box, hbox, ⟨err, rfl, rfl⟩ | ⟨rfl, rfl, -⟩ | ⟨rfl, -, -, -, -, rfl⟩⟩ := recieveTest_cases htest
  · cases hrecieve
  · have hsame : s.msgs.setBox b { box with state := box.state } = s.msgs := by simp [setBox, ← hbox]
    have hone : recieveOne { s with msgs := s.msgs.setBox b { box with state := box.state } } p now b
        next = .ok s' := by
      rw [hsame]
      exact hrecieve
    exact h.moved (moved_take h hbox hnext hnext' hat hunused hnow hone)
  · cases hrecieve
    exact h.moved (moved_mark hwait hwait'.1 hwait'.2 hnow h hbox)

theorem inv_recieveAgain {next : μ → CallPoint μ β} (hagain : s.recieveAgain p now b next = .ok s')
    (hnext : svc b = true → ∀ m, (next m).reading = some m) (hnext' : ∀ m m', (next m).reading = some m' → m' = m)
    (hat : ∀ m, s.ListedOk svc b m → s.PointOk svc (next m)) (hunused : ∀ m, (next m).unused = none)
    (hnow : (s.point now).reading = none) : Inv svc s' := by
  unfold recieveAgain at hagain
  obtain ⟨msgs, hmsgs, hagain⟩ := bind_eq_ok.mp hagain
  obtain ⟨box, hbox, rfl⟩ := recieveAgain_eq_ok.mp hmsgs
  exact h.moved (moved_take h hbox hnext hnext' hat hunused hnow hagain)

end

theorem CallOk.read (h : s.CallOk svc m r) {answer : μ} (hlisted : s.ListedOk svc r answer) :
    s.PointOk svc (.callRead m r answer) := by
  obtain ⟨hsvc, -⟩ | ⟨-, hreply⟩ := hlisted
  · simp [h.1] at hsvc
  · exact ⟨h, hreply⟩

theorem inv_step (h : Inv svc s) (hact : s.act proc svc a = .ok s') : Inv svc s' := by
  cases a with
  | register now b id =>
    obtain ⟨_, hguard, hact⟩ := bind_eq_ok.mp hact
    obtain ⟨hidle, -, hbox, hid⟩ := assert_eq_ok.mp hguard
    cases hact
    have hinv : Inv svc (({ s with msgs := s.msgs.newBox (proc now) b id }).goto now .idle) :=
      h.moved (moved_newBox h (Option.isNone_iff_eq_none.mp hbox) (Option.isNone_iff_eq_none.mp hid) trivial
        (by simp [CallPoint.unused]) rfl (by rw [hidle]; rfl))
    rwa [goto, ← hidle, update_eq_self] at hinv
  | call now boxId r rid =>
    obtain ⟨_, hguard, hact⟩ := bind_eq_ok.mp hact
    obtain ⟨hidle, hservice, hr, hbox, hid⟩ := assert_eq_ok.mp hguard
    cases hact
    refine h.moved (moved_newBox h (Option.isNone_iff_eq_none.mp hbox) (Option.isNone_iff_eq_none.mp hid) ?_
      (by simp [CallPoint.unused, eq_comm]) rfl (by rw [hidle]; rfl))
    obtain ⟨b, hb⟩ := Option.isSome_iff_exists.mp hservice
    obtain ⟨hb, hsvc⟩ := Option.filter_eq_some_iff.mp hb
    refine ⟨⟨b, ?_, hsvc⟩, by simpa using hr, update_self _ _ _⟩
    have hne : boxId ≠ rid := by
      rintro rfl
      simp [hb] at hid
    simpa [newBox, update_of_ne hne] using hb
  | callMsg now m id =>
    simp only [act] at hact
    split at hact
    · next boxId r rid hat =>
      obtain ⟨_, hguard, hact⟩ := bind_eq_ok.mp hact
      obtain ⟨hmsg, -⟩ := assert_eq_ok.mp hguard
      cases hact
      have hok := h.points now
      rw [hat] at hok
      refine h.moved (moved_newMsg h (Option.isNone_iff_eq_none.mp hmsg) (List.Subset.refl _) ?_ ?_ rfl rfl
        (by rw [hat]; rfl))
      · refine ⟨hok.1, hok.2.1, rid, ?_, hok.2.2⟩
        simp [Request, bodyOf, newMsg, setMsg]
      · rintro sid hsid
        rw [hat, ← Body.request.inj hsid]
        rfl
    · cases hact
  | callSend now =>
    simp only [act] at hact
    split at hact
    · next boxId m r hat =>
      have hok := h.points now
      rw [hat] at hok
      obtain ⟨⟨b, hb, hsvc⟩, hcall⟩ := hok
      refine inv_send h hact (fun b' hb' ↦ ?_) hcall rfl rfl (by rw [hat]; rfl)
      obtain rfl : b = b' := Option.some_inj.mp (hb.symm.trans hb')
      obtain ⟨-, sid, hrequest, -⟩ := hcall
      exact .inl ⟨hsvc, sid, hrequest⟩
    · cases hact
  | callRecieve now =>
    simp only [act] at hact
    split at hact
    · next m r hat =>
      have hok : s.CallOk svc m r := by
        have hok := h.points now
        rwa [hat] at hok
      exact inv_recieve h hact (by simp [hok.1]) (by simp [CallPoint.reading]) (fun _ ↦ hok.read)
        (fun _ ↦ rfl) hok ⟨rfl, rfl⟩ (by rw [hat]; rfl)
    · cases hact
  | callAgain now =>
    simp only [act] at hact
    split at hact
    · next m r hat =>
      have hok : s.CallOk svc m r := by
        have hok := h.points now
        rwa [hat] at hok
      exact inv_recieveAgain h hact (by simp [hok.1]) (by simp [CallPoint.reading]) (fun _ ↦ hok.read)
        (fun _ ↦ rfl) (by rw [hat]; rfl)
    · cases hact
  | callRead now =>
    simp only [act] at hact
    split at hact
    · next m r answer hat =>
      split at hact
      · next req hbody =>
        cases hact
        exact h.moved (moved_callRead h hat hbody)
      · cases hact
    · cases hact
  | callFail now =>
    simp only [act] at hact
    split at hact
    · next hat =>
      cases hact
      exact h.moved (moved_goto trivial rfl rfl (by rw [hat]; rfl) h)
    · next hat =>
      cases hact
      exact h.moved (moved_goto trivial rfl rfl (by rw [hat]; rfl) h)
    · cases hact
  | called now boxId =>
    obtain ⟨_, hguard, hact⟩ := bind_eq_ok.mp hact
    have hidle := assert_eq_ok.mp hguard
    split at hact
    · cases hact
      exact h
    · next b hb =>
      cases hact
      have hsvc : svc b = true := (Option.filter_eq_some_iff.mp hb).2
      exact h.moved (moved_goto hsvc rfl rfl (by rw [hidle]; rfl) h)
  | calledRecieve now =>
    simp only [act] at hact
    split at hact
    · next b hat =>
      have hok : svc b = true := by
        have hok := h.points now
        rwa [hat] at hok
      refine inv_recieve h hact (fun _ _ ↦ rfl) (by simp [CallPoint.reading, eq_comm])
        (fun m hlisted ↦ ?_) (fun _ ↦ rfl) hok ⟨rfl, rfl⟩ (by rw [hat]; rfl)
      obtain ⟨-, hrequest⟩ | ⟨hsvc, -⟩ := hlisted
      · exact hrequest
      · simp [hok] at hsvc
    · cases hact
  | calledAgain now =>
    simp only [act] at hact
    split at hact
    · next b hat =>
      have hok : svc b = true := by
        have hok := h.points now
        rwa [hat] at hok
      refine inv_recieveAgain h hact (fun _ _ ↦ rfl) (by simp [CallPoint.reading, eq_comm])
        (fun m hlisted ↦ ?_) (fun _ ↦ rfl) (by rw [hat]; rfl)
      obtain ⟨-, hrequest⟩ | ⟨hsvc, -⟩ := hlisted
      · exact hrequest
      · simp [hok] at hsvc
    · cases hact
  | calledRead now alloc =>
    simp only [act] at hact
    split at hact
    · next m hat =>
      split at hact
      · next sid hbody =>
        cases hact
        refine h.moved (moved_calledRead h hat hbody ?_)
        cases alloc
        · exact List.subset_cons_self _ _
        · exact List.Subset.refl _
      · cases hact
    · cases hact
  | reply now m sid answer id =>
    obtain ⟨_, hguard, hact⟩ := bind_eq_ok.mp hact
    obtain ⟨hidle, hticket, hmsg, -⟩ := assert_eq_ok.mp hguard
    cases hact
    have hnone := Option.isNone_iff_eq_none.mp hmsg
    refine h.moved (moved_newMsg h hnone List.erase_subset ?_ (by simp) rfl rfl (by rw [hidle]; rfl))
    obtain ⟨hrequest, hdelivered⟩ := h.tickets m sid hticket
    refine ⟨m, by simp [bodyOf, newMsg, setMsg], ?_, hdelivered⟩
    have hne : m ≠ answer := by
      rintro rfl
      simp [Request, bodyOf, hnone] at hrequest
    simpa [Request, bodyOf, newMsg, setMsg, update_of_ne hne] using hrequest
  | replySend now =>
    simp only [act] at hact
    split at hact
    · next sid answer hat =>
      have hok : s.ReplyFor answer sid := by
        have hok := h.points now
        rwa [hat] at hok
      refine inv_send h hact (fun b hb ↦ ?_) trivial rfl rfl (by rw [hat]; rfl)
      obtain ⟨m, hbody, hanswerable⟩ := hok
      obtain ⟨b', hb', hsvc⟩ := h.request_id m sid hanswerable.1
      obtain rfl : b = b' := Option.some_inj.mp (hb.symm.trans hb')
      exact .inr ⟨hsvc, sid, hb, m, hbody, hanswerable⟩
    · cases hact

end Steps

/-! ### The contract -/

/-- Who has got which reply, and where the requests are. -/
structure Contract (svc : β → Bool) (s : Calls π τ μ β) : Prop where
  /-- A call that has returned got the reply to its own request, which was given out once. -/
  own_reply : ∀ m req, (m, req) ∈ s.returned → req = m ∧ s.delivered.count m = 1
  delivered_once : ∀ m, s.delivered.count m ≤ 1
  /-- A request that has been sent waits in the box of a service, is about to be given out, or has been
  given out. -/
  none_lost : ∀ m msg sid, s.msgs.msg m = some msg → msg.body = .request sid → msg.state ≠ .unsend →
    (∃ b box, svc b = true ∧ s.msgs.box b = some box ∧ m ∈ box.msgLs) ∨
      (∃ t, s.point t = .calledRead m) ∨ s.delivered.count m = 1

theorem Inv.contract {svc : β → Bool} {s : Calls π τ μ β} (h : Inv svc s) : s.Contract svc where
  own_reply m req hmem := by grind [h.returned, h.delivered_nodup]
  delivered_once m := List.nodup_iff_count_le_one.mp h.delivered_nodup m
  none_lost m msg sid hmsg hbody hstate := by
    cases hst : msg.state with
    | unsend => exact absurd hst hstate
    | sended =>
      obtain ⟨b, box, hbox, hmem⟩ := h.mail.in_box m msg hmsg hst
      obtain ⟨hsvc, -⟩ | ⟨-, -, -, req, hreply, -⟩ := h.listed b box m hbox hmem
      · exact .inl ⟨b, box, hsvc, hbox, hmem⟩
      · simp [bodyOf, hmsg, hbody] at hreply
    | recieved =>
      obtain hmem | ⟨t, ht⟩ := h.request_taken m msg sid hmsg hbody hst
      · exact .inr (.inr (List.count_eq_one_of_mem h.delivered_nodup hmem))
      · refine .inr (.inl ⟨t, ?_⟩)
        cases hat : s.point t <;> simp_all [CallPoint.reading]

/-- The contract holds in every state that the calls of any number of threads reach. -/
theorem reply_contract {proc : τ → π} {svc : β → Bool} {s : Calls π τ μ β}
    (h : (system proc svc μ).Reachable s) : s.Contract svc := by
  refine Inv.contract (h.invariant (P := Inv svc) ?_ ?_)
  · rintro s rfl
    constructor <;>
      simp [initial, Request, bodyOf, PointOk, CallPoint.unused, CallPoint.reading]
    constructor <;> simp
  · intro s a s' hinv hact
    exact inv_step hinv hact

/-- Threads 1 and 2 call the service of thread 0, which waits for the first request; thread 3 replies to
both, the second first. -/
def exampleActions : List (Action (Fin 4) ℕ (Fin 3)) :=
  [.register 0 0 7, .called 0 7, .calledRecieve 0, .call 1 7 1 11, .call 2 7 2 12, .callMsg 2 20 5,
    .callMsg 1 10 6, .callSend 2, .calledAgain 0, .calledRead 0 true, .callSend 1, .callRecieve 1,
    .called 0 7, .calledRecieve 0, .calledRead 0 true, .reply 3 10 11 30 8, .replySend 3, .callAgain 1, .callRead 1,
    .reply 3 20 12 31 9, .replySend 3, .callRecieve 2, .callRead 2]

/-- Both calls have returned, each with its own reply. -/
theorem reply_contract_example : ∃ s : Calls (Fin 4) (Fin 4) ℕ (Fin 3), (system id (· == 0) ℕ).Reachable s ∧
      s.returned = [(20, 20), (10, 10)] ∧ s.delivered = [10, 20] ∧ s.Contract (· == 0) := by
  have hrun : (exampleActions.foldlM (act id (· == 0)) (initial : Calls (Fin 4) _ _ _)).map
      (fun s ↦ (s.returned, s.delivered)) = .ok ([(20, 20), (10, 10)], [10, 20]) := by decide +kernel
  obtain ⟨s, hacts, hrun⟩ := map_eq_ok.mp hrun
  have hreach : (system id (· == 0) ℕ).Reachable s :=
    System.reachable_of_foldlM (.init rfl) hacts
  simp only [Prod.mk.injEq] at hrun
  exact ⟨s, hreach, hrun.1, hrun.2, reply_contract hreach⟩

end Calls

end Lanthorn
