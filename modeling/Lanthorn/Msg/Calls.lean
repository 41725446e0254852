import Lanthorn.Library.Bytes
import Lanthorn.Msg.Msg

/-!
# The calls of `msg.c` with their mutexes

Each call as a whole, with every `mutex_lock` and `mutex_unlock` in its place. A call is a `CallM`: besides its
outcome it has the list of its operations on mutexes, also when it does not return. A mutex is its owner.

What `kmalloc` and `idx_alct_new` return in `msg_newmsg` are arguments of the call. `msg_recieve` ends in
`schd_block` when it blocks; `msgRecieveAgain` is the rest, after the thread has been woken.

`MsgKernel.call_clean_iff` says which calls fail cleanly: all but `msg_recieve` for a box that does not exist,
which unlocks the mutex of a null pointer, and `msg_newmsg` when there is no id or no memory for the body, which
keeps the mutex of the new message.
-/

set_option linter.unusedSectionVars false

namespace Lanthorn

open Library Msgs

/-- The mutexes of `msg.c`. -/
inductive MsgMutex (μ β : Type)
  | msg (m : μ)
  | box (b : β)
  deriving DecidableEq, Repr

/-- An operation of a call on a mutex. The mutex behind a null pointer is none. -/
inductive LockOp (μ β : Type)
  | lock (x : MsgMutex μ β)
  | unlock (x : Option (MsgMutex μ β))
  deriving DecidableEq, Repr

/-- The boxes, messages and id tables, and the owners of the mutexes. -/
structure MsgKernel (π τ μ β : Type) where
  msgs : Msgs π τ μ β (List UInt8)
  owner : MsgMutex μ β → Option τ

/-- What a call returns: its code, and what it writes to the memory of its caller. -/
structure MsgReply where
  err : Errno
  copies : List (ℕ × List UInt8)
  deriving DecidableEq, Repr

def CallM (π τ μ β α : Type) : Type :=
  MsgKernel π τ μ β → List (LockOp μ β) × Result (α × MsgKernel π τ μ β)

namespace CallM

variable {π τ μ β : Type} {α α' : Type}

def bind (x : CallM π τ μ β α) (f : α → CallM π τ μ β α') : CallM π τ μ β α' := fun s ↦
  match x s with
  | (ops, .error fault) => (ops, .error fault)
  | (ops, .ok (a, s)) => (ops ++ (f a s).1, (f a s).2)

instance : Monad (CallM π τ μ β) where
  pure a s := ([], .ok (a, s))
  bind := bind

def within (f : Msgs π τ μ β (List UInt8) → Result (α × Msgs π τ μ β (List UInt8))) : CallM π τ μ β α := fun s ↦
  ([], do
    let (a, msgs) ← f s.msgs
    return (a, { s with msgs := msgs }))

def look (f : Msgs π τ μ β (List UInt8) → Result α) : CallM π τ μ β α := fun s ↦
  ([], do return (← f s.msgs, s))

theorem bind_of_ok {x : CallM π τ μ β α} {f : α → CallM π τ μ β α'} {s s' : MsgKernel π τ μ β}
    {ops : List (LockOp μ β)} {a : α} (h : x s = (ops, .ok (a, s'))) :
    (x >>= f) s = (ops ++ (f a s').1, (f a s').2) := by simp only [Bind.bind, bind, h]

theorem bind_of_error {x : CallM π τ μ β α} {f : α → CallM π τ μ β α'} {s : MsgKernel π τ μ β}
    {ops : List (LockOp μ β)} {fault : Fault} (h : x s = (ops, .error fault)) :
    (x >>= f) s = (ops, .error fault) := by simp only [Bind.bind, bind, h]

end CallM

namespace MsgKernel

variable {π τ μ β : Type} [DecidableEq π] [DecidableEq τ] [DecidableEq μ] [DecidableEq β]

def setOwner (s : MsgKernel π τ μ β) (x : MsgMutex μ β) (owner : Option τ) : MsgKernel π τ μ β :=
  { s with owner := Function.update s.owner x owner }

/-- `mutex_init`. -/
def mutexInit (x : MsgMutex μ β) : CallM π τ μ β Unit := fun s ↦ ([], .ok ((), s.setOwner x none))

/-- `mutex_lock` by the thread `now`. -/
def mutexLock (now : τ) (x : MsgMutex μ β) : CallM π τ μ β Unit := fun s ↦
  ([.lock x], do
    assert (s.owner x ≠ some now)
    if s.owner x = none then return ((), s.setOwner x (some now)) else throw .endless)

/-- `mutex_unlock` by the thread `now`, of the mutex behind a pointer. -/
def mutexUnlock (now : τ) (x : Option (MsgMutex μ β)) : CallM π τ μ β Unit := fun s ↦
  ([.unlock x], match x with
    | none => throw .null
    | some x => do
      assert (s.owner x = some now)
      return ((), s.setOwner x none))

section Calls

variable (now : τ) (p : π)

/-- The tests of `msg_read` and `msg_size` on the owner and the state, and the body. -/
def bodyOf (msgs : Msgs π τ μ β (List UInt8)) (m : μ) : Result (Errno × List UInt8) := do
  let msg ← msgs.msgOf m
  if msg.owner ≠ p then return (.inval, [])
  if msg.state ≠ .recieved then return (.inval, [])
  return (.ok, msg.body)

/-- `msg_newmsg` of the bytes `data`, with what `kmalloc`, `idx_alct_new` and the second `kmalloc` return;
a `kmalloc` of no bytes returns `E_INVAL`. -/
def msgNewmsg (new : Except Errno μ) (newId : Except Errno ℕ) (mem : Except Errno Unit) (idp : ℕ)
    (data : List UInt8) : CallM π τ μ β MsgReply :=
  match new with
  | .error err => return ⟨err, []⟩
  | .ok m => do
    mutexInit (.msg m)
    mutexLock now (.msg m)
    match newId with
    | .error err => return ⟨err, []⟩
    | .ok id => do
      CallM.within fun msgs ↦ .ok ((), { msgs with msgAlct := Function.update msgs.msgAlct id (some m) })
      match if data = [] then .error .inval else mem with
      | .error err => do
        CallM.within fun msgs ↦ .ok ((), { msgs with msgAlct := Function.update msgs.msgAlct id none })
        return ⟨err, []⟩
      | .ok () => do
        CallM.within fun msgs ↦ .ok ((), msgs.newMsg p m id data)
        mutexUnlock now (some (.msg m))
        return ⟨.ok, if idp ≠ 0 then [(idp, Bytes.word id)] else []⟩

/-- `msg_newbox`, with what `kmalloc` and `idx_alct_new` return. -/
def msgNewbox (new : Except Errno β) (newId : Except Errno ℕ) (idp : ℕ) : CallM π τ μ β MsgReply :=
  match new with
  | .error err => return ⟨err, []⟩
  | .ok b => do
    mutexInit (.box b)
    mutexLock now (.box b)
    match newId with
    | .error err => return ⟨err, []⟩
    | .ok id => do
      CallM.within fun msgs ↦ .ok ((), msgs.newBox p b id)
      mutexUnlock now (some (.box b))
      return ⟨.ok, if idp ≠ 0 then [(idp, Bytes.word id)] else []⟩

/-- `msg_send` under the two mutexes. A box that is marked as blocked without a thread gives `schd_run` a null
pointer. -/
def sendLocked (b : β) (m : μ) (msgs : Msgs π τ μ β (List UInt8)) : Result (Errno × Msgs π τ μ β (List UInt8)) := do
  let (err, wake, msgs) ← msgs.sendMsg p b m
  if wake = some none then throw .null else return (err, msgs)

/-- `msg_send`. -/
def msgSend (boxId msgId : ℕ) : CallM π τ μ β MsgReply := do
  match ← CallM.look fun msgs ↦ .ok (msgs.msgAlct msgId) with
  | none => return ⟨.notfound, []⟩
  | some m => do
    mutexLock now (.msg m)
    match ← CallM.look fun msgs ↦ .ok (msgs.boxAlct boxId) with
    | none => do
      mutexUnlock now (some (.msg m))
      return ⟨.notfound, []⟩
    | some b => do
      mutexLock now (.box b)
      let err ← CallM.within (sendLocked p b m)
      mutexUnlock now (some (.box b))
      mutexUnlock now (some (.msg m))
      return ⟨err, []⟩

/-- `msg_read`. -/
def msgRead (msgId cache offset size : ℕ) : CallM π τ μ β MsgReply := do
  match ← CallM.look fun msgs ↦ .ok (msgs.msgAlct msgId) with
  | none => return ⟨.notfound, []⟩
  | some m => do
    mutexLock now (.msg m)
    let reply ← CallM.look fun msgs ↦ do
      let (err, body) ← bodyOf p msgs m
      if err ≠ .ok then return ⟨err, []⟩
      if body.length < (offset + size) % 2 ^ 32 then return ⟨.inval, []⟩
      -- a copy that goes beyond the message
      if body.length < offset + size then throw .unset
      return ⟨.ok, [(cache, (body.drop offset).take size)]⟩
    mutexUnlock now (some (.msg m))
    return reply

/-- `msg_size`. -/
def msgSize (msgId sizep : ℕ) : CallM π τ μ β MsgReply := do
  match ← CallM.look fun msgs ↦ .ok (msgs.msgAlct msgId) with
  | none => return ⟨.notfound, []⟩
  | some m => do
    mutexLock now (.msg m)
    let reply ← CallM.look fun msgs ↦ do
      let (err, body) ← bodyOf p msgs m
      if err ≠ .ok then return ⟨err, []⟩
      return ⟨.ok, [(sizep, Bytes.word body.length)]⟩
    mutexUnlock now (some (.msg m))
    return reply

/-- The end of `msg_recieve`: the first message of the box goes to the process. -/
def msgTake (b : β) (msgidp : ℕ) : CallM π τ μ β MsgReply := do
  let id ← CallM.within fun msgs ↦ do
    let (m, msgs) ← msgs.take p b
    let msg ← msgs.msgOf m
    return (msg.id, msgs)
  mutexUnlock now (some (.box b))
  return ⟨.ok, [(msgidp, Bytes.word id)]⟩

/-- `msg_recieve`, up to its return or up to `schd_block`. -/
def msgRecieve (boxId msgidp : ℕ) (isBlock : Bool) : CallM π τ μ β (Option MsgReply) := do
  match ← CallM.look fun msgs ↦ .ok (msgs.boxAlct boxId) with
  | none => do
    -- the pointer to the box is still null
    mutexUnlock now none
    return some ⟨.notfound, []⟩
  | some b => do
    mutexLock now (.box b)
    match ← CallM.within fun msgs ↦ msgs.recieveTest now p b isBlock with
    | .fail err => do
      mutexUnlock now (some (.box b))
      return some ⟨err, []⟩
    | .block => do
      mutexUnlock now (some (.box b))
      return none
    | .ready => return some (← msgTake now p b msgidp)

/-- `msg_recieve` after `schd_block`. -/
def msgRecieveAgain (b : β) (msgidp : ℕ) : CallM π τ μ β MsgReply := do
  mutexLock now (.box b)
  CallM.within fun msgs ↦ do return ((), ← msgs.recieveAgain b)
  msgTake now p b msgidp

/-- `msg_delmsg`, which keeps the mutex of a message that it has deleted. -/
def msgDelmsg (msgId : ℕ) : CallM π τ μ β MsgReply := do
  match ← CallM.look fun msgs ↦ .ok (msgs.msgAlct msgId) with
  | none => return ⟨.notfound, []⟩
  | some m => do
    mutexLock now (.msg m)
    let err ← CallM.within fun msgs ↦ do
      let err ← msgs.delMsgTest p m
      if err ≠ .ok then return (err, msgs) else msgs.delMsg m
    if err = .ok then return ⟨.ok, []⟩
    else
      mutexUnlock now (some (.msg m))
      return ⟨err, []⟩

/-- `msg_delbox`, which keeps the mutex of a box that it has deleted. -/
def msgDelbox (boxId : ℕ) : CallM π τ μ β MsgReply := do
  match ← CallM.look fun msgs ↦ .ok (msgs.boxAlct boxId) with
  | none => return ⟨.notfound, []⟩
  | some b => do
    mutexLock now (.box b)
    let err ← CallM.within fun msgs ↦ msgs.delBox p b
    if err = .ok then return ⟨.ok, []⟩
    else
      mutexUnlock now (some (.box b))
      return ⟨err, []⟩

end Calls

/-- The calls, with the arguments of their callers and what the allocators return. -/
inductive Call (π τ μ β : Type)
  | newmsg (new : Except Errno μ) (newId : Except Errno ℕ) (mem : Except Errno Unit) (idp : ℕ)
    (data : List UInt8)
  | send (boxId msgId : ℕ)
  | read (msgId cache offset size : ℕ)
  | size (msgId sizep : ℕ)
  | recieve (boxId msgidp : ℕ) (isBlock : Bool)
  | recieveAgain (b : β) (msgidp : ℕ)
  | delmsg (msgId : ℕ)
  | delbox (boxId : ℕ)

/-- A call by the thread `now` of the process `p`: what it returns, or nothing if it blocks. -/
def call (now : τ) (p : π) : Call π τ μ β → CallM π τ μ β (Option MsgReply)
  | .newmsg new newId mem idp data => do return some (← msgNewmsg now p new newId mem idp data)
  | .send boxId msgId => do return some (← msgSend now p boxId msgId)
  | .read msgId cache offset size => do return some (← msgRead now p msgId cache offset size)
  | .size msgId sizep => do return some (← msgSize now p msgId sizep)
  | .recieve boxId msgidp isBlock => msgRecieve now p boxId msgidp isBlock
  | .recieveAgain b msgidp => do return some (← msgRecieveAgain now p b msgidp)
  | .delmsg msgId => do return some (← msgDelmsg now p msgId)
  | .delbox boxId => do return some (← msgDelbox now p boxId)

/-! ### Mutexes that a call has locked -/

/-- The mutexes that are held after some operations, or nothing if one of them unlocks a mutex that is not
held. -/
def heldBy (held : List (MsgMutex μ β)) : List (LockOp μ β) → Option (List (MsgMutex μ β))
  | [] => some held
  | .lock x :: ops => heldBy (x :: held) ops
  | .unlock none :: _ => none
  | .unlock (some x) :: ops => if x ∈ held then heldBy (held.erase x) ops else none

/-- The call unlocks only what it has locked. If it returns an error, the state is the same as before and
it has unlocked everything. -/
def Clean (c : CallM π τ μ β (Option MsgReply)) (s : MsgKernel π τ μ β) : Prop :=
  ∃ held, heldBy [] (c s).1 = some held ∧ ∀ reply s', (c s).2 = .ok (some reply, s') → reply.err ≠ .ok →
    s' = s ∧ held = []

def Denied {α : Type} (r : Except Errno α) : Prop := ∃ err, r = .error err ∧ err ≠ .ok

/-- The calls that do not fail cleanly: `msg_recieve` for a box that does not exist, and `msg_newmsg` of a
message that gets no id, or no memory for its body. -/
def Slips (s : MsgKernel π τ μ β) : Call π τ μ β → Prop
  | .recieve boxId _ _ => s.msgs.boxAlct boxId = none
  | .newmsg (.ok _) newId mem _ data => Denied newId ∨ ∃ id, newId = .ok id ∧ (data = [] ∨ Denied mem)
  | _ => False

/-- The rest of a call that began in the state `start` and holds some mutexes is clean; `failed` tells the
results that are errors. -/
def CleanFrom {α : Type} (failed : α → Prop) (start : MsgKernel π τ μ β) (held : List (MsgMutex μ β))
    (c : CallM π τ μ β α) (s : MsgKernel π τ μ β) : Prop :=
  ∃ held', heldBy held (c s).1 = some held' ∧ ∀ a s', (c s).2 = .ok (a, s') → failed a → s' = start ∧ held' = []

section Rules

variable {α α' : Type} {failed : α' → Prop} {start s : MsgKernel π τ μ β} {held : List (MsgMutex μ β)}
  {now : τ} {x : MsgMutex μ β}

theorem cleanFrom_pure {a : α'} (h : failed a → s = start ∧ held = []) :
    CleanFrom failed start held (pure a) s := by
  refine ⟨held, rfl, fun a' s' hrun hfailed ↦ ?_⟩
  cases hrun
  exact h hfailed

theorem cleanFrom_of_error {c : CallM π τ μ β α'} {ops : List (LockOp μ β)} {fault : Fault}
    {held' : List (MsgMutex μ β)} (hrun : c s = (ops, .error fault)) (hheld : heldBy held ops = some held') :
    CleanFrom failed start held c s := by
  refine ⟨held', by rw [hrun]; exact hheld, fun a s' hok ↦ ?_⟩
  rw [hrun] at hok
  cases hok

variable {c : Unit → CallM π τ μ β α'}

theorem cleanFrom_lock
    (h : s.owner x = none → CleanFrom failed start (x :: held) (c ()) (s.setOwner x (some now))) :
    CleanFrom failed start held (mutexLock now x >>= c) s := by
  cases howner : s.owner x with
  | none =>
    have hrun : mutexLock now x s = ([.lock x], .ok ((), s.setOwner x (some now))) := by simp [mutexLock, howner]
    rw [CleanFrom, CallM.bind_of_ok hrun]
    exact h howner
  | some t =>
    obtain ⟨fault, hrun⟩ : ∃ fault, mutexLock now x s = ([.lock x], .error fault) := by
      by_cases ht : t = now
      · exact ⟨.assertion, by simp [mutexLock, howner, ht, assert]⟩
      · exact ⟨.endless, by simp [mutexLock, howner, ht, assert, throw, throwThe,
        MonadExceptOf.throw]⟩
    exact cleanFrom_of_error (CallM.bind_of_error hrun) rfl

theorem cleanFrom_init (h : CleanFrom failed start held (c ()) (s.setOwner x none)) :
    CleanFrom failed start held (mutexInit x >>= c) s := by
  rw [CleanFrom, CallM.bind_of_ok (show mutexInit x s = ([], .ok ((), s.setOwner x none)) from rfl)]
  exact h

theorem cleanFrom_unlock (howner : s.owner x = some now) (hx : x ∈ held)
    (h : CleanFrom failed start (held.erase x) (c ()) (s.setOwner x none)) :
    CleanFrom failed start held (mutexUnlock now (some x) >>= c) s := by
  have hrun : mutexUnlock now (some x) s = ([.unlock (some x)], .ok ((), s.setOwner x none)) := by
    simp [mutexUnlock, howner]
  obtain ⟨held', hheld, hfailed⟩ := h
  rw [CleanFrom, CallM.bind_of_ok hrun]
  refine ⟨held', ?_, hfailed⟩
  rw [List.singleton_append, heldBy, if_pos hx, hheld]

theorem cleanFrom_within {f : Msgs π τ μ β (List UInt8) → Result (α × Msgs π τ μ β (List UInt8))}
    {c : α → CallM π τ μ β α'}
    (h : ∀ a msgs, f s.msgs = .ok (a, msgs) → CleanFrom failed start held (c a) { s with msgs := msgs }) :
    CleanFrom failed start held (CallM.within f >>= c) s := by
  cases hf : f s.msgs with
  | error fault =>
    have hrun : CallM.within f s = ([], .error fault) := by simp [CallM.within, hf]
    exact cleanFrom_of_error (CallM.bind_of_error hrun) rfl
  | ok r =>
    have hrun : CallM.within f s = ([], .ok (r.1, { s with msgs := r.2 })) := by simp [CallM.within, hf]
    rw [CleanFrom, CallM.bind_of_ok hrun]
    exact h r.1 r.2 hf

theorem cleanFrom_look {f : Msgs π τ μ β (List UInt8) → Result α} {c : α → CallM π τ μ β α'}
    (h : ∀ a, f s.msgs = .ok a → CleanFrom failed start held (c a) s) :
    CleanFrom failed start held (CallM.look f >>= c) s := by
  cases hf : f s.msgs with
  | error fault =>
    have hrun : CallM.look f s = ([], .error fault) := by simp [CallM.look, hf]
    exact cleanFrom_of_error (CallM.bind_of_error hrun) rfl
  | ok a =>
    have hrun : CallM.look f s = ([], .ok (a, s)) := by simp [CallM.look, hf]
    rw [CleanFrom, CallM.bind_of_ok hrun]
    exact h a hf

theorem setOwner_back (howner : s.owner x = none) : (s.setOwner x (some now)).setOwner x none = s := by
  simp [setOwner, ← howner]

theorem owner_setOwner : (s.setOwner x (some now)).owner x = some now := by simp [setOwner]

theorem cleanFrom_end {reply : α'} (howner : s.owner x = none) :
    CleanFrom failed s [x] (do mutexUnlock now (some x); return reply) (s.setOwner x (some now)) := by
  refine cleanFrom_unlock owner_setOwner (by simp) (cleanFrom_pure fun _ ↦ ⟨setOwner_back howner, by simp⟩)

end Rules

/-! ### The calls -/

section Clean

variable {s : MsgKernel π τ μ β} {now : τ} {p : π}

def Failed (reply : MsgReply) : Prop := reply.err ≠ .ok

variable {b : β} {start : MsgKernel π τ μ β}

theorem sendLocked_failed {m : μ} {msgs msgs' : Msgs π τ μ β (List UInt8)} {err : Errno}
    (h : sendLocked p b m msgs = .ok (err, msgs')) (herr : err ≠ .ok) : msgs' = msgs := by
  obtain ⟨⟨err', wake, msgs''⟩, hrun, h⟩ := bind_eq_ok.mp h
  dsimp only at h
  split_ifs at h
  cases h
  obtain ⟨-, -, hsame⟩ | ⟨-, -, -, -, -, -, hok, -⟩ := sendMsg_cases hrun
  · exact hsame
  · exact absurd hok herr

theorem msgSend_clean (boxId msgId : ℕ) : CleanFrom Failed s [] (msgSend now p boxId msgId) s := by
  refine cleanFrom_look fun found _ ↦ ?_
  cases found with
  | none => exact cleanFrom_pure fun _ ↦ ⟨rfl, rfl⟩
  | some m =>
    refine cleanFrom_lock fun hfree ↦ cleanFrom_look fun found' _ ↦ ?_
    cases found' with
    | none => exact cleanFrom_end hfree
    | some b =>
      refine cleanFrom_lock fun hfree' ↦ cleanFrom_within fun err msgs hsend ↦ ?_
      refine cleanFrom_unlock (by simp [setOwner]) (by simp) (cleanFrom_unlock ?_ ?_ (cleanFrom_pure ?_))
      · simp [setOwner]
      · simp
      · intro hfailed
        obtain rfl : msgs = s.msgs := sendLocked_failed hsend hfailed
        grind [setOwner, setOwner_back]

theorem msgRead_clean (msgId cache offset size : ℕ) :
    CleanFrom Failed s [] (msgRead now p msgId cache offset size) s := by
  refine cleanFrom_look fun found _ ↦ ?_
  cases found with
  | none => exact cleanFrom_pure fun _ ↦ ⟨rfl, rfl⟩
  | some m => exact cleanFrom_lock fun hfree ↦ cleanFrom_look fun reply _ ↦ cleanFrom_end hfree

theorem msgSize_clean (msgId sizep : ℕ) : CleanFrom Failed s [] (msgSize now p msgId sizep) s := by
  refine cleanFrom_look fun found _ ↦ ?_
  cases found with
  | none => exact cleanFrom_pure fun _ ↦ ⟨rfl, rfl⟩
  | some m => exact cleanFrom_lock fun hfree ↦ cleanFrom_look fun reply _ ↦ cleanFrom_end hfree

theorem msgDelmsg_clean (msgId : ℕ) : CleanFrom Failed s [] (msgDelmsg now p msgId) s := by
  refine cleanFrom_look fun found _ ↦ ?_
  cases found with
  | none => exact cleanFrom_pure fun _ ↦ ⟨rfl, rfl⟩
  | some m =>
    refine cleanFrom_lock fun hfree ↦ cleanFrom_within fun err msgs hdel ↦ ?_
    split_ifs with hok
    · exact cleanFrom_pure fun hfailed ↦ absurd rfl hfailed
    · obtain rfl : msgs = s.msgs := by
        obtain ⟨err', -, hdel⟩ := bind_eq_ok.mp hdel
        split_ifs at hdel
        · exact (ok_pair_inj hdel).2.symm
        · obtain ⟨-, hsame⟩ | ⟨-, -, -, hok', -⟩ := delMsg_cases hdel
          · exact hsame
          · exact absurd hok' hok
      exact cleanFrom_end hfree

theorem msgDelbox_clean (boxId : ℕ) : CleanFrom Failed s [] (msgDelbox now p boxId) s := by
  refine cleanFrom_look fun found _ ↦ ?_
  cases found with
  | none => exact cleanFrom_pure fun _ ↦ ⟨rfl, rfl⟩
  | some b =>
    refine cleanFrom_lock fun hfree ↦ cleanFrom_within fun err msgs hdel ↦ ?_
    split_ifs with hok
    · exact cleanFrom_pure fun hfailed ↦ absurd rfl hfailed
    · obtain ⟨-, rfl⟩ | ⟨-, -, -, -, hok', -⟩ := delBox_cases hdel
      · exact cleanFrom_end hfree
      · exact absurd hok' hok

theorem msgTake_clean {msgidp : ℕ} (howner : s.owner (.box b) = some now) :
    CleanFrom Failed start [.box b] (msgTake now p b msgidp) s := by
  refine cleanFrom_within fun id msgs _ ↦ cleanFrom_unlock howner (by simp) (cleanFrom_pure ?_)
  exact fun hfailed ↦ absurd rfl hfailed

theorem msgRecieveAgain_clean (b : β) (msgidp : ℕ) : CleanFrom Failed s [] (msgRecieveAgain now p b msgidp) s := by
  refine cleanFrom_lock fun _ ↦ cleanFrom_within fun _ msgs _ ↦ msgTake_clean ?_
  simp [setOwner]

theorem cleanFrom_some {held : List (MsgMutex μ β)} {c : CallM π τ μ β MsgReply}
    (h : CleanFrom Failed start held c s) :
    CleanFrom (fun r ↦ ∃ reply, r = some reply ∧ Failed reply) start held (do return some (← c)) s := by
  obtain ⟨held', hheld, hfailed⟩ := h
  cases hrun : c s with
  | mk ops out =>
    rw [hrun] at hheld hfailed
    cases out with
    | error fault => exact cleanFrom_of_error (CallM.bind_of_error hrun) hheld
    | ok r =>
      obtain ⟨reply, s'⟩ := r
      rw [CleanFrom, CallM.bind_of_ok hrun]
      refine ⟨held', by simpa [pure] using hheld, ?_⟩
      rintro a s'' hok ⟨reply', rfl, hreply⟩
      obtain ⟨heq, rfl⟩ := ok_pair_inj hok
      exact hfailed reply s' rfl (Option.some_inj.mp heq ▸ hreply)

theorem msgRecieve_clean {boxId : ℕ} (hbox : s.msgs.boxAlct boxId = some b) (msgidp : ℕ) (isBlock : Bool) :
    CleanFrom (fun r ↦ ∃ reply, r = some reply ∧ Failed reply) s [] (msgRecieve now p boxId msgidp isBlock) s := by
  refine cleanFrom_look fun found hfound ↦ ?_
  cases hfound
  rw [hbox]
  refine cleanFrom_lock fun hfree ↦ cleanFrom_within fun r msgs htest ↦ ?_
  obtain ⟨box, -, ⟨err, rfl, rfl⟩ | ⟨rfl, -⟩ | ⟨rfl, -⟩⟩ := recieveTest_cases htest
  · exact cleanFrom_end hfree
  · exact cleanFrom_some (msgTake_clean owner_setOwner)
  · refine cleanFrom_unlock owner_setOwner (by simp) (cleanFrom_pure ?_)
    rintro ⟨reply, hreply, -⟩
    cases hreply

theorem cleanFrom_ok {held : List (MsgMutex μ β)} {reply : MsgReply} (hreply : reply.err = .ok) :
    CleanFrom Failed start held (pure reply) s :=
  cleanFrom_pure fun hfailed ↦ absurd hreply hfailed

theorem msgNewmsg_clean {new : Except Errno μ} {newId : Except Errno ℕ} {mem : Except Errno Unit} {idp : ℕ}
    {data : List UInt8} (h : ¬ s.Slips (.newmsg new newId mem idp data)) :
    CleanFrom Failed s [] (msgNewmsg now p new newId mem idp data) s := by
  cases new with
  | error err => exact cleanFrom_pure fun _ ↦ ⟨rfl, rfl⟩
  | ok m =>
    obtain ⟨hid, hmem⟩ := not_or.mp h
    refine cleanFrom_init (cleanFrom_lock fun _ ↦ ?_)
    cases newId with
    | error err => exact cleanFrom_ok (not_not.mp fun herr ↦ hid ⟨err, rfl, herr⟩)
    | ok id =>
      refine cleanFrom_within fun _ msgs _ ↦ ?_
      obtain ⟨hdata, hmem⟩ := not_or.mp fun hbody ↦ hmem ⟨id, rfl, hbody⟩
      rw [if_neg hdata]
      cases mem with
      | error err =>
        exact cleanFrom_within fun _ msgs _ ↦ cleanFrom_ok (not_not.mp fun herr ↦ hmem ⟨err, rfl, herr⟩)
      | ok _ =>
        refine cleanFrom_within fun _ msgs _ ↦ cleanFrom_unlock ?_ (by simp) (cleanFrom_ok rfl)
        simp [setOwner]

theorem msgNewmsg_slips (now : τ) (p : π) {m : μ} {newId : Except Errno ℕ} {mem : Except Errno Unit}
    {idp : ℕ} {data : List UInt8} (h : s.Slips (.newmsg (.ok m) newId mem idp data)) : ∃ err s', err ≠ .ok ∧
      msgNewmsg now p (.ok m) newId mem idp data s = ([.lock (.msg m)], .ok (⟨err, []⟩, s')) := by
  have hinit : mutexInit (.msg m) s = ([], .ok ((), s.setOwner (.msg m) none)) := rfl
  have hlock : mutexLock now (.msg m) (s.setOwner (.msg m) none) =
      ([.lock (.msg m)], .ok ((), (s.setOwner (.msg m) none).setOwner (.msg m) (some now))) := by
    simp [mutexLock, setOwner]
  simp only [msgNewmsg]
  rw [CallM.bind_of_ok hinit, CallM.bind_of_ok hlock]
  obtain ⟨err, rfl, herr⟩ | ⟨id, rfl, hbody⟩ := h
  · exact ⟨err, _, herr, rfl⟩
  · obtain ⟨err, hmem, herr⟩ : ∃ err, (if data = [] then .error .inval else mem) = Except.error err ∧
        err ≠ .ok := by
      obtain hdata | ⟨err, rfl, herr⟩ := hbody
      · exact ⟨.inval, if_pos hdata, by simp⟩
      · by_cases hdata : data = []
        · exact ⟨.inval, if_pos hdata, by simp⟩
        · exact ⟨err, if_neg hdata, herr⟩
    simp only [hmem]
    exact ⟨err, _, herr, rfl⟩

/-- The calls fail cleanly exactly if they do not slip. -/
theorem call_clean_iff (s : MsgKernel π τ μ β) (now : τ) (p : π) (c : Call π τ μ β) :
    Clean (call now p c) s ↔ ¬ s.Slips c := by
  have hclean : ∀ {c : CallM π τ μ β (Option MsgReply)},
      CleanFrom (fun r ↦ ∃ reply, r = some reply ∧ Failed reply) s [] c s → Clean c s := by
    rintro c ⟨held, hheld, hfailed⟩
    exact ⟨held, hheld, fun reply s' hrun herr ↦ hfailed _ s' hrun ⟨reply, rfl, herr⟩⟩
  cases c with
  | newmsg new newId mem idp data =>
    refine ⟨fun h hslips ↦ ?_, fun h ↦ hclean (cleanFrom_some (msgNewmsg_clean h))⟩
    cases new with
    | error err => exact hslips
    | ok m =>
      obtain ⟨err, s', herr, hrun⟩ := msgNewmsg_slips now p hslips
      obtain ⟨held, hheld, hfailed⟩ := h
      rw [call, CallM.bind_of_ok hrun] at hheld hfailed
      obtain ⟨-, rfl⟩ := hfailed ⟨err, []⟩ s' rfl herr
      cases hheld
  | send boxId msgId => exact iff_of_true (hclean (cleanFrom_some (msgSend_clean boxId msgId))) id
  | read msgId cache offset size =>
    exact iff_of_true (hclean (cleanFrom_some (msgRead_clean msgId cache offset size))) id
  | size msgId sizep => exact iff_of_true (hclean (cleanFrom_some (msgSize_clean msgId sizep))) id
  | recieve boxId msgidp isBlock =>
    cases hbox : s.msgs.boxAlct boxId with
    | none =>
      refine iff_of_false ?_ (by simp [Slips, hbox])
      rintro ⟨held, hheld, -⟩
      have hlook : CallM.look (fun msgs ↦ .ok (msgs.boxAlct boxId)) s = ([], .ok (none, s)) := by
        simp [CallM.look, hbox]
      rw [call, msgRecieve, CallM.bind_of_ok hlook] at hheld
      cases hheld
    | some b => exact iff_of_true (hclean (msgRecieve_clean hbox msgidp isBlock)) (by simp [Slips, hbox])
  | recieveAgain b msgidp => exact iff_of_true (hclean (cleanFrom_some (msgRecieveAgain_clean b msgidp))) id
  | delmsg msgId => exact iff_of_true (hclean (cleanFrom_some (msgDelmsg_clean msgId))) id
  | delbox boxId => exact iff_of_true (hclean (cleanFrom_some (msgDelbox_clean boxId))) id

end Clean

/-- After `msg_init`. -/
def initial : MsgKernel π τ μ β where
  msgs := ⟨fun _ ↦ none, fun _ ↦ none, fun _ ↦ none, fun _ ↦ none⟩
  owner _ := none

/-- `msg_recieve` with an id of no box follows a null pointer, and `msg_newmsg` of no bytes returns an error and
keeps the mutex of its message. -/
theorem call_slips :
    ((call () () (.recieve 7 0x1000 true) : CallM Unit Unit Unit Unit _) initial).2 = .error .null ∧
      ¬ Clean (call () () (.recieve 7 0x1000 true)) (initial : MsgKernel Unit Unit Unit Unit) ∧
      (∃ s, (call () () (.newmsg (.ok ()) (.ok 0) (.ok ()) 0x1000 []) : CallM Unit Unit Unit Unit _) initial =
        ([.lock (.msg ())], .ok (some ⟨.inval, []⟩, s)) ∧ s.owner (.msg ()) = some ()) ∧
      ¬ Clean (call () () (.newmsg (.ok ()) (.ok 0) (.ok ()) 0x1000 []))
        (initial : MsgKernel Unit Unit Unit Unit) := by
  refine ⟨rfl, ?_, ⟨_, rfl, rfl⟩, ?_⟩
  · rintro ⟨held, hheld, -⟩
    cases hheld
  · rintro ⟨held, hheld, hfailed⟩
    obtain ⟨-, rfl⟩ := hfailed ⟨.inval, []⟩ _ rfl (by decide)
    cases hheld

end MsgKernel

end Lanthorn
