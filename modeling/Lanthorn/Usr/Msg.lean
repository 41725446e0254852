import Lanthorn.Msg.Calls
import Lanthorn.Library.Run

/-!
# The message calls of the user library

A function of `usr/lib/msg.c` gives the words of its arguments to `syscall`, and `syscall_hdl` gives them one
by one to the function that `msg_init` has registered for the number in front. `UserState.syscall` is this
way from a call of the library to a call of `msg.c`; `UserState.syscall_eq` says which call of `msg.c` comes
out: the one of the same name with the same arguments, but that the offset and the size of `msg_read` change
places.

Processes run, call the library and wait in `msg_recieve`; the replies are kept in a log. In every state that
such a run reaches, the body of a message is what was passed to `msg_newmsg` (`UserState.Inv`).
`UserState.msgRead_delivers_iff` says which parts of a received message the library's `msg_read` delivers:
those whose offset is their size.
-/

set_option linter.unusedSectionVars false

namespace Lanthorn

open Function

open Library Msgs MsgKernel

/-! ### From the stubs to the handlers -/

/-- `NR_SYSCALL`. -/
def nrSyscall : ℕ := 64

/-- `SYS_msg_send` of `syscall.h`. -/
def sysMsgSend : ℕ := 16

def sysMsgRecieve : ℕ := 17

def sysMsgRead : ℕ := 18

def sysMsgNewbox : ℕ := 19

def sysMsgNewmsg : ℕ := 20

def sysMsgDelmsg : ℕ := 21

def sysMsgDelbox : ℕ := 22

/-- The functions of `usr/lib/msg.c` with their arguments. -/
inductive UserCall
  | newmsg (id addr size : ℕ)
  | newbox (id : ℕ)
  | send (boxId msgId : ℕ)
  | recieve (boxId msgId isBlock : ℕ)
  | read (msgId cache offset size : ℕ)
  deriving DecidableEq, Repr

/-- The arguments of `syscall` in each function. -/
def UserCall.args : UserCall → List ℕ
  | .newmsg id addr size => [sysMsgNewmsg, id, addr, size]
  | .newbox id => [sysMsgNewbox, id]
  | .send boxId msgId => [sysMsgSend, boxId, msgId]
  | .recieve boxId msgId isBlock => [sysMsgRecieve, boxId, msgId, isBlock]
  | .read msgId cache offset size => [sysMsgRead, msgId, cache, size, offset]

/-- The functions that `msg_init` registers. -/
inductive MsgHandler
  | newmsg
  | newbox
  | send
  | recieve
  | read
  | delmsg
  | delbox
  deriving DecidableEq, Repr

/-- `syscalls` and `syscall_nparam` after `msg_init`. -/
def syscalls : List (ℕ × MsgHandler × ℕ) :=
  [(sysMsgNewmsg, .newmsg, 3), (sysMsgNewbox, .newbox, 1), (sysMsgSend, .send, 2),
    (sysMsgRecieve, .recieve, 3), (sysMsgRead, .read, 4), (sysMsgDelmsg, .delmsg, 1),
    (sysMsgDelbox, .delbox, 1)]

/-- `syscall_hdl`: the function that is called, and its parameters. Numbers that `msg_init` does not register
and words that the caller has not pushed are left out. -/
def syscallHdl : List ℕ → Result (MsgHandler × List ℕ)
  | [] => throw .unset
  | number :: args => do
    assert (number < nrSyscall)
    match syscalls.lookup number with
    | none => throw .unset
    | some (handler, nparam) =>
      if nparam ≤ args.length then return (handler, args.take nparam) else throw .unset

/-- What `kmalloc` and `idx_alct_new` return to a call. -/
structure Allocs (μ β : Type) where
  msg : Except Errno μ
  box : Except Errno β
  id : Except Errno ℕ
  mem : Except Errno Unit

variable {π τ μ β : Type} [DecidableEq π] [DecidableEq τ] [DecidableEq μ] [DecidableEq β]

/-- The registered function on its parameters, by the thread `now` of the process `p` with the memory `mem`. -/
def MsgHandler.run (now : τ) (p : π) (mem : ℕ → UInt8) (allocs : Allocs μ β) :
    MsgHandler → List ℕ → CallM π τ μ β (Option MsgReply)
  | .newmsg, [id, addr, size] => do
    return some (← msgNewmsg now p allocs.msg allocs.id allocs.mem id (Bytes.read mem addr size))
  | .newbox, [id] => do return some (← msgNewbox now p allocs.box allocs.id id)
  | .send, [boxId, msgId] => do return some (← msgSend now p boxId msgId)
  | .recieve, [boxId, msgId, isBlock] => msgRecieve now p boxId msgId (isBlock ≠ 0)
  | .read, [msgId, cache, offset, size] => do return some (← msgRead now p msgId cache offset size)
  | .delmsg, [msgId] => do return some (← msgDelmsg now p msgId)
  | .delbox, [boxId] => do return some (← msgDelbox now p boxId)
  | _, _ => fun _ ↦ ([], .error .unset)

/-- The call of `msg.c` of the same name with the same arguments. -/
def UserCall.kernelCall (now : τ) (p : π) (mem : ℕ → UInt8) (allocs : Allocs μ β) :
    UserCall → CallM π τ μ β (Option MsgReply)
  | .newmsg id addr size => do
    return some (← msgNewmsg now p allocs.msg allocs.id allocs.mem id (Bytes.read mem addr size))
  | .newbox id => do return some (← msgNewbox now p allocs.box allocs.id id)
  | .send boxId msgId => do return some (← msgSend now p boxId msgId)
  | .recieve boxId msgId isBlock => msgRecieve now p boxId msgId (isBlock ≠ 0)
  | .read msgId cache offset size => do return some (← msgRead now p msgId cache offset size)

/-- The call with the offset and the size of `msg_read` in each other's place. -/
def UserCall.crossed : UserCall → UserCall
  | .read msgId cache offset size => .read msgId cache size offset
  | call => call

/-! ### Processes that use the library -/

/-- A call of the library that has returned, with the message that was passed to `msg_newmsg`. -/
structure Answered (π : Type) where
  caller : π
  call : UserCall
  data : List UInt8
  reply : MsgReply
  deriving DecidableEq, Repr

/-- A call of `msg_recieve` that waits in `schd_block`. -/
structure Waiting (β : Type) where
  box : β
  boxId : ℕ
  msgId : ℕ
  isBlock : ℕ

/-- The kernel, the memories of the processes, the threads that wait, and the calls that have returned. -/
structure UserState (π τ μ β : Type) where
  kernel : MsgKernel π τ μ β
  mem : π → ℕ → UInt8
  waiting : τ → Option (Waiting β)
  log : List (Answered π)

inductive UserAction (π τ μ β : Type)
  /-- A process changes its memory. -/
  | store (p : π) (mem : ℕ → UInt8)
  /-- A thread calls a function of the library. -/
  | call (t : τ) (call : UserCall) (allocs : Allocs μ β)
  /-- A thread goes on after `schd_block`. -/
  | resume (t : τ)

def UserCall.data (mem : ℕ → UInt8) : UserCall → List UInt8
  | .newmsg _ addr size => Bytes.read mem addr size
  | _ => []

namespace UserState

variable (proc : τ → π)

/-- `syscall` in a call of the library by the thread `t`. -/
def syscall (s : UserState π τ μ β) (t : τ) (call : UserCall) (allocs : Allocs μ β) :
    Result (Option MsgReply × MsgKernel π τ μ β) := do
  let (handler, params) ← syscallHdl call.args
  (handler.run t (proc t) (s.mem (proc t)) allocs params s.kernel).2

def returned (s : UserState π τ μ β) (p : π) (call : UserCall) (kernel : MsgKernel π τ μ β)
    (reply : MsgReply) : UserState π τ μ β where
  kernel := kernel
  mem := update s.mem p
    (reply.copies.foldl (fun mem copy ↦ Bytes.write mem copy.1 copy.2) (s.mem p))
  waiting := s.waiting
  log := s.log ++ [⟨p, call, call.data (s.mem p), reply⟩]

/-- The thread begins to wait; only `msg_recieve` does. -/
def blocked (s : UserState π τ μ β) (t : τ) (kernel : MsgKernel π τ μ β) : UserCall → Result (UserState π τ μ β)
  | .recieve boxId msgId isBlock =>
    match kernel.msgs.boxAlct boxId with
    | none => throw .null
    | some b => return { s with
        kernel := kernel
        waiting := update s.waiting t (some ⟨b, boxId, msgId, isBlock⟩) }
  | _ => throw .unset

def next (s : UserState π τ μ β) : UserAction π τ μ β → Result (UserState π τ μ β)
  | .store p mem => return { s with mem := update s.mem p mem }
  | .call t call allocs => do
    match ← s.syscall proc t call allocs with
    | (some reply, kernel) => return s.returned (proc t) call kernel reply
    | (none, kernel) => s.blocked t kernel call
  | .resume t =>
    match s.waiting t with
    | none => throw .unset
    | some w => do
      let (reply, kernel) ← (msgRecieveAgain t (proc t) w.box w.msgId s.kernel).2
      return { s.returned (proc t) (.recieve w.boxId w.msgId w.isBlock) kernel reply with
        waiting := update s.waiting t none }

/-- `kmalloc` returns memory that is not in use, and `idx_alct_new` an id that is not in use. -/
def fresh (msgs : Msgs π τ μ β (List UInt8)) (allocs : Allocs μ β) : UserCall → Bool
  | .newmsg _ _ _ => (allocs.msg.toOption.all fun m ↦ (msgs.msg m).isNone) &&
      allocs.id.toOption.all fun id ↦ id < 2 ^ 32 && (msgs.msgAlct id).isNone
  | .newbox _ => (allocs.box.toOption.all fun b ↦ (msgs.box b).isNone) &&
      allocs.id.toOption.all fun id ↦ id < 2 ^ 32 && (msgs.boxAlct id).isNone
  | _ => true

/-- The arguments are words, a thread that waits makes no call, and it goes on when `msg_send` has woken
it. -/
def allowed (s : UserState π τ μ β) : UserAction π τ μ β → Bool
  | .store _ _ => true
  | .call t call allocs => (s.waiting t).isNone && call.args.all (· < 2 ^ 32) &&
      fresh s.kernel.msgs allocs call
  | .resume t => (s.waiting t).all fun w ↦
      (s.kernel.msgs.box w.box).all fun box ↦ box.blkThread ≠ some t

/-- Before the first call: the kernel has just run `msg_init`. -/
structure Initial (s : UserState π τ μ β) : Prop where
  kernel : s.kernel = MsgKernel.initial
  waiting : ∀ t, s.waiting t = none
  log : s.log = []

def system : System (UserState π τ μ β) (UserAction π τ μ β) := .ofNext Initial (next proc)

def Reached (s : UserState π τ μ β) : Prop := (system proc).Run (fun s a ↦ s.allowed a = true) s

/-- The process has passed the bytes to `msg_newmsg` and got the id. -/
def Passed (s : UserState π τ μ β) (p : π) (id : ℕ) (data : List UInt8) : Prop :=
  id < 2 ^ 32 ∧ ∃ idp addr size, ⟨p, .newmsg idp addr size, data, ⟨.ok, [(idp, Bytes.word id)]⟩⟩ ∈ s.log

/-- The process has got the id from `msg_recieve`. -/
def Recieved (s : UserState π τ μ β) (p : π) (id : ℕ) : Prop :=
  id < 2 ^ 32 ∧ ∃ boxId idp isBlock, ⟨p, .recieve boxId idp isBlock, [], ⟨.ok, [(idp, Bytes.word id)]⟩⟩ ∈ s.log

/-- The library's `msg_read` by the thread `t` returns `E_OK` and copies exactly the bytes to the cache. -/
def Delivers (s : UserState π τ μ β) (t : τ) (allocs : Allocs μ β) (msgId cache offset size : ℕ)
    (data : List UInt8) : Prop :=
  ∃ kernel, s.syscall proc t (.read msgId cache offset size) allocs = .ok (some ⟨.ok, [(cache, data)]⟩, kernel)

variable {proc}

theorem syscall_eq (s : UserState π τ μ β) (t : τ) (call : UserCall) (allocs : Allocs μ β) :
    s.syscall proc t call allocs = (call.crossed.kernelCall t (proc t) (s.mem (proc t)) allocs s.kernel).2 := by
  cases call <;> rfl

end UserState

/-! ### What a call that returns has done -/

namespace MsgKernel

def Returns {α : Type} (c : CallM π τ μ β α) (s : MsgKernel π τ μ β)
    (Q : α → MsgKernel π τ μ β → Prop) : Prop :=
  ∀ a s', (c s).2 = .ok (a, s') → Q a s'

section Rules

variable {α α' : Type} {s : MsgKernel π τ μ β} {now : τ} {x : MsgMutex μ β}

theorem returns_pure {a : α} {Q : α → MsgKernel π τ μ β → Prop} (h : Q a s) : Returns (pure a) s Q := by
  intro a' s' hrun
  cases hrun
  exact h

theorem returns_bind {c : CallM π τ μ β α} {f : α → CallM π τ μ β α'}
    {Q : α' → MsgKernel π τ μ β → Prop} (h : Returns c s fun a s' ↦ Returns (f a) s' Q) :
    Returns (c >>= f) s Q := by
  intro a s' hrun
  cases hc : c s with
  | mk ops out =>
    cases out with
    | error fault =>
      rw [CallM.bind_of_error hc] at hrun
      cases hrun
    | ok r =>
      obtain ⟨a', mid⟩ := r
      rw [CallM.bind_of_ok hc] at hrun
      exact h a' mid (by rw [hc]) a s' hrun

theorem Returns.mono {c : CallM π τ μ β α} {Q Q' : α → MsgKernel π τ μ β → Prop} (h : Returns c s Q)
    (hQ : ∀ a s', Q a s' → Q' a s') : Returns c s Q' :=
  fun a s' hrun ↦ hQ a s' (h a s' hrun)

theorem returns_some (c : CallM π τ μ β α) (s : MsgKernel π τ μ β) :
    Returns (do return some (← c)) s fun r s' ↦ ∃ a, r = some a ∧ (c s).2 = .ok (a, s') :=
  returns_bind fun a _ hrun ↦ returns_pure ⟨a, rfl, hrun⟩

theorem some_of_ok {c : CallM π τ μ β α} {a : α} {s' : MsgKernel π τ μ β} (h : (c s).2 = .ok (a, s')) :
    ((do return some (← c) : CallM π τ μ β (Option α)) s).2 = .ok (some a, s') := by
  rw [CallM.bind_of_ok (Prod.ext_iff.mpr ⟨rfl, h⟩)]
  rfl

section

variable {Q : Unit → MsgKernel π τ μ β → Prop}

theorem returns_init (h : Q () (s.setOwner x none)) : Returns (mutexInit x) s Q := by
  intro a s' hrun
  cases hrun
  exact h

theorem returns_lock (h : s.owner x = none → Q () (s.setOwner x (some now))) : Returns (mutexLock now x) s Q := by
  intro a s' hrun
  obtain ⟨_, -, hrun⟩ := bind_eq_ok.mp hrun
  split_ifs at hrun with hfree
  cases hrun
  exact h hfree

theorem returns_unlock (h : Q () (s.setOwner x none)) : Returns (mutexUnlock now (some x)) s Q := by
  intro a s' hrun
  obtain ⟨_, -, hrun⟩ := bind_eq_ok.mp hrun
  cases hrun
  exact h

end

theorem returns_within {f : Msgs π τ μ β (List UInt8) → Result (α × Msgs π τ μ β (List UInt8))}
    {Q : α → MsgKernel π τ μ β → Prop} (h : ∀ a msgs, f s.msgs = .ok (a, msgs) → Q a { s with msgs := msgs }) :
    Returns (CallM.within f) s Q := by
  intro a s' hrun
  obtain ⟨⟨a', msgs⟩, hf, hrun⟩ := bind_eq_ok.mp hrun
  obtain ⟨rfl, rfl⟩ := ok_pair_inj hrun
  exact h a' msgs hf

theorem returns_look {f : Msgs π τ μ β (List UInt8) → Result α} {Q : α → MsgKernel π τ μ β → Prop}
    (h : ∀ a, f s.msgs = .ok a → Q a s) : Returns (CallM.look f) s Q := by
  intro a s' hrun
  obtain ⟨a', hf, hrun⟩ := bind_eq_ok.mp hrun
  obtain ⟨rfl, rfl⟩ := ok_pair_inj hrun
  exact h a' hf

end Rules

/-- The messages keep their ids, their bodies and their mutexes, and the received ones also their owners. -/
structure Kept (s s' : MsgKernel π τ μ β) : Prop where
  alct : s'.msgs.msgAlct = s.msgs.msgAlct
  owner : ∀ m, s.msgs.msg m ≠ none → s'.owner (.msg m) = s.owner (.msg m)
  none : ∀ m, s.msgs.msg m = none → s'.msgs.msg m = none
  some : ∀ m msg, s.msgs.msg m = some msg → ∃ msg', s'.msgs.msg m = some msg' ∧ msg'.id = msg.id ∧
    msg'.body = msg.body ∧ (msg.state = .recieved → msg'.state = .recieved ∧ msg'.owner = msg.owner)

section Kept

variable {s s' : MsgKernel π τ μ β} {now : τ} {p : π}

theorem Kept.of_eq (halct : s'.msgs.msgAlct = s.msgs.msgAlct) (hmsg : s'.msgs.msg = s.msgs.msg)
    (howner : ∀ m, s.msgs.msg m ≠ Option.none → s'.owner (.msg m) = s.owner (.msg m)) : Kept s s' where
  alct := halct
  owner := howner
  none m hm := by rw [hmsg, hm]
  some m msg hm := ⟨msg, by rw [hmsg, hm], rfl, rfl, fun hstate ↦ ⟨hstate, rfl⟩⟩

theorem Kept.refl (s : MsgKernel π τ μ β) : Kept s s := .of_eq rfl rfl fun _ _ ↦ rfl

theorem Kept.old (h : Kept s s') {m : μ} {msg' : Msg π (List UInt8)} (hm' : s'.msgs.msg m = Option.some msg') :
    ∃ msg, s.msgs.msg m = Option.some msg ∧ msg'.id = msg.id ∧ msg'.body = msg.body := by
  cases hm : s.msgs.msg m with
  | none =>
    rw [h.none m hm] at hm'
    cases hm'
  | some msg => grind [h.some]

theorem Kept.of_setMsg {m : μ} {msg : Msg π (List UInt8)} (state : MsgState) (owner : π)
    (hm : s.msgs.msg m = .some msg) (hstate : msg.state ≠ .recieved)
    (halct : s'.msgs.msgAlct = s.msgs.msgAlct) (hmsg : s'.msgs.msg =
      update s.msgs.msg m (.some { msg with state := state, owner := owner }))
    (howner : ∀ m, s'.owner (.msg m) = s.owner (.msg m)) : Kept s s' where
  alct := halct
  owner m' _ := howner m'
  none m' hm' := by
    have hne : m' ≠ m := by
      rintro rfl
      simp [hm] at hm'
    rw [hmsg, update_of_ne hne, hm']
  some m' msg'' hm' := by
    by_cases heq : m' = m
    · subst heq
      obtain rfl : msg = msg'' := Option.some_inj.mp (hm.symm.trans hm')
      exact ⟨{ msg with state := state, owner := owner }, by rw [hmsg, update_self], rfl, rfl,
        fun h ↦ absurd h hstate⟩
    · exact ⟨msg'', by rw [hmsg, update_of_ne heq, hm'], rfl, rfl, fun h ↦ ⟨h, rfl⟩⟩

theorem msgSend_kept (boxId msgId : ℕ) : Returns (msgSend now p boxId msgId) s fun _ s' ↦ Kept s s' := by
  refine returns_bind (returns_look fun found _ ↦ ?_)
  cases found with
  | none => exact returns_pure (.refl s)
  | some m =>
    refine returns_bind (returns_lock fun hm ↦ returns_bind (returns_look fun found _ ↦ ?_))
    cases found with
    | none =>
      refine returns_bind (returns_unlock (returns_pure ?_))
      rw [setOwner_back hm]
      exact .refl s
    | some b =>
      refine returns_bind (returns_lock fun _ ↦ returns_bind (returns_within fun err msgs hsend ↦ ?_))
      refine returns_bind (returns_unlock (returns_bind (returns_unlock (returns_pure ?_))))
      -- the two mutexes are free again
      have howner : ∀ m', ((({ (((s.setOwner (.msg m) (.some now)).setOwner (.box b) (.some now))) with
          msgs := msgs } : MsgKernel π τ μ β).setOwner (.box b) .none).setOwner (.msg m) .none).owner (.msg m') =
          s.owner (.msg m') := by
        intro m'
        by_cases heq : m' = m
        · subst heq
          simp [setOwner, hm]
        · simp [setOwner, heq]
      obtain ⟨⟨err', wake, msgs'⟩, hrun, hsend⟩ := bind_eq_ok.mp hsend
      dsimp only at hsend
      split_ifs at hsend
      cases hsend
      obtain ⟨-, -, rfl⟩ | ⟨msg, box, hmsg, -, -, hstate, -, -, rfl⟩ := sendMsg_cases hrun
      · exact .of_eq rfl rfl fun m' _ ↦ howner m'
      · exact .of_setMsg .sended msg.owner hmsg (by simp [hstate]) rfl rfl howner

theorem msgRead_kept (msgId cache offset size : ℕ) :
    Returns (msgRead now p msgId cache offset size) s fun _ s' ↦ Kept s s' := by
  refine returns_bind (returns_look fun found _ ↦ ?_)
  cases found with
  | none => exact returns_pure (.refl s)
  | some m =>
    refine returns_bind (returns_lock fun hm ↦ returns_bind (returns_look fun reply _ ↦ ?_))
    refine returns_bind (returns_unlock (returns_pure ?_))
    rw [setOwner_back hm]
    exact .refl s

theorem msgNewbox_kept (new : Except Errno β) (newId : Except Errno ℕ) (idp : ℕ) :
    Returns (msgNewbox now p new newId idp) s fun _ s' ↦ Kept s s' := by
  cases new with
  | error err => exact returns_pure (.refl s)
  | ok b =>
    refine returns_bind (returns_init (returns_bind (returns_lock fun _ ↦ ?_)))
    cases newId with
    | error err => exact returns_pure (.of_eq rfl rfl fun m _ ↦ by simp [setOwner])
    | ok id =>
      refine returns_bind (returns_within fun _ msgs hnew ↦ returns_bind (returns_unlock (returns_pure ?_)))
      cases hnew
      exact .of_eq rfl rfl fun m _ ↦ by simp [setOwner]

def Gives (p : π) (msgidp : ℕ) (reply : MsgReply) (s : MsgKernel π τ μ β) : Prop :=
  ∃ m msg, s.msgs.msg m = some msg ∧ msg.state = .recieved ∧ msg.owner = p ∧
    reply = ⟨.ok, [(msgidp, Bytes.word msg.id)]⟩

theorem msgTake_kept {start : MsgKernel π τ μ β} {b : β} {msgidp : ℕ}
    (halct : s.msgs.msgAlct = start.msgs.msgAlct) (hmsg : s.msgs.msg = start.msgs.msg)
    (howner : ∀ m, s.owner (.msg m) = start.owner (.msg m)) :
    Returns (msgTake now p b msgidp) s fun reply s' ↦ Kept start s' ∧ Gives p msgidp reply s' := by
  refine returns_bind (returns_within fun id msgs hrun ↦ returns_bind (returns_unlock (returns_pure ?_)))
  obtain ⟨⟨m, msgs'⟩, htake, hrest⟩ := bind_eq_ok.mp hrun
  obtain ⟨msg', hof, hid⟩ := bind_eq_ok.mp hrest
  cases hid
  obtain ⟨box, msg, rest, -, -, -, hm, hstate, rfl⟩ := take_cases htake
  rw [hmsg] at hm
  obtain rfl : { msg with state := .recieved, owner := p } = msg' := by simpa [setMsg] using msgOf_eq_ok.mp hof
  refine ⟨.of_setMsg .recieved p hm (by simp [hstate]) halct ?_ fun m' ↦ ?_, m, _, ?_, rfl, rfl, rfl⟩
  · simp only [setOwner, setMsg, setBox, hmsg]
  · simp [setOwner, howner]
  · simp [setOwner, setMsg]

theorem msgRecieveAgain_kept (b : β) (msgidp : ℕ) :
    Returns (msgRecieveAgain now p b msgidp) s fun reply s' ↦ Kept s s' ∧ Gives p msgidp reply s' := by
  refine returns_bind (returns_lock fun _ ↦ returns_bind (returns_within fun _ msgs hrun ↦ ?_))
  obtain ⟨msgs', hagain, hrest⟩ := bind_eq_ok.mp hrun
  cases hrest
  obtain ⟨box, -, rfl⟩ := recieveAgain_eq_ok.mp hagain
  exact msgTake_kept rfl rfl fun m ↦ by simp [setOwner]

theorem msgRecieve_kept (boxId msgidp : ℕ) (isBlock : Bool) :
    Returns (msgRecieve now p boxId msgidp isBlock) s fun r s' ↦ Kept s s' ∧
      ∀ reply, r = some reply → reply.copies = [] ∨ Gives p msgidp reply s' := by
  refine returns_bind (returns_look fun found _ ↦ ?_)
  cases found with
  | none =>
    refine returns_bind fun a s' hrun ↦ ?_
    cases hrun
  | some b =>
    refine returns_bind (returns_lock fun hb ↦ returns_bind (returns_within fun r msgs htest ↦ ?_))
    obtain ⟨box, -, ⟨err, rfl, rfl⟩ | ⟨rfl, rfl, -⟩ | ⟨rfl, -, -, -, -, rfl⟩⟩ := recieveTest_cases htest
    · refine returns_bind (returns_unlock (returns_pure ⟨?_, ?_⟩))
      · exact (setOwner_back hb).symm ▸ .refl s
      · rintro reply ⟨⟩
        exact .inl rfl
    · have htake : Returns (msgTake now p b msgidp) (s.setOwner (.box b) (some now))
          fun reply s' ↦ Kept s s' ∧ Gives p msgidp reply s' :=
        msgTake_kept rfl rfl fun m ↦ by simp [setOwner]
      refine (returns_some _ _).mono ?_
      rintro r s' ⟨reply, rfl, hrun⟩
      obtain ⟨hkept, hgives⟩ := htake reply s' hrun
      refine ⟨hkept, ?_⟩
      rintro reply' ⟨⟩
      exact .inr hgives
    · refine returns_bind (returns_unlock (returns_pure ⟨.of_eq rfl rfl fun m _ ↦ by simp [setOwner], ?_⟩))
      rintro reply ⟨⟩

theorem msgNewmsg_kept (new : Except Errno μ) (newId : Except Errno ℕ) (mem : Except Errno Unit) (idp : ℕ)
    (data : List UInt8) (hnew : ∀ m, new = .ok m → s.msgs.msg m = none)
    (hid : ∀ id, newId = .ok id → s.msgs.msgAlct id = none) :
    Returns (msgNewmsg now p new newId mem idp data) s fun reply s' ↦
      Kept s s' ∧ reply.copies = [] ∨ ∃ m id, new = .ok m ∧ newId = .ok id ∧
        s'.msgs = s.msgs.newMsg p m id data ∧ s'.owner = update s.owner (.msg m) none ∧
        (reply.copies = [] ∨ reply.copies = [(idp, Bytes.word id)]) := by
  cases new with
  | error err => exact returns_pure (.inl ⟨.refl s, rfl⟩)
  | ok m =>
    have hm : s.msgs.msg m = none := hnew m rfl
    have hother : ∀ owner m', s.msgs.msg m' ≠ none →
        ((s.setOwner (.msg m) none).setOwner (.msg m) owner).owner (.msg m') = s.owner (.msg m') := by
      intro owner m' hm'
      have hne : m' ≠ m := fun heq ↦ hm' (heq ▸ hm)
      simp [setOwner, hne]
    refine returns_bind (returns_init (returns_bind (returns_lock fun _ ↦ ?_)))
    cases newId with
    | error err => exact returns_pure (.inl ⟨.of_eq rfl rfl (hother _), rfl⟩)
    | ok id =>
      have hback : update (update s.msgs.msgAlct id (some m)) id none = s.msgs.msgAlct := by
        rw [update_idem, ← hid id rfl, update_eq_self]
      refine returns_bind (returns_within fun _ msgs hput ↦ ?_)
      cases hput
      split
      · refine returns_bind (returns_within fun _ msgs' hdel ↦ returns_pure (.inl ⟨?_, rfl⟩))
        cases hdel
        exact .of_eq hback rfl (hother _)
      · refine returns_bind (returns_within fun _ msgs' hmake ↦ returns_bind (returns_unlock ?_))
        cases hmake
        refine returns_pure (.inr ⟨m, id, rfl, rfl, ?_, ?_, ?_⟩)
        · simp [setOwner, newMsg, setMsg]
        · simp [setOwner]
        · split_ifs
          · exact .inr rfl
          · exact .inl rfl

end Kept

end MsgKernel

/-! ### Bodies are what was passed -/

namespace UserState

/-- Every message has its id in the table and is not locked between calls, its body is what was passed under
that id, and a process that has got an id owns the message. -/
structure Inv (s : UserState π τ μ β) : Prop where
  listed : ∀ m msg, s.kernel.msgs.msg m = some msg → s.kernel.msgs.msgAlct msg.id = some m
  word : ∀ m msg, s.kernel.msgs.msg m = some msg → msg.id < 2 ^ 32 ∧ msg.body.length < 2 ^ 32
  free : ∀ m, s.kernel.msgs.msg m ≠ none → s.kernel.owner (.msg m) = none
  passed : ∀ p id data, s.Passed p id data →
    ∃ m msg, s.kernel.msgs.msgAlct id = some m ∧ s.kernel.msgs.msg m = some msg ∧ msg.body = data
  recieved : ∀ p id, s.Recieved p id →
    ∃ m msg, s.kernel.msgs.msgAlct id = some m ∧ s.kernel.msgs.msg m = some msg ∧ msg.owner = p ∧
      msg.state = .recieved

variable {proc : τ → π} {s s' : UserState π τ μ β}

theorem inv_initial (h : s.Initial) : s.Inv where
  listed m msg hm := by simp [h.kernel, MsgKernel.initial] at hm
  word m msg hm := by simp [h.kernel, MsgKernel.initial] at hm
  free m hm := by simp [h.kernel, MsgKernel.initial] at hm
  passed p id data hpassed := by
    obtain ⟨-, idp, addr, size, hmem⟩ := hpassed
    simp [h.log] at hmem
  recieved p id hrecieved := by
    obtain ⟨-, boxId, idp, isBlock, hmem⟩ := hrecieved
    simp [h.log] at hmem

theorem Inv.of_kept (hs : s.Inv) (hkept : s.kernel.Kept s'.kernel)
    (hpassed : ∀ p id data, s'.Passed p id data → s.Passed p id data)
    (hrecieved : ∀ p id, s'.Recieved p id → s.Recieved p id ∨ ∃ m msg,
      s'.kernel.msgs.msg m = some msg ∧ msg.id = id ∧ msg.owner = p ∧ msg.state = .recieved) : s'.Inv := by
  have hlisted : ∀ m msg', s'.kernel.msgs.msg m = some msg' → s'.kernel.msgs.msgAlct msg'.id = some m := by
    intro m msg' hm'
    obtain ⟨msg, hm, hid, -⟩ := hkept.old hm'
    rw [hkept.alct, hid]
    exact hs.listed m msg hm
  refine ⟨hlisted, fun m msg' hm' ↦ ?_, fun m hm' ↦ ?_, fun p id data h ↦ ?_, fun p id h ↦ ?_⟩
  · obtain ⟨msg, hm, hid, hbody⟩ := hkept.old hm'
    rw [hid, hbody]
    exact hs.word m msg hm
  all_goals grind [hkept.none, hkept.owner, hs.free, hs.passed, hkept.some, hkept.alct, hs.recieved]

theorem Inv.newMsg (hs : s.Inv) {p : π} {m : μ} {id : ℕ} {data : List UInt8}
    (hm : s.kernel.msgs.msg m = none) (hid : s.kernel.msgs.msgAlct id = none) (hlt : id < 2 ^ 32)
    (hdata : data.length < 2 ^ 32) (hmsgs : s'.kernel.msgs = s.kernel.msgs.newMsg p m id data)
    (howner : s'.kernel.owner = update s.kernel.owner (.msg m) none)
    (hpassed : ∀ p' id' data', s'.Passed p' id' data' → s.Passed p' id' data' ∨ id' = id ∧ data' = data)
    (hrecieved : ∀ p' id', s'.Recieved p' id' → s.Recieved p' id') : s'.Inv := by
  have hself : s'.kernel.msgs.msg m = some ⟨id, .unsend, p, data⟩ := by simp [hmsgs, Msgs.newMsg, setMsg]
  have hother : ∀ m', m' ≠ m → s'.kernel.msgs.msg m' = s.kernel.msgs.msg m' := by
    intro m' hne
    simp [hmsgs, Msgs.newMsg, setMsg, hne]
  have halct : s'.kernel.msgs.msgAlct id = some m := by simp [hmsgs, Msgs.newMsg]
  have halct' : ∀ id' m', s.kernel.msgs.msgAlct id' = some m' → s'.kernel.msgs.msgAlct id' = some m' := by
    intro id' m' h
    have hne : id' ≠ id := by
      rintro rfl
      simp [hid] at h
    simp [hmsgs, Msgs.newMsg, hne, h]
  have hne : ∀ m' msg, s.kernel.msgs.msg m' = some msg → m' ≠ m := by
    rintro m' msg h rfl
    simp [hm] at h
  refine ⟨fun m' msg h ↦ ?_, fun m' msg h ↦ ?_, fun m' h ↦ ?_, fun p' id' data' h ↦ ?_, fun p' id' h ↦ ?_⟩
  · grind [hs.listed]
  · by_cases heq : m' = m
    · grind
    · exact hs.word m' msg (hother m' heq ▸ h)
  · by_cases heq : m' = m
    · simp [howner, heq]
    · have hfree := hs.free m' (hother m' heq ▸ h)
      simp [howner, heq, hfree]
  all_goals grind [hs.passed, hs.recieved]

theorem mem_log_returned {p : π} {call : UserCall} {kernel : MsgKernel π τ μ β} {reply : MsgReply}
    {e : Answered π} :
    e ∈ (s.returned p call kernel reply).log ↔ e ∈ s.log ∨ e = ⟨p, call, call.data (s.mem p), reply⟩ := by
  simp [returned]

section

variable {p p' : π} {call : UserCall} {kernel : MsgKernel π τ μ β} {reply : MsgReply} {id : ℕ}

theorem passed_returned {data : List UInt8} (h : (s.returned p call kernel reply).Passed p' id data) :
    s.Passed p' id data ∨ id < 2 ^ 32 ∧ ∃ idp addr size, call = .newmsg idp addr size ∧
      data = Bytes.read (s.mem p) addr size ∧ reply.copies = [(idp, Bytes.word id)] := by
  obtain ⟨hlt, idp, addr, size, hmem⟩ := h
  obtain hmem | heq := mem_log_returned.mp hmem
  · exact .inl ⟨hlt, idp, addr, size, hmem⟩
  · obtain ⟨-, rfl, rfl, rfl⟩ := Answered.mk.inj heq
    exact .inr ⟨hlt, idp, addr, size, rfl, rfl, rfl⟩

theorem recieved_returned (h : (s.returned p call kernel reply).Recieved p' id) :
    s.Recieved p' id ∨ p' = p ∧ id < 2 ^ 32 ∧ ∃ boxId idp isBlock, call = .recieve boxId idp isBlock ∧
      reply.copies = [(idp, Bytes.word id)] := by
  obtain ⟨hlt, boxId, idp, isBlock, hmem⟩ := h
  obtain hmem | heq := mem_log_returned.mp hmem
  · exact .inl ⟨hlt, boxId, idp, isBlock, hmem⟩
  grind

end

variable {idp : ℕ} {p : π} {kernel : MsgKernel π τ μ β} {reply : MsgReply}

theorem id_of_word {idp' id id' : ℕ} (hlt : id < 2 ^ 32) (hlt' : id' < 2 ^ 32)
    (h : [(idp, Bytes.word id)] = [(idp', Bytes.word id')]) : id = id' := by grind [Bytes.value_word]

theorem inv_recieve (hs : s.Inv) {boxId isBlock : ℕ} (hkept : s.kernel.Kept kernel)
    (hreply : reply.copies = [] ∨ Gives p idp reply kernel) :
    (s.returned p (.recieve boxId idp isBlock) kernel reply).Inv := by
  refine hs.of_kept hkept (fun p' id data h ↦ ?_) fun p' id h ↦ ?_
  · obtain h | ⟨-, _, _, _, hcall, -⟩ := passed_returned h
    · exact h
    · cases hcall
  · obtain h | ⟨rfl, hlt, boxId', idp', isBlock', -, hcopies⟩ := recieved_returned h
    · exact .inl h
    · obtain hnone | ⟨m, msg, hm, hstate, howner, rfl⟩ := hreply
      · simp [hnone] at hcopies
      · obtain ⟨before, hbefore, hid, -⟩ := hkept.old hm
        have hlt' : msg.id < 2 ^ 32 := hid ▸ (hs.word m before hbefore).1
        exact .inr ⟨m, msg, hm, id_of_word hlt' hlt hcopies, howner, hstate⟩

theorem inv_returned (hs : s.Inv) {call : UserCall} (hkept : s.kernel.Kept kernel)
    (hnew : ∀ idp addr size, call ≠ .newmsg idp addr size)
    (hrcv : ∀ boxId idp isBlock, call ≠ .recieve boxId idp isBlock) : (s.returned p call kernel reply).Inv := by
  refine hs.of_kept hkept (fun p' id data h ↦ ?_) fun p' id h ↦ .inl ?_
  all_goals grind [passed_returned, recieved_returned]

theorem inv_newmsg (hs : s.Inv) {t : τ} {addr size : ℕ} {allocs : Allocs μ β}
    (hsize : size < 2 ^ 32) (hfresh : fresh s.kernel.msgs allocs (.newmsg idp addr size) = true)
    (hrun : (msgNewmsg t (proc t) allocs.msg allocs.id allocs.mem idp
      (Bytes.read (s.mem (proc t)) addr size) s.kernel).2 = .ok (reply, kernel)) :
    (s.returned (proc t) (.newmsg idp addr size) kernel reply).Inv := by
  obtain ⟨hfreshMsg, hfreshId⟩ := Bool.and_eq_true_iff.mp hfresh
  have hm : ∀ m, allocs.msg = .ok m → s.kernel.msgs.msg m = none := by
    intro m hm
    simpa [hm, Except.toOption] using hfreshMsg
  have hid : ∀ id, allocs.id = .ok id → id < 2 ^ 32 ∧ s.kernel.msgs.msgAlct id = none := by
    intro id hid
    simpa [hid, Except.toOption] using hfreshId
  have hrcv : ∀ p' id, (s.returned (proc t) (.newmsg idp addr size) kernel reply).Recieved p' id →
      s.Recieved p' id := by grind [recieved_returned]
  obtain ⟨hkept, hnone⟩ | ⟨m, id, hm', hid', hmsgs, howner, hcopies⟩ :=
    msgNewmsg_kept _ _ _ _ _ hm (fun id h ↦ (hid id h).2) reply kernel hrun
  · refine hs.of_kept hkept (fun p' id data h ↦ ?_) fun p' id h ↦ .inl (hrcv p' id h)
    grind [passed_returned]
  · obtain ⟨hlt, hfree⟩ := hid id hid'
    refine hs.newMsg (hm m hm') hfree hlt (by simpa using hsize) hmsgs howner (fun p' id' data h ↦ ?_) hrcv
    grind [passed_returned, id_of_word]

theorem Inv.of_log (hs : s.Inv) (hkept : s.kernel.Kept s'.kernel) (hlog : s'.log = s.log) : s'.Inv :=
  hs.of_kept hkept (fun p id data h ↦ by rwa [Passed, hlog] at h)
    fun p id h ↦ .inl (by rwa [Recieved, hlog] at h)

theorem inv_next {a : UserAction π τ μ β} (hs : s.Inv) (hallowed : s.allowed a = true)
    (hnext : s.next proc a = .ok s') : s'.Inv := by
  cases a with
  | store p mem =>
    cases hnext
    exact hs.of_log (.refl _) rfl
  | call t call allocs =>
    obtain ⟨⟨r, kernel⟩, hrun, hnext⟩ := bind_eq_ok.mp hnext
    rw [syscall_eq] at hrun
    simp only [allowed, Bool.and_eq_true] at hallowed
    obtain ⟨⟨-, hwords⟩, hfresh⟩ := hallowed
    cases call with
    | newmsg idp addr size =>
      obtain ⟨reply, rfl, hnew⟩ := returns_some _ _ r kernel hrun
      cases hnext
      refine inv_newmsg hs ?_ hfresh hnew
      simp [UserCall.args] at hwords
      omega
    | newbox idp =>
      obtain ⟨reply, rfl, hcall⟩ := returns_some _ _ r kernel hrun
      cases hnext
      exact inv_returned hs (msgNewbox_kept _ _ _ reply kernel hcall) (by simp) (by simp)
    | send boxId msgId =>
      obtain ⟨reply, rfl, hcall⟩ := returns_some _ _ r kernel hrun
      cases hnext
      exact inv_returned hs (msgSend_kept _ _ reply kernel hcall) (by simp) (by simp)
    | read msgId cache offset size =>
      obtain ⟨reply, rfl, hcall⟩ := returns_some _ _ r kernel hrun
      cases hnext
      exact inv_returned hs (msgRead_kept _ _ _ _ reply kernel hcall) (by simp) (by simp)
    | recieve boxId idp isBlock =>
      obtain ⟨hkept, hreply⟩ := msgRecieve_kept _ _ _ r kernel hrun
      cases r with
      | none =>
        dsimp only [blocked] at hnext
        split at hnext
        · cases hnext
        · cases hnext
          exact hs.of_log hkept rfl
      | some reply =>
        cases hnext
        exact inv_recieve hs hkept (hreply reply rfl)
  | resume t =>
    simp only [next] at hnext
    split at hnext
    · cases hnext
    · obtain ⟨⟨reply, kernel⟩, hrun, hnext⟩ := bind_eq_ok.mp hnext
      cases hnext
      obtain ⟨hkept, hgives⟩ := msgRecieveAgain_kept _ _ reply kernel hrun
      exact (inv_recieve hs hkept (.inr hgives)).of_log (.refl _) rfl

theorem inv_reached (h : s.Reached proc) : s.Inv :=
  System.Run.invariant (P := Inv) (fun _ hinit ↦ inv_initial hinit)
    (fun _ _ _ hs hallowed hnext ↦ inv_next hs hallowed hnext) h

/-! ### Reading a received message -/

theorem msgRead_recieved {k : MsgKernel π τ μ β} {now : τ} {msgId cache offset size : ℕ} {m : μ}
    {msg : Msg π (List UInt8)} (hid : k.msgs.msgAlct msgId = some m) (hm : k.msgs.msg m = some msg)
    (howner : msg.owner = p) (hstate : msg.state = .recieved) (hfree : k.owner (.msg m) = none)
    (hle : offset + size ≤ msg.body.length) (hlt : msg.body.length < 2 ^ 32) :
    (MsgKernel.msgRead now p msgId cache offset size k).2 =
      .ok (⟨.ok, [(cache, (msg.body.drop offset).take size)]⟩, k) := by
  have hmod : (offset + size) % 2 ^ 32 = offset + size := Nat.mod_eq_of_lt (by omega)
  have hlook : CallM.look (fun msgs ↦ .ok (msgs.msgAlct msgId)) k = ([], .ok (some m, k)) := by
    simp [CallM.look, hid, bind, Except.bind, pure, Except.pure]
  have hlock : mutexLock now (.msg m) k = ([.lock (.msg m)], .ok ((), k.setOwner (.msg m) (some now))) := by
    simp [mutexLock, hfree, bind, Except.bind, pure, Except.pure]
  have hbody : bodyOf p (k.setOwner (.msg m) (some now)).msgs m = .ok (.ok, msg.body) := by
    simp [bodyOf, setOwner, msgOf_eq_ok.mpr hm, howner, hstate, bind, Except.bind, pure, Except.pure]
  have hunlock : mutexUnlock now (some (.msg m)) (k.setOwner (.msg m) (some now)) =
      ([.unlock (some (.msg m))], .ok ((), k)) := by
    simp only [mutexUnlock, assert_of_true owner_setOwner, bind, Except.bind, setOwner_back hfree]
    rfl
  rw [MsgKernel.msgRead, CallM.bind_of_ok hlook]
  dsimp only
  rw [CallM.bind_of_ok hlock]
  simp only [CallM.look, hbody, hmod, bind, Except.bind, CallM.bind, if_neg (Nat.not_lt.mpr hle), hunlock,
    ne_eq, not_true, if_false, pure, Except.pure]

/-- The library's `msg_read` delivers a part of a message that one process has passed and another has received
exactly if the offset of the part is its size. -/
theorem msgRead_delivers_iff {p : π} {t : τ} {id offset size : ℕ} {data : List UInt8} (hs : s.Reached proc)
    (hpassed : s.Passed p id data) (hrecieved : s.Recieved (proc t) id) (hle : offset + size ≤ data.length)
    (allocs : Allocs μ β) (cache : ℕ) :
    s.Delivers proc t allocs id cache offset size ((data.drop offset).take size) ↔ offset = size := by
  have hinv := inv_reached hs
  obtain ⟨m, msg, hid, hm, rfl⟩ := hinv.passed p id data hpassed
  obtain ⟨m', msg', hid', hm', howner, hstate⟩ := hinv.recieved (proc t) id hrecieved
  obtain rfl : m = m' := Option.some_inj.mp (hid.symm.trans hid')
  obtain rfl : msg = msg' := Option.some_inj.mp (hm.symm.trans hm')
  have hfree := hinv.free m (by simp [hm])
  have hlt := (hinv.word m msg hm).2
  -- the kernel is asked for `offset` bytes at `size`
  have hrun : s.syscall proc t (.read id cache offset size) allocs =
      .ok (some ⟨.ok, [(cache, (msg.body.drop size).take offset)]⟩, s.kernel) := by
    rw [syscall_eq]
    exact some_of_ok (msgRead_recieved hid hm howner hstate hfree (by omega) hlt)
  constructor
  · rintro ⟨kernel, hdelivers⟩
    grind [List.length_take]
  · rintro rfl
    exact ⟨s.kernel, hrun⟩

/-- Two processes of one thread each, before their first call; the first has four bytes at `0x1000`. -/
def exampleStart : UserState (Fin 2) (Fin 2) Unit Unit where
  kernel := MsgKernel.initial
  mem p := if p = 0 then Bytes.write (fun _ ↦ 0) 0x1000 [1, 2, 3, 4] else fun _ ↦ 0
  waiting _ := none
  log := []

def exampleAllocs (id : ℕ) : Allocs Unit Unit := ⟨.ok (), .ok (), .ok id, .ok ()⟩

/-- The second process makes a box and waits for a message, which the first one passes and sends. -/
def exampleActions : List (UserAction (Fin 2) (Fin 2) Unit Unit) :=
  [.call 1 (.newbox 0x2000) (exampleAllocs 7), .call 1 (.recieve 7 0x2004 1) (exampleAllocs 0),
    .call 0 (.newmsg 0x2000 0x1000 4) (exampleAllocs 3), .call 0 (.send 7 3) (exampleAllocs 0), .resume 1]

def exampleRun : Result (UserState (Fin 2) (Fin 2) Unit Unit) :=
  exampleActions.foldlM (System.guarded (next id) (fun s a ↦ s.allowed a = true) .unset) exampleStart

/-- The log of the run, and the replies to `msg_read` of the last two bytes, and of the last three. -/
def exampleView : Result (List (Answered (Fin 2)) × Option MsgReply × Option MsgReply) := do
  let s ← exampleRun
  let (two, _) ← s.syscall id 1 (.read 3 0x3000 2 2) (exampleAllocs 0)
  let (three, _) ← s.syscall id 1 (.read 3 0x3000 1 3) (exampleAllocs 0)
  return (s.log, two, three)

theorem exampleView_eq : exampleView = .ok ([⟨1, .newbox 0x2000, [], ⟨.ok, [(0x2000, Bytes.word 7)]⟩⟩,
      ⟨0, .newmsg 0x2000 0x1000 4, [1, 2, 3, 4], ⟨.ok, [(0x2000, Bytes.word 3)]⟩⟩,
      ⟨0, .send 7 3, [], ⟨.ok, []⟩⟩, ⟨1, .recieve 7 0x2004 1, [], ⟨.ok, [(0x2004, Bytes.word 3)]⟩⟩],
      some ⟨.ok, [(0x3000, [3, 4])]⟩, some ⟨.ok, [(0x3000, [4])]⟩) := by decide +kernel

theorem exampleRun_reached : ∃ s, exampleRun = .ok s ∧ s.Reached id ∧ s.Passed 0 3 [1, 2, 3, 4] ∧
    s.Recieved 1 3 ∧ ∃ kernel, s.syscall id 1 (.read 3 0x3000 1 3) (exampleAllocs 0) =
      .ok (some ⟨.ok, [(0x3000, [4])]⟩, kernel) := by
  obtain ⟨s, hrun, hview⟩ := bind_eq_ok.mp exampleView_eq
  obtain ⟨⟨two, _⟩, -, hview⟩ := bind_eq_ok.mp hview
  obtain ⟨⟨three, kernel⟩, hthree, hview⟩ := bind_eq_ok.mp hview
  obtain ⟨hlog, -, rfl⟩ := ok_triple_inj hview
  have hreached : s.Reached id :=
    System.run_of_foldlM (.init ⟨rfl, fun _ ↦ rfl, rfl⟩) hrun
  refine ⟨s, hrun, hreached, ⟨by decide, 0x2000, 0x1000, 4, ?_⟩, ⟨by decide, 7, 0x2004, 1, ?_⟩, kernel, hthree⟩
  all_goals simp [hlog]

/-- The last two bytes of a message of four. -/
theorem msgRead_delivers_example : ∃ s : UserState (Fin 2) (Fin 2) Unit Unit, s.Reached id ∧
    s.Passed 0 3 [1, 2, 3, 4] ∧ s.Recieved 1 3 ∧ s.Delivers id 1 (exampleAllocs 0) 3 0x3000 2 2 [3, 4] := by
  obtain ⟨s, -, hreached, hpassed, hrecieved, -⟩ := exampleRun_reached
  exact ⟨s, hreached, hpassed, hrecieved,
    (msgRead_delivers_iff hreached hpassed hrecieved (by decide) (exampleAllocs 0) 0x3000).mpr rfl⟩

/-- Three bytes from the second on: the library asks the kernel for one byte from the fourth on. -/
theorem msgRead_misdelivers : ∃ s : UserState (Fin 2) (Fin 2) Unit Unit, s.Reached id ∧
    s.Passed 0 3 [1, 2, 3, 4] ∧ s.Recieved 1 3 ∧ s.Delivers id 1 (exampleAllocs 0) 3 0x3000 1 3 [4] ∧
    ¬ s.Delivers id 1 (exampleAllocs 0) 3 0x3000 1 3 [2, 3, 4] := by
  obtain ⟨s, -, hreached, hpassed, hrecieved, kernel, hread⟩ := exampleRun_reached
  refine ⟨s, hreached, hpassed, hrecieved, ⟨kernel, hread⟩, ?_⟩
  rintro ⟨kernel', hread'⟩
  rw [hread] at hread'
  simp at hread'

end UserState

end Lanthorn
