import Lanthorn.Srv.Registry

/-!
# What a service makes of a message

Model of the whole of `srv_called`: the look-up of the service, `msg_recieve` on its box, and the checks of the
message that it gets, each of them an assertion of the kernel. The answer of `umalloc` is an input. When the box
is empty the thread waits; `later` is the state in which it runs again.

Anybody may send anything to the box of a service. `Srv.srvCalled_returns_iff` says for which messages the call
returns: those with a whole header whose size of the arguments is zero, or cannot be allocated, or is not more
than what follows the header. `Srv.srvCalled_asserts` is a message of one byte, for which the kernel stops.
-/

namespace Lanthorn

open Library

namespace Srv

section Called

variable {τ μ β : Type} [DecidableEq μ] [DecidableEq β]

/-- The end of `msg_recieve`: the first message of the box goes to the process, and its id is returned. -/
def recieveFirst (s : Msgs ℕ τ μ β (List UInt8)) (p : ℕ) (b : β) :
    Result (Errno × ℕ × Msgs ℕ τ μ β (List UInt8)) := do
  let (m, s) ← s.take p b
  let msg ← s.msgOf m
  return (.ok, msg.id, s)

/-- `msg_recieve` with `is_block` by the thread `now` of the process `p`. For an id of no box it unlocks the mutex of
the null pointer. -/
def msgRecieve (s later : Msgs ℕ τ μ β (List UInt8)) (now : τ) (p boxid : ℕ) :
    Result (Errno × ℕ × Msgs ℕ τ μ β (List UInt8)) := do
  match s.boxAlct boxid with
  | none => throw .null
  | some b =>
    let (test, s) ← s.recieveTest now p b true
    match test with
    | .fail err => return (err, 0, s)
    | .ready => recieveFirst s p b
    | .block => do
      let s ← later.recieveAgain b
      recieveFirst s p b

/-- `srv_called` after `msg_recieve`, for the answer of `umalloc`. -/
def parseCall (s : Msgs ℕ τ μ β (List UInt8)) (p msgId : ℕ) (mem : Errno × ℕ) : Result (Errno × Option Callee) := do
  let (err, msgSz) ← s.msgSize p msgId
  assert (err = .ok)
  assert (headerSize ≤ msgSz)
  let (err, header) ← s.msgRead p msgId 0 headerSize
  assert (err = .ok)
  let argSz := Bytes.wordAt header 4
  let callee : Callee := ⟨Bytes.wordAt header 0, argSz, sizesOf header, none⟩
  if 0 < argSz then
    if mem.1 ≠ .ok then return (mem.1, none)
    let (err, cache) ← s.msgRead p msgId headerSize argSz
    assert (err = .ok)
    return (.ok, some { callee with cache := some cache })
  else return (.ok, some callee)

/-- `srv_called` once it has found the service. -/
def serve (s later : Msgs ℕ τ μ β (List UInt8)) (now : τ) (p : ℕ) (mem : Errno × ℕ) (srv : Service) :
    Result Errno := do
  let (err, msgId, s) ← msgRecieve s later now p srv.boxid
  assert (err = .ok)
  let (err, _) ← parseCall s p msgId mem
  return err

/-! ### The receipt -/

/-- The first message of a box, sent and not yet received. -/
structure First (s : Msgs ℕ τ μ β (List UInt8)) (b : β) (m : μ) (msg : Msg ℕ (List UInt8)) : Prop where
  head : ∃ box rest, s.box b = some box ∧ 0 < box.nmsg ∧ box.msgLs = m :: rest
  msg_eq : s.msg m = some msg
  sended : msg.state = .sended
  id_eq : s.msgAlct msg.id = some m

/-- The box is one of the process that nobody waits for, and the message is its first one: already there, or
when the process that finds none runs again. -/
def Delivers (s later : Msgs ℕ τ μ β (List UInt8)) (p boxid : ℕ) (b : β) (m : μ)
    (msg : Msg ℕ (List UInt8)) : Prop :=
  s.boxAlct boxid = some b ∧ ∃ box, s.box b = some box ∧ box.owner = p ∧ box.state = .rcvable ∧
    (box.nmsg ≠ 0 ∧ First s b m msg ∨ box.nmsg = 0 ∧ First later b m msg)

variable {s later : Msgs ℕ τ μ β (List UInt8)} {now : τ} {p boxid msgId : ℕ} {b : β} {m : μ}
  {msg : Msg ℕ (List UInt8)} {mem : Errno × ℕ} {body : List UInt8}

theorem First.recieveFirst (h : First s b m msg) :
    ∃ s', recieveFirst s p b = .ok (.ok, msg.id, s') ∧ s'.Holds p msg.id msg.body := by
  obtain ⟨box, rest, hbox, hnmsg, hls⟩ := h.head
  have hfirst := Msgs.takeFirst_eq_ok.mpr ⟨box, msg, rest, hbox, hnmsg, hls, h.msg_eq, h.sended, rfl⟩
  have hsecond := (Msgs.takeSecond_eq_ok (p := p) (b := b) (m := m)
    (s := (s.setBox b { box with msgLs := rest }).setMsg m { msg with state := .recieved })).mpr
    ⟨{ box with msgLs := rest }, { msg with state := .recieved }, by simp [Msgs.setBox, Msgs.setMsg],
      by simp [Msgs.setMsg], rfl⟩
  have htake : s.take p b = .ok (m, _) := bind_eq_ok.mpr ⟨_, hfirst, bind_eq_ok.mpr ⟨_, hsecond, rfl⟩⟩
  refine ⟨_, bind_eq_ok.mpr ⟨_, htake, ?_⟩, Msgs.holds_of_take htake h.msg_eq h.id_eq⟩
  simp [Msgs.msgOf, Msgs.setMsg]

theorem First.again (h : First s b m msg) : ∃ s', s.recieveAgain b = .ok s' ∧ First s' b m msg := by
  obtain ⟨box, rest, hbox, hnmsg, hls⟩ := h.head
  refine ⟨_, Msgs.recieveAgain_eq_ok.mpr ⟨box, hbox, rfl⟩, ⟨?_, h.msg_eq, h.sended, h.id_eq⟩⟩
  exact ⟨{ box with state := .rcvable }, rest, Function.update_self .., hnmsg, hls⟩

theorem Delivers.msgRecieve (h : Delivers s later p boxid b m msg) (now : τ) :
    ∃ s', msgRecieve s later now p boxid = .ok (.ok, msg.id, s') ∧ s'.Holds p msg.id msg.body := by
  obtain ⟨hid, box, hbox, howner, hstate, ⟨hnmsg, hfirst⟩ | ⟨hnmsg, hfirst⟩⟩ := h
  · obtain ⟨s', hrun, hholds⟩ := hfirst.recieveFirst (p := p)
    refine ⟨s', ?_, hholds⟩
    simpa [Srv.msgRecieve, hid, Msgs.recieveTest, Msgs.boxOf, hbox, howner, hstate, hnmsg] using hrun
  · obtain ⟨later', hagain, hfirst'⟩ := hfirst.again
    obtain ⟨s', hrun, hholds⟩ := hfirst'.recieveFirst (p := p)
    refine ⟨s', ?_, hholds⟩
    simpa [Srv.msgRecieve, hid, Msgs.recieveTest, Msgs.boxOf, hbox, howner, hstate, hnmsg, hagain] using hrun

/-! ### The message -/

/-- The messages for which `srv_called` returns: the header is there, and the arguments are not there to be
read, cannot be allocated, or are all in the message. -/
def Parses (body : List UInt8) (mem : Errno × ℕ) : Prop :=
  headerSize ≤ body.length ∧
    (Bytes.wordAt body 4 = 0 ∨ mem.1 ≠ .ok ∨ headerSize + Bytes.wordAt body 4 ≤ body.length)

theorem wordAt_take {offset : ℕ} (hoffset : offset + 4 ≤ headerSize) :
    Bytes.wordAt (body.take headerSize) offset = Bytes.wordAt body offset := by
  rw [Bytes.wordAt, Bytes.wordAt, List.drop_take, List.take_take, Nat.min_eq_left (by omega)]

/-- `msg_read` refuses a copy beyond the message, or does not come back from it where the sum of offset and
size overflows. -/
theorem msgRead_beyond (h : s.Holds p msgId body) {offset size : ℕ} (hbeyond : body.length < offset + size) :
    s.msgRead p msgId offset size = .ok (.inval, []) ∨ s.msgRead p msgId offset size = .error .unset := by
  simp only [Msgs.msgRead, h.readTest, ok_bind]
  rw [if_neg (by simp)]
  by_cases hwrap : body.length < (offset + size) % 2 ^ 32
  · exact .inl (if_pos hwrap)
  · rw [if_neg hwrap, if_pos hbeyond]
    exact .inr rfl

theorem parseCall_short (h : s.Holds p msgId body) (hshort : body.length < headerSize) :
    parseCall s p msgId mem = .error .assertion := by simp [parseCall, h.msgSize, assert, hshort.not_ge]

theorem parseCall_of_header (h : s.Holds p msgId body) (hword : body.length < 2 ^ 32)
    (hheader : headerSize ≤ body.length) : parseCall s p msgId mem = (
      let callee : Callee := ⟨Bytes.wordAt body 0, Bytes.wordAt body 4, sizesOf (body.take headerSize), none⟩
      if 0 < Bytes.wordAt body 4 then
        if mem.1 ≠ .ok then .ok (mem.1, none)
        else do
          let (err, cache) ← s.msgRead p msgId headerSize (Bytes.wordAt body 4)
          assert (err = .ok)
          return (.ok, some { callee with cache := some cache })
      else .ok (.ok, some callee)) := by
  have hread : s.msgRead p msgId 0 headerSize = .ok (.ok, (body.drop 0).take headerSize) :=
    h.msgRead (by simpa using hheader) hword
  rw [List.drop_zero] at hread
  simp only [parseCall, h.msgSize, hread, assert_of_true trivial, assert_of_true hheader,
    wordAt_take (show 4 + 4 ≤ headerSize by decide), wordAt_take (show 0 + 4 ≤ headerSize by decide), ok_bind]
  rfl

theorem parseCall_returns_iff (h : s.Holds p msgId body) (hword : body.length < 2 ^ 32) :
    (∃ r, parseCall s p msgId mem = .ok r) ↔ Parses body mem := by
  by_cases hheader : headerSize ≤ body.length
  swap
  · rw [parseCall_short h (not_le.mp hheader)]
    simp [Parses, hheader]
  rw [parseCall_of_header h hword hheader]
  by_cases hzero : Bytes.wordAt body 4 = 0
  · simp [Parses, hheader, hzero]
  by_cases hmem : mem.1 = .ok
  swap
  · refine iff_of_true ?_ ⟨hheader, .inr (.inl hmem)⟩
    dsimp only
    rw [if_pos (Nat.pos_of_ne_zero hzero), if_pos hmem]
    exact ⟨_, rfl⟩
  have hpos : 0 < Bytes.wordAt body 4 := Nat.pos_of_ne_zero hzero
  simp only [Parses, hheader, hzero, hmem, hpos, if_true, ne_eq, not_true_eq_false, if_false, false_or, true_and]
  by_cases hfits : headerSize + Bytes.wordAt body 4 ≤ body.length
  · rw [h.msgRead hfits hword]
    simp [hfits]
  · refine iff_of_false ?_ hfits
    obtain hread | hread := msgRead_beyond h (not_le.mp hfits) <;>
      simp [hread, assert]

/-! ### The call -/

theorem rbtFind_service {r : Registry} (h : r.Wf) {srv : Service} (hsrv : srv ∈ r.services) :
    ∃ a, r.rbtFind srv.name = .ok (some a) ∧ r.srv a = srv := by
  obtain ⟨n, hn, rfl⟩ := List.mem_map.mp hsrv
  obtain ⟨n', hn', hname, hfind⟩ := h.rbtFind_some (Registry.registered_iff.mpr ⟨n, hn, rfl⟩)
  obtain rfl : n' = n := h.keyed.key_inj hn' hn (congrArg Str.key hname)
  exact ⟨_, hfind, rfl⟩

theorem srvCalled_eq {r : Registry} (h : r.Inv) {srv : Service} (hsrv : srv ∈ r.services) :
    r.srvCalled srv.name srv.owner (serve s later now srv.owner mem) =
      (serve s later now srv.owner mem srv).map (fun err ↦ (err, r)) := by
  obtain ⟨a, hfind, ha⟩ := rbtFind_service h.toWf hsrv
  rw [h.srvCalled_eq h.unlocked, hfind]
  simp only [ha, ne_eq, not_true_eq_false, if_false, ok_bind]
  cases serve s later now srv.owner mem srv <;> rfl

/-- `srv_called` of the owner of a registered service returns exactly for the messages with a whole header and
with all the arguments that it announces, unless these cannot be allocated. -/
theorem srvCalled_returns_iff {r : Registry} (h : r.Inv) {srv : Service} (hsrv : srv ∈ r.services)
    (hmail : Delivers s later srv.owner srv.boxid b m msg) (hword : msg.body.length < 2 ^ 32) :
    (∃ err r', r.srvCalled srv.name srv.owner (serve s later now srv.owner mem) = .ok (err, r')) ↔
      Parses msg.body mem := by
  obtain ⟨s', hrecieve, hholds⟩ := hmail.msgRecieve now
  have hserve : serve s later now srv.owner mem srv = (parseCall s' srv.owner msg.id mem).map Prod.fst := by
    simp only [serve, hrecieve, assert_of_true trivial, ok_bind]
    cases parseCall s' srv.owner msg.id mem <;> rfl
  rw [srvCalled_eq h hsrv, hserve, ← parseCall_returns_iff hholds hword]
  cases parseCall s' srv.owner msg.id mem <;> simp [Except.map]

end Called

/-- Process 7 has the box 1 of the service, and process 0 has a message with the body. -/
def exampleUnsent (body : List UInt8) : Msgs ℕ Unit Unit Unit (List UInt8) :=
  (Msgs.newBox ⟨fun _ ↦ none, fun _ ↦ none, fun _ ↦ none, fun _ ↦ none⟩ 7 () 1).newMsg 0 () 3 body

def exampleMail (body : List UInt8) : Msgs ℕ Unit Unit Unit (List UInt8) :=
  ((exampleUnsent body).setBox () ⟨1, .rcvable, 1, 7, none, [()]⟩).setMsg () ⟨3, .sended, 0, body⟩

theorem exampleMail_eq (body : List UInt8) :
    (exampleUnsent body).sendMsg 0 () () = .ok (.ok, none, exampleMail body) := rfl

theorem exampleMail_delivers (body : List UInt8) :
    Delivers (exampleMail body) (exampleMail body) 7 1 () () ⟨3, .sended, 0, body⟩ :=
  ⟨rfl, _, rfl, rfl, rfl, .inl ⟨by decide, ⟨_, _, rfl, by decide, rfl⟩, rfl, rfl, rfl⟩⟩

/-- A request without arguments is taken. -/
theorem srvCalled_returns_iff_example : ∃ (r : Registry) (srv : Service), r.Inv ∧ srv ∈ r.services ∧
    ∃ err r', r.srvCalled srv.name srv.owner (serve (exampleMail (List.replicate 48 0))
      (exampleMail (List.replicate 48 0)) () srv.owner (.ok, 0)) = .ok (err, r') := by
  obtain ⟨r, hinv, hservices⟩ := Registry.exampleInit_inv
  have hsrv : (⟨[0x61#8], 7, 1, 1⟩ : Service) ∈ r.services := by simp [hservices]
  refine ⟨r, _, hinv, hsrv, ?_⟩
  exact (srvCalled_returns_iff hinv hsrv (exampleMail_delivers _) (by decide)).mpr ⟨by decide, .inl (by decide)⟩

/-- A message of one byte to the box of a service stops the kernel. -/
theorem srvCalled_asserts : ∃ (r : Registry) (srv : Service), r.Inv ∧ srv ∈ r.services ∧
    (exampleUnsent [9]).sendMsg 0 () () = .ok (.ok, none, exampleMail [9]) ∧
    Delivers (exampleMail [9]) (exampleMail [9]) srv.owner srv.boxid () () ⟨3, .sended, 0, [9]⟩ ∧
    r.srvCalled srv.name srv.owner (serve (exampleMail [9]) (exampleMail [9]) () srv.owner (.ok, 0)) =
      .error .assertion := by
  obtain ⟨r, hinv, hservices⟩ := Registry.exampleInit_inv
  have hsrv : (⟨[0x61#8], 7, 1, 1⟩ : Service) ∈ r.services := by simp [hservices]
  refine ⟨r, _, hinv, hsrv, exampleMail_eq _, exampleMail_delivers _, ?_⟩
  rw [srvCalled_eq hinv hsrv]
  rfl

end Srv

end Lanthorn
