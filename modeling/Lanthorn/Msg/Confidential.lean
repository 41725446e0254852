import Lanthorn.Msg.Reads

/-!
# Confidentiality of messages

A call of `msg_read` or `msg_size` that falls between the two writes of a receipt is answered although its
process has not received the message (`Reads.reachable_answer_without_receipt`). In runs in which the
looks and the writes at one message do not overlap, a process gets answers about messages that it has
received from its own boxes only, and the content of these is all that its answers depend on
(`Reads.separated_run_confidential`).
-/

set_option linter.unusedSectionVars false

namespace Lanthorn

open List

open Library Msgs

namespace Reads

variable {π τ μ β : Type} [DecidableEq π] [DecidableEq τ] [DecidableEq μ] [DecidableEq β]

/-! ### Two runs -/

def content (s : Reads π τ μ β) (m : μ) : List UInt8 :=
  Bytes.read s.mem (s.buf m).addr (s.buf m).size

def answerOf (data : List UInt8) : Query → Answer
  | .size => .size data.length
  | .read offset len =>
    if data.length < offset + len then .fail .inval else .bytes ((data.drop offset).take len)

theorem answer_eq_answerOf {s : Reads π τ μ β} {m : μ} {q : Query}
    (hbound : (s.buf m).addr + (s.buf m).size ≤ 2 ^ 32) (hwraps : ¬ q.Wraps) :
    s.answer m q = answerOf (s.content m) q := by
  cases q with
  | size => simp [answer, answerOf, content]
  | read offset len =>
    have hsum : offset + len < 2 ^ 32 := by simpa [Query.Wraps] using hwraps
    simp only [answer, answerOf, Nat.mod_eq_of_lt hsum, content, Bytes.length_read]
    by_cases hlt : (s.buf m).size < offset + len
    · rw [if_pos hlt, if_pos hlt]
    · rw [if_neg hlt, if_neg hlt, Bytes.take_drop_read (by omega)]
      refine congrArg _ (map_congr_left fun i hi ↦ ?_)
      rw [mem_range] at hi
      rw [Nat.mod_eq_of_lt (by omega)]

def view (p : π) (log : List (Event π μ β)) : List (Option μ × Query × Answer) :=
  log.filterMap fun event ↦
    match event with
    | .answered p' m q answer => if p' = p ∧ ¬ q.Wraps then some (m, q, answer) else none
    | .recieved _ _ _ => none

theorem view_append (p : π) (log : List (Event π μ β)) (event : Event π μ β) :
    view p (log ++ [event]) = view p log ++ view p [event] :=
  filterMap_append

/-- The same step, up to where the memory of a new message lies and up to the content of a message
that is secret. -/
inductive Alike (secret : μ → Prop) : ReadAction τ μ β → ReadAction τ μ β → Prop
  | same {a : ReadAction τ μ β} : Alike secret a a
  | newMsg {now : τ} {m : μ} {id addr addr' : ℕ} {data data' : List UInt8}
    (hdata : ¬ secret m → data = data') :
    Alike secret (.newMsg now m id addr data) (.newMsg now m id addr' data')

structure Related (proc : τ → π) (p : π) (secret : μ → Prop) (s t : Reads π τ μ β) : Prop where
  left : Inv proc s
  right : Inv proc t
  control : s.control = t.control
  view : view p s.log = view p t.log
  content : ∀ m, ¬ secret m → s.content m = t.content m

section Simulation

variable {proc : τ → π} {p : π} {secret : μ → Prop} {s s' t t' : Reads π τ μ β} {a a' : ReadAction τ μ β}

variable {m : μ} {control : ReadControl π τ μ β}

theorem content_newMsg_of_ne (h : Inv proc s) {m' : μ} {addr : ℕ} {data : List UInt8} (hne : m' ≠ m)
    (hapart : ∀ x ∈ s.allocated, x.Apart ⟨addr, data.length⟩) {allocated : List Buffer} : content { s with
      control := control
      buf := Function.update s.buf m ⟨addr, data.length⟩
      allocated := allocated
      mem := Bytes.write s.mem addr data } m' = s.content m' := by
  simp only [content, Function.update_of_ne hne]
  obtain hmem | hzero := h.buf m'
  · exact Bytes.read_write_of_apart (hapart _ hmem)
  · simp [hzero]

theorem content_newMsg (s : Reads π τ μ β) (m : μ) (addr : ℕ) (data : List UInt8) {allocated : List Buffer} :
    content { s with
      control := control
      buf := Function.update s.buf m ⟨addr, data.length⟩
      allocated := allocated
      mem := Bytes.write s.mem addr data } m = data := by
  simp only [content, Function.update_self]
  exact Bytes.read_write_self

theorem Inv.bound_buf (h : Inv proc s) (m : μ) : (s.buf m).addr + (s.buf m).size ≤ 2 ^ 32 := by
  obtain hmem | hzero := h.buf m
  · exact h.bound _ hmem
  · simp [hzero]

theorem Related.newMsg (h : Related proc p secret s t) {addr addr' : ℕ} {data data' : List UInt8}
    (hdata : ¬ secret m → data = data') (hs : record { s with control := control } (.newMsg m addr data) = .ok s')
    (ht : record { t with control := control } (.newMsg m addr' data') = .ok t')
    (hleft : Inv proc s') (hright : Inv proc t') : Related proc p secret s' t' := by
  obtain ⟨_, hfresh, hs⟩ := bind_eq_ok.mp hs
  obtain ⟨_, hfresh', ht⟩ := bind_eq_ok.mp ht
  cases hs
  cases ht
  refine ⟨hleft, hright, rfl, h.view, fun m' hm' ↦ ?_⟩
  by_cases heq : m' = m
  · subst heq
    rw [content_newMsg, content_newMsg, hdata hm']
  · rw [content_newMsg_of_ne h.left heq (assert_eq_ok.mp hfresh).2,
      content_newMsg_of_ne h.right heq (assert_eq_ok.mp hfresh').2, h.content m' hm']

theorem Related.copied (h : Related proc p secret s t) {q : Query} {p' : π} (hsecret : p' = p → ¬ secret m) :
    Reads.view p [(.answered p' (some m) q (s.answer m q) : Event π μ β)] =
      Reads.view p [(.answered p' (some m) q (t.answer m q) : Event π μ β)] := by
  by_cases hview : p' = p ∧ ¬ q.Wraps
  · rw [answer_eq_answerOf (h.left.bound_buf m) hview.2, answer_eq_answerOf (h.right.bound_buf m) hview.2,
      h.content m (hsecret hview.1)]
  · simp only [Reads.view, filterMap_cons, if_neg hview]

theorem Related.recorded (h : Related proc p secret s t) {note : Note π μ β}
    (hs : record { s with control := control } note = .ok s')
    (ht : record { t with control := control } note = .ok t') (hleft : Inv proc s')
    (hright : Inv proc t') (hcopied : ∀ m q, note = .copied p m q → ¬ secret m) : Related proc p secret s' t' := by
  cases note with
  | nothing =>
    cases hs
    cases ht
    exact ⟨hleft, hright, rfl, h.view, h.content⟩
  | newMsg m addr data => exact h.newMsg (fun _ ↦ rfl) hs ht hleft hright
  | recieved p' b m | failed p' m q err =>
    cases hs
    cases ht
    exact ⟨hleft, hright, rfl, by rw [view_append, view_append, h.view], h.content⟩
  | copied p' m q =>
    cases hs
    cases ht
    refine ⟨hleft, hright, rfl, ?_, h.content⟩
    rw [view_append, view_append, h.view]
    exact congrArg _ (h.copied (by rintro rfl; exact hcopied m q rfl))

theorem act_copied {c : ReadControl π τ μ β} {q : Query} (hact : c.act proc a = .ok (.copied p m q, control)) :
    ∃ now, c.reads now = .copy m q ∧ p = proc now := by
  have htake : ∀ {msgs : Msgs π τ μ β Unit} {now : τ} {b : β},
      c.takeFirst msgs now b ≠ .ok (.copied p m q, control) := by
    intro msgs now b h
    obtain ⟨_, -, h⟩ := bind_eq_ok.mp h
    cases (ok_pair_inj h).1
  have hlook : ∀ {now : τ} {m' : μ} {q' : Query} {passes : Msg π Unit → Bool} {next : ReadPoint μ β},
      c.look (proc now) now m' q' passes next ≠ .ok (.copied p m q, control) := by
    intro now m' q' passes next h
    obtain ⟨_, -, h⟩ := bind_eq_ok.mp h
    split_ifs at h <;> cases (ok_pair_inj h).1
  cases a with
  | mail a | newMsg now m id addr data =>
    obtain ⟨_, -, hact⟩ := bind_eq_ok.mp hact
    obtain ⟨_, -, hact⟩ := bind_eq_ok.mp hact
    cases (ok_pair_inj hact).1
  | recieveSection now =>
    obtain ⟨_, -, hact⟩ := bind_eq_ok.mp hact
    split at hact
    · obtain ⟨_, -, hact⟩ := bind_eq_ok.mp hact
      obtain ⟨⟨r, msgs⟩, -, hact⟩ := bind_eq_ok.mp hact
      cases r with
      | fail err | block => cases (ok_pair_inj hact).1
      | ready => exact absurd hact htake
    · cases hact
  | recieveAgain now =>
    obtain ⟨_, -, hact⟩ := bind_eq_ok.mp hact
    split at hact
    · obtain ⟨_, -, hact⟩ := bind_eq_ok.mp hact
      obtain ⟨msgs, -, hact⟩ := bind_eq_ok.mp hact
      exact absurd hact htake
    · cases hact
  | takeSecond now =>
    simp only [ReadControl.act] at hact
    split at hact
    · obtain ⟨_, -, hact⟩ := bind_eq_ok.mp hact
      cases (ok_pair_inj hact).1
    · cases hact
  | call now msgId q =>
    obtain ⟨_, -, hact⟩ := bind_eq_ok.mp hact
    split at hact <;> cases (ok_pair_inj hact).1
  | readLock now =>
    simp only [ReadControl.act] at hact
    split at hact
    · obtain ⟨_, -, hact⟩ := bind_eq_ok.mp hact
      cases (ok_pair_inj hact).1
    · cases hact
  | readOwner now | readState now => grind [ReadControl.act]
  | readCopy now => grind [ReadControl.act]
  | readUnlock now => grind [ReadControl.act]

theorem Related.step (h : Related proc p secret s t) (hnever : ∀ b m, .recieved p b m ∈ s'.log → ¬ secret m)
    (halike : Alike secret a a') (hallowed : s.Separated a) (hallowed' : t.Separated a')
    (hs : s.act proc a = .ok s') (ht : t.act proc a' = .ok t') : Related proc p secret s' t' := by
  have hleft := inv_step h.left hallowed hs
  have hright := inv_step h.right hallowed' ht
  obtain ⟨⟨note, control⟩, hnote, hrecord⟩ := bind_eq_ok.mp hs
  obtain ⟨⟨note', control'⟩, hnote', hrecord'⟩ := bind_eq_ok.mp ht
  rw [← h.control] at hnote'
  cases halike with
  | same =>
    obtain ⟨rfl, rfl⟩ := ok_pair_inj (hnote.symm.trans hnote')
    refine h.recorded hrecord hrecord' hleft hright ?_
    rintro m q rfl
    obtain ⟨now, hat, rfl⟩ := act_copied hnote
    obtain ⟨b, -, hmem, -⟩ := h.left.copy now m q hat
    cases hrecord
    exact hnever b m (mem_append_left _ hmem)
  | @newMsg now m id addr addr' data data' hdata =>
    obtain ⟨_, -, hnote⟩ := bind_eq_ok.mp hnote
    obtain ⟨_, -, hnote'⟩ := bind_eq_ok.mp hnote'
    obtain ⟨mail, hmail, hnote⟩ := bind_eq_ok.mp hnote
    obtain ⟨mail', hmail', hnote'⟩ := bind_eq_ok.mp hnote'
    obtain rfl := Except.ok.inj (hmail.symm.trans hmail')
    cases hnote
    cases hnote'
    exact h.newMsg hdata hrecord hrecord' hleft hright

theorem log_subset (hact : s.act proc a = .ok s') : s.log ⊆ s'.log := by
  obtain ⟨⟨note, control⟩, -, hrecord⟩ := bind_eq_ok.mp hact
  cases note with
  | nothing =>
    cases hrecord
    exact List.Subset.refl _
  | newMsg m addr data =>
    obtain ⟨_, -, hrecord⟩ := bind_eq_ok.mp hrecord
    cases hrecord
    exact List.Subset.refl _
  | recieved | failed | copied =>
    cases hrecord
    exact subset_append_left _ _

theorem related_init (hs : Init s) (ht : Init t) : Related proc p secret s t where
  left := inv_init hs
  right := inv_init ht
  control := hs.1.trans ht.1.symm
  view := by rw [hs.2.2.2, ht.2.2.2]
  content m _ := by simp [Reads.content, hs.2.1 m, ht.2.1 m]

end Simulation

/-- In a run in which looks and writes at a message do not overlap, a process gets answers with `E_OK`
only about messages that it has received before from a box of its own. A second run that differs in
the content of messages that the process never receives from its own boxes gives it the same answers. -/
theorem separated_run_confidential {proc : τ → π} {s₀ s : Reads π τ μ β} {acts : List (ReadAction τ μ β)}
    (hinit : Init s₀) (htrace : (system proc μ β).Trace Separated s₀ acts s) : AnswersReceived s.log s.msgs ∧
      ∀ (p : π) (t₀ t : Reads π τ μ β) (acts' : List (ReadAction τ μ β)), Init t₀ →
        (system proc μ β).Trace Separated t₀ acts' t →
        List.Forall₂ (Alike fun m ↦ ¬ Received s.log s.msgs p m) acts acts' → view p s.log = view p t.log := by
  have hinv : Inv proc s := (htrace.run (.init hinit)).invariant (P := Inv proc) (fun _ ↦ inv_init)
    fun _ _ _ ↦ inv_step
  refine ⟨hinv.answers, fun p t₀ t acts' hinit' htrace' halike ↦ ?_⟩
  have hpast : ∀ u a u', (system proc μ β).step u a u' → u'.log ⊆ s.log → u.log ⊆ s.log :=
    fun u a u' hstep hsub ↦ List.Subset.trans (log_subset hstep) hsub
  have hrelated : Related proc p (fun m ↦ ¬ Received s.log s.msgs p m) s t := by
    refine htrace.simulate hpast ?_ htrace' halike (related_init hinit hinit') (List.Subset.refl _)
    intro u a u' v a' v' hrelated hsub hab hu hv hstep hstep'
    refine hrelated.step (fun b m hmem hsecret ↦ hsecret ?_) hab hu hv hstep hstep'
    obtain ⟨box, hbox, howner⟩ := hinv.own p b m (hsub hmem)
    exact ⟨b, box, hsub hmem, hbox, howner⟩
  exact hrelated.view

/-! ### Two processes -/

def exampleInit : Reads (Fin 2) (Fin 2) (Fin 2) Unit where
  control := ⟨.initial, fun _ ↦ .idle⟩
  buf _ := ⟨0, 0⟩
  allocated := []
  mem _ := 0
  log := []

theorem exampleInit_init : exampleInit.Init := ⟨rfl, fun _ ↦ rfl, rfl, rfl⟩

def sendActions (data : List UInt8) : List (ReadAction (Fin 2) (Fin 2) Unit) :=
  [.mail (.newBox 1 () 7), .newMsg 0 0 3 100 data, .mail (.send 0 7 3), .mail (.sendLock 0),
    .mail (.sendFind 0), .mail (.sendSection 0), .mail (.sendUnlock 0), .mail (.recieve 1 7 false)]

/-- Process 1 receives the message and reads it; it also asks for a message that it has not received,
which holds `data`. -/
def exampleActions (data : List UInt8) : List (ReadAction (Fin 2) (Fin 2) Unit) :=
  sendActions [1, 2, 3] ++ [.newMsg 0 1 4 200 data, .recieveSection 1, .takeSecond 1,
    .call 1 3 (.read 1 2), .readLock 1, .readOwner 1, .readState 1, .readCopy 1, .readUnlock 1,
    .call 1 4 .size, .readLock 1, .readOwner 1, .readUnlock 1]

/-- Process 0 reads the message between the two writes of its receipt by process 1. -/
def earlyActions (data : List UInt8) : List (ReadAction (Fin 2) (Fin 2) Unit) :=
  sendActions data ++ [.recieveSection 1, .call 0 3 (.read 0 2), .readLock 0, .readOwner 0, .readState 0,
    .readCopy 0]

def exampleLog : List (Event (Fin 2) (Fin 2) Unit) :=
  [.recieved 1 () 0, .answered 1 (some 0) (.read 1 2) (.bytes [2, 3]), .answered 1 (some 1) .size (.fail .inval)]

theorem exampleActions_trace (data : List UInt8)
    (hdata : ((exampleActions data).foldlM (System.guarded (act id) Separated .assertion)
      exampleInit).map Reads.log = .ok exampleLog) :
    ∃ s, (system id (Fin 2) Unit).Trace Separated exampleInit (exampleActions data) s ∧ s.log = exampleLog := by
  obtain ⟨s, hacts, hdata⟩ := map_eq_ok.mp hdata
  exact ⟨s, System.trace_of_foldlM hacts, hdata⟩

theorem separated_run_confidential_example : ∃ s t : Reads (Fin 2) (Fin 2) (Fin 2) Unit,
      (system id (Fin 2) Unit).Trace Separated exampleInit (exampleActions [9]) s ∧
      (system id (Fin 2) Unit).Trace Separated exampleInit (exampleActions [8, 8]) t ∧
      AnswersReceived s.log s.msgs ∧ view 1 s.log = view 1 t.log := by
  obtain ⟨s, hs, hlog⟩ := exampleActions_trace [9] (by decide +kernel)
  obtain ⟨t, ht, -⟩ := exampleActions_trace [8, 8] (by decide +kernel)
  obtain ⟨hanswers, hviews⟩ := separated_run_confidential exampleInit_init hs
  refine ⟨s, t, hs, ht, hanswers, hviews 1 exampleInit t _ exampleInit_init ht ?_⟩
  have hsecret : ¬ Received s.log s.msgs 1 1 := by
    rintro ⟨b, box, hmem, -⟩
    simp [hlog, exampleLog] at hmem
  have hsame : ∀ l : List (ReadAction (Fin 2) (Fin 2) Unit),
      List.Forall₂ (Alike fun m ↦ ¬ Received s.log s.msgs 1 m) l l :=
    fun l ↦ List.forall₂_same.mpr fun _ _ ↦ .same
  exact rel_append (hsame _) (.cons (.newMsg fun h ↦ absurd hsecret h) (hsame _))

/-- Process 0 gets an answer about a message that it has not received, and the answer depends on the
content of the message. -/
theorem reachable_answer_without_receipt : ∃ s t : Reads (Fin 2) (Fin 2) (Fin 2) Unit,
      (system id (Fin 2) Unit).Trace (fun _ _ ↦ True) exampleInit (earlyActions [1, 2]) s ∧
      (system id (Fin 2) Unit).Trace (fun _ _ ↦ True) exampleInit (earlyActions [5, 6]) t ∧
      List.Forall₂ (Alike fun m ↦ ¬ Received s.log s.msgs 0 m) (earlyActions [1, 2]) (earlyActions [5, 6]) ∧
      ¬ AnswersReceived s.log s.msgs ∧ view 0 s.log ≠ view 0 t.log := by
  have hrun : ∀ data ∈ [[1, 2], [5, 6]], ((earlyActions data).foldlM
      (System.guarded (act id) (fun _ _ ↦ True) .assertion) exampleInit).map Reads.log =
      .ok [.answered 0 (some 0) (.read 0 2) (.bytes data)] := by decide +kernel
  have htrace : ∀ data ∈ [[1, 2], [5, 6]], ∃ s,
      (system id (Fin 2) Unit).Trace (fun _ _ ↦ True) exampleInit (earlyActions data) s ∧
      s.log = [.answered 0 (some 0) (.read 0 2) (.bytes data)] := by
    intro data hmem
    have hdata := hrun data hmem
    obtain ⟨s, hacts, hdata⟩ := map_eq_ok.mp hdata
    exact ⟨s, System.trace_of_foldlM hacts, hdata⟩
  obtain ⟨s, hs, hlog⟩ := htrace [1, 2] (by simp)
  obtain ⟨t, ht, hlog'⟩ := htrace [5, 6] (by simp)
  have hsecret : ¬ Received s.log s.msgs 0 0 := by
    rintro ⟨b, box, hmem, -⟩
    simp [hlog] at hmem
  have hsame : ∀ l : List (ReadAction (Fin 2) (Fin 2) Unit),
      List.Forall₂ (Alike fun m ↦ ¬ Received s.log s.msgs 0 m) l l :=
    fun l ↦ List.forall₂_same.mpr fun _ _ ↦ .same
  refine ⟨s, t, hs, ht, .cons .same (.cons (.newMsg fun h ↦ absurd hsecret h) (hsame _)), ?_, ?_⟩
  · intro hanswers
    obtain ⟨m, -, b, box, hmem, -⟩ := hanswers [] 0 (some 0) _ _ [] hlog rfl
    simp at hmem
  · rw [hlog, hlog']
    decide

end Reads

end Lanthorn
