import Lanthorn.Library.Bytes
import Lanthorn.Msg.Msg

/-!
# The layout of service calls

Model of the encoders and decoders of `srv.c`: `srv_call` builds the message of a request and takes a
reply apart, `srv_called` takes a request apart and `srv_reply` builds the message of a reply. Both kinds
of message begin with a header of twelve words; the strings follow one after the other.

`Srv.call_round_trip` says that the two ends agree, for every number and size of strings.
-/

namespace Lanthorn

open Library List

namespace Srv

/-- `MAX_CALL_PARAM`. -/
def maxCallParam : ℕ := 10

/-- `sizeof(struct srv_call_t)` and `sizeof(struct srv_reply_t)`: two words and `sz`. -/
def headerSize : ℕ := 8 + 4 * maxCallParam

/-- What `srv_called` gives to the service; `cache` is set if there are bytes for it. -/
structure Callee where
  sid : ℕ
  argSz : ℕ
  sz : List ℕ
  cache : Option (List UInt8)

/-- What a service gives to `srv_reply`, with the bytes behind the pointers `ad`. -/
structure Replyer where
  err : ℕ
  narg : ℕ
  sz : List ℕ
  ad : List (List UInt8)

/-- What `srv_call` gives to the caller. -/
structure Replyee where
  err : ℕ
  narg : ℕ
  sz : List ℕ
  cache : Option (List UInt8)

/-- The element of an array; beyond its end the code would read what it has not set. -/
def element {α : Type} (array : List α) (i : ℕ) : Result α :=
  match array[i]? with
  | none => .error .unset
  | some x => .ok x

/-- `for (i = 0; i < n; ++i) sum += sz[i]` for a 32-bit sum. -/
def addSizes (sum n : ℕ) (sizes : List ℕ) : Result ℕ :=
  (List.range n).foldlM (fun sum i ↦ do return (sum + (← element sizes i)) % 2 ^ 32) sum

/-- `memcpy` into a buffer of `size` bytes. -/
def copyTo (size : ℕ) (buf : ℕ → UInt8) (offset : ℕ) (data : List UInt8) : Result (ℕ → UInt8) :=
  if offset + data.length ≤ size then .ok (Bytes.write buf offset data) else .error .unset

/-! ### Requests -/

/-- The body of the loop of `srv_call` over its parameters. -/
def callStep (msgsz : ℕ) (params : List (List UInt8)) (at' : ℕ × (ℕ → UInt8)) (i : ℕ) :
    Result (ℕ × (ℕ → UInt8)) := do
  let (offset, buf) := at'
  let param ← element params i
  let buf ← copyTo msgsz buf (8 + 4 * i) (Bytes.word param.length)
  let buf ← copyTo msgsz buf 4 (Bytes.word ((Bytes.readWord buf 4 + param.length) % 2 ^ 32))
  let buf ← copyTo msgsz buf offset param
  return ((offset + param.length) % 2 ^ 32, buf)

/-- The message that `srv_call` builds in the new buffer `buf`. -/
def callMsg (nparam : ℕ) (params : List (List UInt8)) (retboxid : ℕ) (buf : ℕ → UInt8) : Result (List UInt8) := do
  let msgsz ← addSizes headerSize nparam (params.map List.length)
  let buf ← copyTo msgsz buf 4 (Bytes.word 0)
  let (offset, buf) ← (List.range nparam).foldlM (callStep msgsz params) (headerSize, buf)
  assert (offset = msgsz)
  let buf ← copyTo msgsz buf 0 (Bytes.word retboxid)
  return Bytes.read buf 0 msgsz

section Decode

variable {π τ μ β : Type} [DecidableEq π] [DecidableEq μ] [DecidableEq β]

/-- The array `sz` of a header. -/
def sizesOf (header : List UInt8) : List ℕ :=
  (List.range maxCallParam).map fun i ↦ Bytes.wordAt header (8 + 4 * i)

/-- `srv_called` after `msg_recieve`. -/
def called (s : Msgs π τ μ β (List UInt8)) (p : π) (msgId : ℕ) : Result (Errno × Callee) := do
  let (err, msgSz) ← s.msgSize p msgId
  assert (err = .ok)
  assert (headerSize ≤ msgSz)
  let (err, header) ← s.msgRead p msgId 0 headerSize
  assert (err = .ok)
  let argSz := Bytes.wordAt header 4
  let callee : Callee := ⟨Bytes.wordAt header 0, argSz, sizesOf header, none⟩
  if 0 < argSz then
    let (err, cache) ← s.msgRead p msgId headerSize argSz
    assert (err = .ok)
    return (.ok, { callee with cache := some cache })
  else return (.ok, callee)

/-- `srv_call` after `msg_recieve`. -/
def replied (s : Msgs π τ μ β (List UInt8)) (p : π) (msgId : ℕ) : Result (Errno × Option Replyee) := do
  let (err, header) ← s.msgRead p msgId 0 headerSize
  if err ≠ .ok then return (err, none)
  let narg := Bytes.wordAt header 4
  let sz ← addSizes 0 narg (sizesOf header)
  let replyee : Replyee := ⟨Bytes.wordAt header 0, narg, sizesOf header, none⟩
  if 0 < sz then
    let (err, cache) ← s.msgRead p msgId headerSize sz
    if err ≠ .ok then return (err, none)
    return (.ok, some { replyee with cache := some cache })
  else return (.ok, some replyee)

end Decode

/-! ### Replies -/

/-- The body of the loop of `srv_reply`. -/
def replyStep (size : ℕ) (replyer : Replyer) (at' : ℕ × (ℕ → UInt8)) (i : ℕ) : Result (ℕ × (ℕ → UInt8)) := do
  let (offset, buf) := at'
  let data ← element replyer.ad i
  let sz ← element replyer.sz i
  let buf ← copyTo size buf offset (data.take sz)
  return ((offset + sz) % 2 ^ 32, buf)

/-- The message that `srv_reply` builds in the new buffer `buf`. -/
def replyMsg (replyer : Replyer) (buf : ℕ → UInt8) : Result (List UInt8) := do
  let size ← addSizes headerSize replyer.narg replyer.sz
  let (_, buf) ← (List.range replyer.narg).foldlM (replyStep size replyer) (headerSize, buf)
  let buf ← copyTo size buf 0 (Bytes.word replyer.err)
  let buf ← copyTo size buf 4 (Bytes.word replyer.narg)
  let buf ← copyTo size buf 8 (replyer.sz.flatMap Bytes.word)
  return Bytes.read buf 0 size

/-! ### Sums and copies -/

theorem element_eq_ok {α : Type} {array : List α} {i : ℕ} {x : α} :
    element array i = .ok x ↔ array[i]? = some x := by
  unfold element
  cases array[i]? <;> simp

theorem copyTo_of_le {size offset : ℕ} {buf : ℕ → UInt8} {data : List UInt8}
    (h : offset + data.length ≤ size) : copyTo size buf offset data = .ok (Bytes.write buf offset data) :=
  if_pos h

theorem foldlM_range_succ {σ : Type} {step : σ → ℕ → Result σ} {s s' : σ} {n : ℕ}
    (h : (List.range n).foldlM step s = .ok s') : (List.range (n + 1)).foldlM step s = step s' n := by
  rw [range_succ, foldlM_append, h]
  simp
  cases step s' n <;> rfl

theorem addSizes_eq {sum n : ℕ} {sizes : List ℕ} (hn : n ≤ sizes.length)
    (hlt : sum + (sizes.take n).sum < 2 ^ 32) : addSizes sum n sizes = .ok (sum + (sizes.take n).sum) := by
  induction n with
  | zero => simp [addSizes]
  | succ n ih =>
    have htake : sizes.take (n + 1) = sizes.take n ++ [sizes[n]] := take_succ_eq_append_getElem hn
    rw [htake, sum_append_nat, sum_singleton] at hlt ⊢
    refine (foldlM_range_succ (ih (by omega) (by omega))).trans ?_
    rw [element_eq_ok.mpr (List.getElem?_eq_getElem hn)]
    simp only [ok_bind, pure_eq]
    rw [Nat.mod_eq_of_lt (by omega), Nat.add_assoc]

/-! ### The encoders -/

section Encode

variable {params : List (List UInt8)} {n msgsz retboxid : ℕ} {buf : ℕ → UInt8} {replyer : Replyer}

def total (strings : List (List UInt8)) (n : ℕ) : ℕ := ((strings.take n).map List.length).sum

theorem total_succ {strings : List (List UInt8)} {x : List UInt8} (hx : strings[n]? = some x) :
    total strings (n + 1) = total strings n + x.length := by grind [total, take_succ_eq_append_getElem]

theorem total_le (strings : List (List UInt8)) (n : ℕ) : total strings n ≤ (strings.map List.length).sum := by
  grind [total, take_append_drop]

theorem flatten_take_succ {strings : List (List UInt8)} {x : List UInt8} (hx : strings[n]? = some x) :
    (strings.take (n + 1)).flatten = (strings.take n).flatten ++ x := by grind [take_succ_eq_append_getElem]

/-- After some rounds of `srv_call`: the sum and the sizes are in the header, the strings behind it. -/
structure CallFilled (params : List (List UInt8)) (n : ℕ) (buf : ℕ → UInt8) : Prop where
  argSz : Bytes.readWord buf 4 = total params n
  sz : ∀ i < n, ∀ x, params[i]? = some x → Bytes.readWord buf (8 + 4 * i) = x.length
  strings : Bytes.read buf headerSize (total params n) = (params.take n).flatten

theorem callStep_filled (h : CallFilled params n buf) {x : List UInt8} (hx : params[n]? = some x)
    (hn : n < maxCallParam) (hsize : headerSize + total params (n + 1) ≤ msgsz) (hlt : msgsz < 2 ^ 32) :
    ∃ buf', callStep msgsz params (headerSize + total params n, buf) n =
      .ok (headerSize + total params (n + 1), buf') ∧ CallFilled params (n + 1) buf' := by
  have htotal := total_succ hx
  have hheader : headerSize = 48 := rfl
  have hmax : maxCallParam = 10 := rfl
  have hword : Bytes.readWord (Bytes.write buf (8 + 4 * n) (Bytes.word x.length)) 4 = total params n := by
    rw [Bytes.readWord_write_of_apart (.inl (by omega)), h.argSz]
  have hsum : (total params n + x.length) % 2 ^ 32 = total params (n + 1) := by
    rw [Nat.mod_eq_of_lt (by omega), htotal]
  refine ⟨Bytes.write (Bytes.write (Bytes.write buf (8 + 4 * n) (Bytes.word x.length)) 4
    (Bytes.word (total params (n + 1)))) (headerSize + total params n) x, ?_, ?_, ?_, ?_⟩
  · simp only [callStep, element_eq_ok.mpr hx, bind, Except.bind]
    rw [copyTo_of_le (by rw [Bytes.length_word]; omega)]
    simp only
    rw [hword, hsum, copyTo_of_le (by rw [Bytes.length_word]; omega)]
    simp only
    rw [copyTo_of_le (by omega), Nat.mod_eq_of_lt (by omega),
      show headerSize + total params n + x.length = headerSize + total params (n + 1) by omega]
    rfl
  · rw [Bytes.readWord_write_of_apart (.inl (by omega)), Bytes.readWord_write_self (by omega)]
  · grind [Bytes.readWord_write_of_apart, Bytes.length_word, h.sz, Bytes.readWord_write_self]
  · rw [htotal, Bytes.read_add, ← htotal, Bytes.read_write_self, Bytes.read_write_of_apart (.inl (Nat.le_refl _)),
      Bytes.read_write_of_apart (.inr (by rw [Bytes.length_word]; omega)),
      Bytes.read_write_of_apart (.inr (by rw [Bytes.length_word]; omega)), flatten_take_succ hx]
    exact congrArg (· ++ x) h.strings

theorem callLoop_filled (hzero : Bytes.readWord buf 4 = 0) (hlen : params.length ≤ maxCallParam)
    (hn : n ≤ params.length) (hsize : headerSize + total params n ≤ msgsz) (hlt : msgsz < 2 ^ 32) :
    ∃ buf', (List.range n).foldlM (callStep msgsz params) (headerSize, buf) =
      .ok (headerSize + total params n, buf') ∧ CallFilled params n buf' := by
  induction n with
  | zero => exact ⟨buf, rfl, hzero, by simp, rfl⟩
  | succ n ih =>
    have hx := List.getElem?_eq_getElem hn
    have htotal := total_succ hx
    obtain ⟨buf', hloop, hfilled⟩ := ih (by omega) (by omega)
    grind [callStep_filled, foldlM_range_succ]

theorem callMsg_eq (buf : ℕ → UInt8) (hlen : params.length ≤ maxCallParam)
    (hsize : headerSize + total params params.length < 2 ^ 32) (hret : retboxid < 2 ^ 32) :
    ∃ buf', callMsg params.length params retboxid buf =
        .ok (Bytes.read buf' 0 (headerSize + total params params.length)) ∧
      Bytes.readWord buf' 0 = retboxid ∧ CallFilled params params.length buf' := by
  have hheader : headerSize = 48 := rfl
  have hsum : addSizes headerSize params.length (params.map List.length) =
      .ok (headerSize + total params params.length) := by
    have htake : (params.map List.length).take params.length = (params.take params.length).map List.length :=
      List.map_take.symm
    have hsum := @addSizes_eq headerSize params.length (params.map List.length) (by simp)
      (by rw [htake]; exact hsize)
    rwa [htake] at hsum
  obtain ⟨buf', hloop, hfilled⟩ := callLoop_filled
    (show Bytes.readWord (Bytes.write buf 4 (Bytes.word 0)) 4 = 0 from
      Bytes.readWord_write_self (by omega)) hlen (Nat.le_refl _) (Nat.le_refl _) hsize
  refine ⟨Bytes.write buf' 0 (Bytes.word retboxid), ?_, Bytes.readWord_write_self hret, ?_, ?_, ?_⟩
  · simp only [callMsg, hsum, bind, Except.bind]
    rw [copyTo_of_le (by rw [Bytes.length_word]; omega)]
    simp only [hloop]
    rw [assert_of_true trivial, copyTo_of_le (by rw [Bytes.length_word]; omega)]
    rfl
  · rw [Bytes.readWord_write_of_apart (.inr (by simp)), hfilled.argSz]
  · intro i hi x hx
    rw [Bytes.readWord_write_of_apart (.inr (by rw [Bytes.length_word]; omega)), hfilled.sz i hi x hx]
  · rw [Bytes.read_write_of_apart (.inr (by rw [Bytes.length_word]; omega)), hfilled.strings]

/-- A reply that fits: an array of ten sizes, the first of which are those of the strings. -/
structure Replyer.Wf (replyer : Replyer) : Prop where
  narg_le : replyer.narg ≤ maxCallParam
  sz_length : replyer.sz.length = maxCallParam
  sizes : replyer.sz.take replyer.narg = replyer.ad.map List.length
  err_lt : replyer.err < 2 ^ 32
  fits : headerSize + total replyer.ad replyer.narg < 2 ^ 32

theorem Replyer.Wf.ad_length (h : replyer.Wf) : replyer.ad.length = replyer.narg := by
  grind [h.sizes, length_map, h.sz_length, h.narg_le]

theorem Replyer.Wf.take_ad (h : replyer.Wf) : replyer.ad.take replyer.narg = replyer.ad :=
  take_of_length_le (Nat.le_of_eq h.ad_length)

theorem Replyer.Wf.sz_eq (h : replyer.Wf) {i : ℕ} {x : List UInt8} (hx : replyer.ad[i]? = some x) :
    replyer.sz[i]? = some x.length := by
  have hlt : i < replyer.narg := h.ad_length ▸ (List.getElem?_eq_some_iff.mp hx).1
  rw [← List.getElem?_take_of_lt hlt, h.sizes, List.getElem?_map, hx]
  rfl

theorem replyLoop_filled (buf : ℕ → UInt8) (h : replyer.Wf) (hn : n ≤ replyer.narg)
    (hsize : headerSize + total replyer.ad n ≤ msgsz) (hlt : msgsz < 2 ^ 32) :
    ∃ buf', (List.range n).foldlM (replyStep msgsz replyer) (headerSize, buf) =
        .ok (headerSize + total replyer.ad n, buf') ∧
      Bytes.read buf' headerSize (total replyer.ad n) = (replyer.ad.take n).flatten := by
  induction n with
  | zero => exact ⟨buf, rfl, rfl⟩
  | succ n ih =>
    have hx : replyer.ad[n]? = some (replyer.ad.get ⟨n, h.ad_length ▸ hn⟩) :=
      List.getElem?_eq_getElem _
    have htotal := total_succ hx
    obtain ⟨buf', hloop, hstrings⟩ := ih (by omega) (by omega)
    refine ⟨Bytes.write buf' (headerSize + total replyer.ad n) (replyer.ad.get ⟨n, h.ad_length ▸ hn⟩),
      (foldlM_range_succ hloop).trans ?_, ?_⟩
    · simp only [replyStep, element_eq_ok.mpr hx, element_eq_ok.mpr (h.sz_eq hx), take_length, ok_bind]
      rw [copyTo_of_le (by omega), Nat.mod_eq_of_lt (by omega), htotal, Nat.add_assoc]
      rfl
    · rw [htotal, Bytes.read_add, Bytes.read_write_self, Bytes.read_write_of_apart (.inl (Nat.le_refl _)),
        hstrings, flatten_take_succ hx]

theorem replyMsg_eq (buf : ℕ → UInt8) (h : replyer.Wf) :
    ∃ buf', replyMsg replyer buf = .ok (Bytes.read buf' 0 (headerSize + total replyer.ad replyer.narg)) ∧
      Bytes.readWord buf' 0 = replyer.err ∧ Bytes.readWord buf' 4 = replyer.narg ∧
      (∀ i x, replyer.ad[i]? = some x → Bytes.readWord buf' (8 + 4 * i) = x.length) ∧
      Bytes.read buf' headerSize (total replyer.ad replyer.narg) = replyer.ad.flatten := by
  have hheader : headerSize = 48 := rfl
  have hmax : maxCallParam = 10 := rfl
  have hnarg := h.narg_le
  have hfits := h.fits
  have hwords : (replyer.sz.flatMap Bytes.word).length = 40 := by
    rw [Bytes.length_words, h.sz_length]
    rfl
  have htotal : (replyer.sz.take replyer.narg).sum = total replyer.ad replyer.narg := by
    rw [h.sizes, total, h.take_ad]
  have hsum : addSizes headerSize replyer.narg replyer.sz = .ok (headerSize + total replyer.ad replyer.narg) := by
    grind [addSizes_eq, h.sz_length]
  obtain ⟨buf', hloop, hstrings⟩ := replyLoop_filled buf h (Nat.le_refl _) (Nat.le_refl _) hfits
  refine ⟨Bytes.write (Bytes.write (Bytes.write buf' 0 (Bytes.word replyer.err)) 4
    (Bytes.word replyer.narg)) 8 (replyer.sz.flatMap Bytes.word), ?_, ?_, ?_, ?_, ?_⟩
  · simp only [replyMsg, hsum, hloop, bind, Except.bind]
    rw [copyTo_of_le (by rw [Bytes.length_word]; omega)]
    simp only
    rw [copyTo_of_le (by rw [Bytes.length_word]; omega)]
    simp only
    rw [copyTo_of_le (by rw [hwords]; omega)]
    rfl
  · grind [Bytes.readWord_write_of_apart, Bytes.readWord_write_self, h.err_lt]
  · rw [Bytes.readWord_write_of_apart (.inl (by omega)), Bytes.readWord_write_self (by omega)]
  · intro i x hx
    have hlt : x.length ≤ total replyer.ad replyer.narg := by
      have hsucc := total_succ hx
      have hle := total_le replyer.ad (i + 1)
      rw [total, h.take_ad]
      omega
    exact Bytes.readWord_write_words (h.sz_eq hx) (by omega)
  grind [Bytes.read_write_of_apart, Bytes.length_word, h.take_ad]

end Encode

/-! ### The decoders -/

section Decode

variable {π τ μ β : Type} [DecidableEq π] [DecidableEq μ] [DecidableEq β]
variable {s : Msgs π τ μ β (List UInt8)} {p : π} {msgId size : ℕ} {buf : ℕ → UInt8}

theorem sizesOf_eq {i : ℕ} (hi : i < maxCallParam) :
    (sizesOf (Bytes.read buf 0 headerSize))[i]? = some (Bytes.readWord buf (8 + 4 * i)) := by
  have hheader : headerSize = 8 + 4 * maxCallParam := rfl
  rw [sizesOf, List.getElem?_map, List.getElem?_range hi, Option.map_some,
    Bytes.wordAt_read (by omega), Nat.zero_add]

section

variable (h : s.Holds p msgId (Bytes.read buf 0 (headerSize + size))) (hlt : headerSize + size < 2 ^ 32)
include h hlt

theorem msgRead_header : s.msgRead p msgId 0 headerSize = .ok (.ok, Bytes.read buf 0 headerSize) := by
  rw [h.msgRead (by simp) (by simpa using hlt), Bytes.take_drop_read (by omega)]

theorem msgRead_strings : s.msgRead p msgId headerSize size = .ok (.ok, Bytes.read buf headerSize size) := by
  rw [h.msgRead (by simp) (by simpa using hlt), Bytes.take_drop_read (Nat.le_refl _), Nat.zero_add]

theorem called_eq (hargSz : Bytes.readWord buf 4 = size) :
    called s p msgId = .ok (.ok, ⟨Bytes.readWord buf 0, size, sizesOf (Bytes.read buf 0 headerSize),
      if 0 < size then some (Bytes.read buf headerSize size) else none⟩) := by
  have hheader : headerSize = 48 := rfl
  have hword : ∀ offset, offset + 4 ≤ headerSize →
      Bytes.wordAt (Bytes.read buf 0 headerSize) offset = Bytes.readWord buf offset := by
    intro offset hoffset
    rw [Bytes.wordAt_read hoffset, Nat.zero_add]
  simp only [called, h.msgSize, msgRead_header h hlt, Bytes.length_read, assert_of_true trivial,
    assert_of_true (Nat.le_add_right headerSize size), hword 4 (by omega), hword 0 (by omega),
    hargSz, msgRead_strings h hlt, ok_bind]
  split_ifs <;> rfl

theorem replied_eq (hsum : addSizes 0 (Bytes.readWord buf 4) (sizesOf (Bytes.read buf 0 headerSize)) = .ok size) :
    replied s p msgId = .ok (.ok, some ⟨Bytes.readWord buf 0, Bytes.readWord buf 4,
      sizesOf (Bytes.read buf 0 headerSize),
      if 0 < size then some (Bytes.read buf headerSize size) else none⟩) := by
  have hheader : headerSize = 48 := rfl
  have hword : ∀ offset, offset + 4 ≤ headerSize →
      Bytes.wordAt (Bytes.read buf 0 headerSize) offset = Bytes.readWord buf offset := by
    intro offset hoffset
    rw [Bytes.wordAt_read hoffset, Nat.zero_add]
  simp only [replied, msgRead_header h hlt, bind, Except.bind]
  simp only [hword 4 (by omega), hword 0 (by omega), hsum, msgRead_strings h hlt]
  split_ifs <;> first | contradiction | rfl

end

end Decode

/-! ### The round trip -/

section RoundTrip

variable {π τ μ β : Type} [DecidableEq π] [DecidableEq μ] [DecidableEq β]

structure Delivered (params : List (List UInt8)) (retboxid : ℕ) (callee : Callee) : Prop where
  sid : callee.sid = retboxid
  sz : ∀ (i : ℕ) (x : List UInt8), params[i]? = some x → callee.sz[i]? = some x.length
  argSz : callee.argSz = (params.map List.length).sum
  cache : callee.cache.getD [] = params.flatten
  cache_set : 0 < callee.argSz → callee.cache = some params.flatten

structure Returned (replyer : Replyer) (replyee : Replyee) : Prop where
  err : replyee.err = replyer.err
  narg : replyee.narg = replyer.narg
  sz : ∀ (i : ℕ) (x : List UInt8), replyer.ad[i]? = some x → replyee.sz[i]? = some x.length
  cache : 0 < (replyer.ad.map List.length).sum → replyee.cache = some replyer.ad.flatten

theorem request_delivered {params : List (List UInt8)} {retboxid : ℕ} (buf : ℕ → UInt8)
    (hlen : params.length ≤ maxCallParam)
    (hsize : headerSize + (params.map List.length).sum < 2 ^ 32) (hret : retboxid < 2 ^ 32) :
    ∃ body, callMsg params.length params retboxid buf = .ok body ∧
      ∀ (s : Msgs π τ μ β (List UInt8)) p msgId, s.Holds p msgId body →
        ∃ callee, called s p msgId = .ok (.ok, callee) ∧ Delivered params retboxid callee := by
  have hall : total params params.length = (params.map List.length).sum := by rw [total, take_length]
  obtain ⟨buf', hmsg, hword, hfilled⟩ := callMsg_eq buf hlen (hall ▸ hsize) hret
  refine ⟨_, hmsg, fun s p msgId hholds ↦ ⟨_, called_eq hholds (hall ▸ hsize) hfilled.argSz, ?_⟩⟩
  have hstrings := hfilled.strings
  rw [take_length] at hstrings
  constructor
  case sid => exact hword
  case sz =>
    grind [sizesOf_eq, hfilled.sz]
  case argSz => exact hall
  case cache =>
    by_cases hzero : 0 < total params params.length
    all_goals grind [Bytes.read_zero]
  case cache_set =>
    intro hpos
    simp only [if_pos hpos, hstrings]

theorem reply_returned {replyer : Replyer} (buf : ℕ → UInt8) (hwf : replyer.Wf) :
    ∃ body, replyMsg replyer buf = .ok body ∧ ∀ (s : Msgs π τ μ β (List UInt8)) p msgId, s.Holds p msgId body →
        ∃ replyee, replied s p msgId = .ok (.ok, some replyee) ∧ Returned replyer replyee := by
  have hnarg := hwf.narg_le
  have hfits := hwf.fits
  have hall : total replyer.ad replyer.narg = (replyer.ad.map List.length).sum := by rw [total, hwf.take_ad]
  obtain ⟨buf', hmsg, herr, hword, hsz, hstrings⟩ := replyMsg_eq buf hwf
  have hsizes : ∀ (i : ℕ) (x : List UInt8), replyer.ad[i]? = some x →
      (sizesOf (Bytes.read buf' 0 headerSize))[i]? = some x.length := by grind [hwf.ad_length, sizesOf_eq]
  have htake : (sizesOf (Bytes.read buf' 0 headerSize)).take replyer.narg = replyer.ad.map List.length := by
    refine ext_getElem? fun i ↦ ?_
    grind [hwf.ad_length]
  have hsum : addSizes 0 (Bytes.readWord buf' 4) (sizesOf (Bytes.read buf' 0 headerSize)) =
      .ok (total replyer.ad replyer.narg) := by grind [addSizes_eq, sizesOf]
  refine ⟨_, hmsg, fun s p msgId hholds ↦ ⟨_, replied_eq hholds hfits hsum, herr, hword, hsizes, ?_⟩⟩
  intro hpos
  rw [← hall] at hpos
  simp only [if_pos hpos, hstrings]

/-- Every request is delivered as it was made, and every reply is returned as it was given. -/
theorem call_round_trip {nparam retboxid : ℕ} {params : List (List UInt8)} (buf : ℕ → UInt8)
    (hparams : params.length = nparam) (hnparam : nparam ≤ maxCallParam)
    (hsize : headerSize + (params.map List.length).sum < 2 ^ 32) (hret : retboxid < 2 ^ 32) :
    (∃ body, callMsg nparam params retboxid buf = .ok body ∧
      ∀ (s : Msgs π τ μ β (List UInt8)) p msgId, s.Holds p msgId body →
        ∃ callee, called s p msgId = .ok (.ok, callee) ∧ Delivered params retboxid callee) ∧
    ∀ (replyer : Replyer) (buf' : ℕ → UInt8), replyer.Wf → ∃ body, replyMsg replyer buf' = .ok body ∧
        ∀ (s : Msgs π τ μ β (List UInt8)) p msgId, s.Holds p msgId body →
          ∃ replyee, replied s p msgId = .ok (.ok, some replyee) ∧ Returned replyer replyee := by
  subst hparams
  exact ⟨request_delivered buf hnparam hsize hret, fun _ buf' hwf ↦ reply_returned buf' hwf⟩

end RoundTrip

def exampleMsgs (body : List UInt8) : Msgs (Fin 2) Unit Unit Unit (List UInt8) :=
  (Msgs.newBox ⟨fun _ ↦ none, fun _ ↦ none, fun _ ↦ none, fun _ ↦ none⟩ 1 () 7).newMsg 0 () 3 body

theorem exampleMsgs_holds (body : List UInt8) :
    ∃ s s', (exampleMsgs body).sendMsg 0 () () = .ok (.ok, none, s) ∧ s.take 1 () = .ok ((), s') ∧
      s'.Holds 1 3 body := by
  refine ⟨_, _, rfl, rfl, ?_⟩
  exact ⟨(), ⟨3, .recieved, 1, body⟩, rfl, rfl, rfl, rfl, rfl⟩

def exampleReplyer : Replyer := ⟨0, 2, [1, 2, 0, 0, 0, 0, 0, 0, 0, 0], [[9], [8, 7]]⟩

/-- A request of three strings, one of them empty, and a reply of two. -/
theorem call_round_trip_example :
    ∃ (body body' : List UInt8) (s s' : Msgs (Fin 2) Unit Unit Unit (List UInt8)) (callee : Callee)
      (replyee : Replyee), callMsg 3 [[1, 2], [], [3]] 7 (fun _ ↦ 0) = .ok body ∧ called s 1 3 = .ok (.ok, callee) ∧
      Delivered [[1, 2], [], [3]] 7 callee ∧ replyMsg exampleReplyer (fun _ ↦ 0) = .ok body' ∧
      replied s' 1 3 = .ok (.ok, some replyee) ∧ Returned exampleReplyer replyee := by
  have hwf : exampleReplyer.Wf := by constructor <;> decide
  obtain ⟨⟨body, hmsg, hcalled⟩, hreply⟩ := @call_round_trip (Fin 2) Unit Unit Unit _ _ _ 3 7
    [[1, 2], [], [3]] (fun _ ↦ 0) rfl (by decide) (by decide) (by decide)
  obtain ⟨body', hmsg', hreplied⟩ := hreply exampleReplyer (fun _ ↦ 0) hwf
  obtain ⟨_, s, -, -, hholds⟩ := exampleMsgs_holds body
  obtain ⟨_, s', -, -, hholds'⟩ := exampleMsgs_holds body'
  grind

end Srv

end Lanthorn
