import Lanthorn.Srv.Call

/-!
# The bounds of service calls

Model of where the loops of `srv_call` and `srv_reply` touch memory: each of the three functions below lists,
in the order of the code, the indices it uses into the arrays `sz` and `ad` and the places it writes in the
buffer that it has allocated. The sizes are what the words from `sz` on hold, whatever their number: an index
behind the array reads the memory that follows it.

The number of strings is never compared with `MAX_CALL_PARAM`, and the size of the buffer is a 32-bit sum.
`Srv.marshal_inBounds_iff` says exactly which inputs keep the loops inside the arrays and the buffer; on these
the messages of `Srv.Call` are what the buffers hold (`Srv.callMsg_of_inBounds`, `Srv.replyMsg_of_inBounds`).
-/

namespace Lanthorn

open Library List

namespace Srv

/-! ### Accesses -/

/-- A use of one of the arrays `sz` and `ad`, or a write to the new buffer. -/
inductive Access where
  | index (i : ℕ)
  | write (offset size : ℕ)
  deriving DecidableEq, Repr

def Access.Within (allocated : ℕ) : Access → Prop
  | .index i => i < maxCallParam
  | .write offset size => size = 0 ∨ offset + size ≤ allocated

instance decidableWithin (allocated : ℕ) : DecidablePred (Access.Within allocated)
  | .index i => inferInstanceAs (Decidable (i < maxCallParam))
  | .write offset size => inferInstanceAs (Decidable (size = 0 ∨ offset + size ≤ allocated))

/-- What a function returns, the size of the buffer it allocates and its accesses. -/
structure Marshal where
  err : Errno
  allocated : ℕ
  log : List Access

/-- No access is out of bounds; a call that is rejected in time has none that could be. -/
def Marshal.InBounds (m : Marshal) : Prop := ∀ a ∈ m.log, a.Within m.allocated

instance decidableInBounds (m : Marshal) : Decidable m.InBounds :=
  inferInstanceAs (Decidable (∀ a ∈ m.log, a.Within m.allocated))

/-- `kmalloc`, given whether there is memory: no bytes are not allocated. -/
def kmalloc (size : ℕ) (mem : Except Errno Unit) : Except Errno Unit :=
  if size = 0 then .error .inval else mem

/-- `for (i = 0; i < n; ++i) sum += sz[i]`. -/
def sumSizes (sum n : ℕ) (size : ℕ → ℕ) : ℕ :=
  (List.range n).foldl (fun sum i ↦ (sum + size i) % 2 ^ 32) sum

/-! ### The functions -/

/-- A loop over strings: what one round accesses at its offset, and the next offset. -/
def loopRound (size : ℕ → ℕ) (round : ℕ → ℕ → List Access) (at' : ℕ × List Access) (i : ℕ) : ℕ × List Access :=
  ((at'.1 + size i) % 2 ^ 32, at'.2 ++ round at'.1 i)

/-- The body of the loop of `srv_call`: `sz[i]` and `arg_sz` of the header, and the copy. -/
def callRound (size : ℕ → ℕ) (offset i : ℕ) : List Access :=
  [.index i, .write (8 + 4 * i) 4, .write 4 4, .write offset (size i)]

/-- `srv_call` up to `msg_newmsg`, for the sizes of the parameters, the answer of `kmalloc` and that of
`msg_newbox`. -/
def srvCall (nparam : ℕ) (size : ℕ → ℕ) (mem : Except Errno Unit) (newbox : Except Errno ℕ) : Marshal :=
  let msgsz := sumSizes headerSize nparam size
  match kmalloc msgsz mem with
  | .error err => ⟨err, 0, []⟩
  | .ok _ =>
    let (_, log) :=
      (List.range nparam).foldl (loopRound size (callRound size)) (headerSize, [.write 4 4])
    match newbox with
    | .error err => ⟨err, msgsz, log⟩
    | .ok _ => ⟨.ok, msgsz, log ++ [.write 0 4]⟩

/-- The body of the loop of `srv_reply`: `ad[i]` and `sz[i]` for the copy, `sz[i]` for the next offset. -/
def replyRound (size : ℕ → ℕ) (offset i : ℕ) : List Access :=
  [.index i, .index i, .write offset (size i), .index i]

/-- `srv_reply` up to `msg_newmsg`, for the number and the sizes of the replyer and the answer of
`kmalloc`. -/
def srvReply (narg : ℕ) (size : ℕ → ℕ) (mem : Except Errno Unit) : Marshal :=
  let sz := sumSizes headerSize narg size
  let indices := (List.range narg).map Access.index
  match kmalloc sz mem with
  | .error err => ⟨err, 0, indices⟩
  | .ok _ =>
    let (_, log) := (List.range narg).foldl (loopRound size (replyRound size)) (headerSize, indices)
    ⟨.ok, sz, log ++ [.write 0 4, .write 4 4, .write 8 (4 * maxCallParam)]⟩

/-- The word of the received header's `sz` at an index: behind the array it is what the stack holds. -/
def replySize (body : List UInt8) (stack : ℕ → ℕ) (i : ℕ) : ℕ :=
  if i < maxCallParam then Bytes.wordAt body (8 + 4 * i) else stack i

/-- `srv_call` from its first `msg_read` on, for the reply it has received. The buffer is the cache of the
caller. -/
def srvCallReply (body : List UInt8) (stack : ℕ → ℕ) (mem : Except Errno Unit) : Marshal :=
  if body.length < headerSize then ⟨.inval, 0, []⟩
  else
    let narg := Bytes.wordAt body 4
    let sz := sumSizes 0 narg (replySize body stack)
    let indices := (List.range narg).map Access.index
    if 0 < sz then
      match mem with
      | .error err => ⟨err, 0, indices⟩
      | .ok _ =>
        if body.length < (headerSize + sz) % 2 ^ 32 then ⟨.inval, sz, indices⟩
        else ⟨.ok, sz, indices ++ [.write 0 sz]⟩
    else ⟨.ok, 0, indices⟩

/-! ### What the loops access -/

section Loops

variable {n offset allocated : ℕ} {size : ℕ → ℕ} {log : List Access}

def bytes (size : ℕ → ℕ) (n : ℕ) : ℕ := ∑ i ∈ Finset.range n, size i

theorem bytes_succ (size : ℕ → ℕ) (n : ℕ) : bytes size (n + 1) = bytes size n + size n :=
  Finset.sum_range_succ size n

theorem bytes_mono {m n : ℕ} (h : m ≤ n) : bytes size m ≤ bytes size n :=
  Finset.sum_le_sum_of_subset (Finset.range_subset_range.mpr h)

theorem sumSizes_eq (h : offset < 2 ^ 32) : sumSizes offset n size = (offset + bytes size n) % 2 ^ 32 := by
  induction n with
  | zero => exact (Nat.mod_eq_of_lt h).symm
  | succ n ih =>
    rw [sumSizes, range_succ, foldl_append, ← sumSizes, ih, bytes_succ]
    simp only [foldl_cons, foldl_nil]
    omega

theorem foldl_loopRound {round : ℕ → ℕ → List Access} (h : offset < 2 ^ 32) :
    (List.range n).foldl (loopRound size round) (offset, log) = ((offset + bytes size n) % 2 ^ 32,
      log ++ (List.range n).flatMap fun i ↦ round ((offset + bytes size i) % 2 ^ 32) i) := by
  induction n with
  | zero =>
    rw [bytes, Finset.sum_range_zero, Nat.add_zero, Nat.mod_eq_of_lt h]
    exact congrArg _ (append_nil log).symm
  | succ n ih =>
    rw [range_succ, foldl_append, ih, foldl_cons, foldl_nil, loopRound, bytes_succ,
      flatMap_append, flatMap_singleton, append_assoc]
    congr 1
    dsimp only
    omega

theorem indices_within : (∀ a ∈ (List.range n).map Access.index, a.Within allocated) ↔ n ≤ maxCallParam := by
  constructor
  · intro h
    by_contra hgt
    exact absurd (h (.index maxCallParam) (List.mem_map.mpr ⟨_, List.mem_range.mpr (by omega), rfl⟩))
      (Nat.lt_irrefl _)
  · intro h a ha
    obtain ⟨i, hi, rfl⟩ := List.mem_map.mp ha
    exact Nat.lt_of_lt_of_le (List.mem_range.mp hi) h

theorem exists_write_beyond (hoffset : offset < 2 ^ 32) (hfit : ¬ offset + bytes size n < 2 ^ 32)
    (halloc : allocated < 2 ^ 32) :
    ∃ i < n, ¬ (Access.write ((offset + bytes size i) % 2 ^ 32) (size i)).Within allocated := by
  induction n with
  | zero => exact absurd hoffset hfit
  | succ n ih =>
    by_cases hlt : offset + bytes size n < 2 ^ 32
    · refine ⟨n, Nat.lt_succ_self n, ?_⟩
      rw [bytes_succ] at hfit
      rw [Access.Within, Nat.mod_eq_of_lt hlt]
      omega
    · obtain ⟨i, hi, hbeyond⟩ := ih hlt
      exact ⟨i, Nat.lt_succ_of_lt hi, hbeyond⟩

theorem copy_within (hfit : offset + bytes size n < 2 ^ 32) {i : ℕ} (hi : i < n) :
    (Access.write ((offset + bytes size i) % 2 ^ 32) (size i)).Within (offset + bytes size n) := by
  have hle : bytes size (i + 1) ≤ bytes size n := bytes_mono hi
  rw [bytes_succ] at hle
  rw [Access.Within, Nat.mod_eq_of_lt (by omega)]
  exact .inr (by omega)

end Loops

/-! ### Which inputs stay in bounds -/

section Bounds

variable {n : ℕ} {size : ℕ → ℕ} {mem : Except Errno Unit} {newbox : Except Errno ℕ}

/-- `kmalloc` refuses the size to which the sum of the strings has wrapped. -/
def Refused (n : ℕ) (size : ℕ → ℕ) (mem : Except Errno Unit) : Prop :=
  (headerSize + bytes size n) % 2 ^ 32 = 0 ∨ ∃ err, mem = .error err

def Fits (n : ℕ) (size : ℕ → ℕ) : Prop := headerSize + bytes size n < 2 ^ 32

theorem msgsz_eq : sumSizes headerSize n size = (headerSize + bytes size n) % 2 ^ 32 :=
  sumSizes_eq (by decide)

theorem kmalloc_of_refused (h : Refused n size mem) :
    ∃ err, kmalloc (sumSizes headerSize n size) mem = .error err := by
  rw [msgsz_eq, kmalloc]
  split_ifs with hzero
  · exact ⟨_, rfl⟩
  · exact h.resolve_left hzero

theorem kmalloc_of_not_refused (h : ¬ Refused n size mem) : kmalloc (sumSizes headerSize n size) mem = .ok () := by
  rw [Refused, not_or] at h
  rw [msgsz_eq, kmalloc, if_neg h.1]
  cases mem with
  | error err => exact absurd ⟨err, rfl⟩ h.2
  | ok _ => rfl

def Access.InHeader (a : Access) : Prop := ∀ allocated, headerSize ≤ allocated → a.Within allocated

theorem write_inHeader {offset len : ℕ} (h : offset + len ≤ headerSize) : (Access.write offset len).InHeader :=
  fun _ hle ↦ .inr (h.trans hle)

theorem index_inHeader {i : ℕ} (h : i < maxCallParam) : (Access.index i).InHeader := fun _ _ ↦ h

/-- A round uses its own index and copies its own string, and does nothing else outside the header if the
index is one of the array. -/
structure RoundOk (size : ℕ → ℕ) (round : ℕ → ℕ → List Access) : Prop where
  index_mem : ∀ offset i, Access.index i ∈ round offset i
  write_mem : ∀ offset i, Access.write offset (size i) ∈ round offset i
  other : ∀ offset i a, i < maxCallParam → a ∈ round offset i → a = .write offset (size i) ∨ a.InHeader

theorem roundOk_call (size : ℕ → ℕ) : RoundOk size (callRound size) where
  index_mem := by simp [callRound]
  write_mem := by simp [callRound]
  other := by grind [headerSize, callRound, index_inHeader, write_inHeader]

theorem roundOk_reply (size : ℕ → ℕ) : RoundOk size (replyRound size) where
  index_mem := by simp [replyRound]
  write_mem := by simp [replyRound]
  other := by grind [replyRound, index_inHeader]

theorem loop_within {round : ℕ → ℕ → List Access} (before after : List Access)
    (hround : RoundOk size round) (hbefore : n ≤ maxCallParam → ∀ a ∈ before, a.InHeader)
    (hafter : ∀ a ∈ after, a.InHeader) : (∀ a ∈ before ++ (List.range n).flatMap
        (fun i ↦ round ((headerSize + bytes size i) % 2 ^ 32) i) ++ after,
      a.Within ((headerSize + bytes size n) % 2 ^ 32)) ↔ n ≤ maxCallParam ∧ Fits n size := by
  constructor
  · intro h
    have hin : ∀ i < n, ∀ a ∈ round ((headerSize + bytes size i) % 2 ^ 32) i,
        a.Within ((headerSize + bytes size n) % 2 ^ 32) := by grind
    constructor
    · by_contra hgt
      exact absurd (hin maxCallParam (by omega) _ (hround.index_mem _ _)) (Nat.lt_irrefl _)
    · by_contra hfit
      obtain ⟨i, hi, hbeyond⟩ := exists_write_beyond (n := n) (by decide) hfit
        (Nat.mod_lt (headerSize + bytes size n) (by decide))
      exact hbeyond (hin i hi _ (hround.write_mem _ _))
  · rintro ⟨hle, hfit⟩ a ha
    rw [Nat.mod_eq_of_lt hfit]
    have hheader : headerSize ≤ headerSize + bytes size n := Nat.le_add_right _ _
    rw [mem_append, mem_append, mem_flatMap] at ha
    obtain (ha | ⟨i, hi, ha⟩) | ha := ha
    · exact hbefore hle a ha _ hheader
    · have hi : i < n := List.mem_range.mp hi
      obtain rfl | hother := hround.other _ i a (Nat.lt_of_lt_of_le hi hle) ha
      · exact copy_within hfit hi
      · exact hother _ hheader
    · exact hafter a ha _ hheader

theorem inHeader_singleton {offset len : ℕ} (h : offset + len ≤ headerSize) :
    ∀ a ∈ [Access.write offset len], a.InHeader := by
  intro a ha
  rw [List.mem_singleton.mp ha]
  exact write_inHeader h

theorem srvCall_inBounds_iff :
    (srvCall n size mem newbox).InBounds ↔ Refused n size mem ∨ n ≤ maxCallParam ∧ Fits n size := by
  by_cases hrefused : Refused n size mem
  · grind [kmalloc_of_refused, srvCall, Marshal.InBounds]
  · rw [srvCall, kmalloc_of_not_refused hrefused, or_iff_right hrefused]
    simp only
    rw [foldl_loopRound (by decide), msgsz_eq]
    have hfirst : ∀ a ∈ [Access.write 4 4], a.InHeader := inHeader_singleton (by decide)
    cases newbox with
    | error err =>
      have h := loop_within (n := n) [.write 4 4] [] (roundOk_call size) (fun _ ↦ hfirst) (by simp)
      rwa [append_nil] at h
    | ok _ =>
      exact loop_within [.write 4 4] [.write 0 4] (roundOk_call size) (fun _ ↦ hfirst)
        (inHeader_singleton (by decide))

theorem srvReply_inBounds_iff :
    (srvReply n size mem).InBounds ↔ n ≤ maxCallParam ∧ (Refused n size mem ∨ Fits n size) := by
  by_cases hrefused : Refused n size mem
  · obtain ⟨err, hk⟩ := kmalloc_of_refused hrefused
    rw [srvReply, hk, Marshal.InBounds, and_iff_left (Or.inl hrefused)]
    exact indices_within
  · rw [srvReply, kmalloc_of_not_refused hrefused, or_iff_right hrefused]
    simp only
    rw [foldl_loopRound (by decide), msgsz_eq]
    refine loop_within _ _ (roundOk_reply size) ?_ ?_
    · intro hle a ha
      obtain ⟨i, hi, rfl⟩ := List.mem_map.mp ha
      exact index_inHeader (Nat.lt_of_lt_of_le (List.mem_range.mp hi) hle)
    · intro a ha
      simp only [mem_cons, not_mem_nil, or_false] at ha
      obtain rfl | rfl | rfl := ha <;> exact write_inHeader (by decide)

theorem srvCallReply_inBounds_iff {body : List UInt8} {stack : ℕ → ℕ} : (srvCallReply body stack mem).InBounds ↔
      body.length < headerSize ∨ Bytes.wordAt body 4 ≤ maxCallParam := by
  unfold srvCallReply
  by_cases hshort : body.length < headerSize
  · simp [hshort, Marshal.InBounds]
  · rw [if_neg hshort, or_iff_right hshort]
    dsimp only
    cases mem with
    | error err => split_ifs <;> exact indices_within
    | ok _ =>
      dsimp only
      split_ifs
      · exact indices_within
      · simp only [Marshal.InBounds, mem_append, or_imp, forall_and, indices_within,
          mem_singleton, forall_eq, and_iff_left_iff_imp]
        exact fun _ ↦ .inr (Nat.le_of_eq (Nat.zero_add _))
      · exact indices_within

end Bounds

theorem bytes_eq_total {strings : List (List UInt8)} {size : ℕ → ℕ} {n : ℕ}
    (hsize : ∀ i < n, (strings[i]?).map length = some (size i)) : bytes size n = total strings n := by
  induction n with
  | zero => simp [bytes, total]
  | succ n ih =>
    obtain ⟨x, hx, hlength⟩ := Option.map_eq_some_iff.mp (hsize n n.lt_succ_self)
    rw [bytes_succ, total_succ hx, ih fun i hi ↦ hsize i (hi.trans n.lt_succ_self), hlength]

theorem kmalloc_of_wrapped {n : ℕ} {size : ℕ → ℕ} (h : Refused n size (.ok ())) :
    kmalloc (sumSizes headerSize n size) (.ok ()) = .error .inval := by
  obtain hzero | ⟨err, herr⟩ := h
  · rw [msgsz_eq, kmalloc, if_pos hzero]
  · cases herr

/-- The buffer that `kmalloc` returns for strings that fit has room for them and the header. -/
theorem kmalloc_of_fits {n : ℕ} {size : ℕ → ℕ} (h : Fits n size) :
    kmalloc (sumSizes headerSize n size) (.ok ()) = .ok
    () ∧ sumSizes headerSize n size = headerSize + bytes size n := by
  have hsum : sumSizes headerSize n size = headerSize + bytes size n := by rw [msgsz_eq, Nat.mod_eq_of_lt h]
  exact ⟨by rw [hsum, kmalloc, if_neg (by simp [headerSize])], hsum⟩

/-- A request in bounds for which there is memory is built by `callMsg` in the buffer of `srvCall`. -/
theorem callMsg_of_inBounds {params : List (List UInt8)} {size : ℕ → ℕ} {retboxid : ℕ}
    (hsize : ∀ i < params.length, (params[i]?).map length = some (size i)) (hret : retboxid < 2 ^ 32)
    (hok : (srvCall params.length size (.ok ()) (.ok retboxid)).err = .ok)
    (hbounds : (srvCall params.length size (.ok ()) (.ok retboxid)).InBounds) (buf : ℕ → UInt8) :
    ∃ body, callMsg params.length params retboxid buf = .ok body ∧
      body.length = (srvCall params.length size (.ok ()) (.ok retboxid)).allocated := by
  obtain hrefused | ⟨hlen, hfits⟩ := srvCall_inBounds_iff.mp hbounds
  · simp [srvCall, kmalloc_of_wrapped hrefused] at hok
  · obtain ⟨hmem, hsum⟩ := kmalloc_of_fits hfits
    have hbytes := bytes_eq_total hsize
    obtain ⟨buf', hrun, -⟩ := callMsg_eq buf hlen (hbytes ▸ hfits) hret
    refine ⟨_, hrun, ?_⟩
    rw [Bytes.length_read, ← hbytes, ← hsum]
    simp [srvCall, hmem]

/-- A reply in bounds for which there is memory is built by `replyMsg` in the buffer of `srvReply`. -/
theorem replyMsg_of_inBounds {replyer : Replyer} {size : ℕ → ℕ} (harray : replyer.sz.length = maxCallParam)
    (hsizes : replyer.sz.take replyer.narg = replyer.ad.map length) (herr : replyer.err < 2 ^ 32)
    (hsize : ∀ i < replyer.narg, (replyer.ad[i]?).map length = some (size i))
    (hok : (srvReply replyer.narg size (.ok ())).err = .ok)
    (hbounds : (srvReply replyer.narg size (.ok ())).InBounds)
    (buf : ℕ → UInt8) :
    ∃ body, replyMsg replyer buf = .ok body ∧ body.length = (srvReply replyer.narg size (.ok ())).allocated := by
  obtain ⟨hnarg, hrefused | hfits⟩ := srvReply_inBounds_iff.mp hbounds
  · simp [srvReply, kmalloc_of_wrapped hrefused] at hok
  · obtain ⟨hmem, hsum⟩ := kmalloc_of_fits hfits
    have hbytes := bytes_eq_total hsize
    obtain ⟨buf', hrun, -⟩ := replyMsg_eq buf ⟨hnarg, harray, hsizes, herr, hbytes ▸ hfits⟩
    refine ⟨_, hrun, ?_⟩
    rw [Bytes.length_read, ← hbytes, ← hsum]
    simp [srvReply, hmem]

end Srv

end Lanthorn
