import Lanthorn.Kernel.Str
import Mathlib

/-!
# Paths of the file service

Model of `path_cut` in `fssrv/file.c`, which copies a path into a buffer with a terminator behind every `/`, and of
the walk over such a buffer in `file_find` and `file_create`. A store is its offset from the address that `malloc`
has returned and its byte; sizes and offsets are words.

`path_cut` has no `return`. What its callers get is what the register for results holds when it ends, and this is
an argument of the model. `Paths.pathCut_right_iff` says that the function does what it is for exactly if the
register happens to hold the address of the buffer and the number of bytes is a word: its assertion never fails,
and the buffer holds `Paths.cutPath`, the components of the path. `Paths.components_eq` is the same for the
callers, whose walk then visits these components.
-/

namespace Lanthorn.Paths

open Library List

/-- The character `/`. -/
def slash : BitVec 8 := 0x2f#8

/-! ### The function -/

/-- Bytes that have been stored, each with its offset in the buffer. -/
abbrev Stores := List (ℕ × BitVec 8)

/-- `s[p++] = c`, for the index and the stores so far. -/
def put (at' : ℕ × Stores) (c : BitVec 8) : ℕ × Stores := (wordAdd at'.1 1, at'.2 ++ [(at'.1, c)])

/-- `name[strlen(name) - 1] == '/'`. -/
def Closed (name : Str) : Prop := name.getLast? = some slash

instance (name : Str) : Decidable (Closed name) := inferInstanceAs (Decidable (_ = _))

/-- The size that `path_cut` allocates, by its first loop. -/
def tmplen (name : Str) : ℕ :=
  name.tail.foldl (fun n c ↦ if c = slash then wordAdd n 1 else n)
    (wordAdd name.length (if Closed name then 0 else 1))

/-- The second loop of `path_cut`. -/
def copyLoop (at' : ℕ × Stores) (rest : Str) : ℕ × Stores :=
  rest.foldl (fun at' c ↦ if c = slash then put (put at' c) nul else put at' c) at'

/-- `path_cut`, for the answer of `malloc` and what the register for results holds at the end: the result
and the bytes that were stored. -/
def pathCut (name : Str) (buffer : Errno × ℕ) (eax : ℕ) : Result (ℕ × Stores) := do
  assert (buffer.1 = .ok)
  let at' := copyLoop (0, []) name.tail
  let at' := if ¬ Closed name then put at' nul else at'
  let at' := put at' nul
  assert (at'.1 = tmplen name)
  return (eax, at'.2)

def stored (mem : ℕ → BitVec 8) (s : ℕ) (stores : Stores) : ℕ → BitVec 8 :=
  stores.foldl (fun mem st ↦ Function.update mem (wordAdd s st.1) st.2) mem

/-! ### The walk -/

def strAt (mem : ℕ → BitVec 8) : ℕ → ℕ → Result Str
  | 0, _ => throw .endless
  | fuel + 1, a =>
    if mem a = nul then return []
    else do
      let rest ← strAt mem fuel (wordAdd a 1)
      return mem a :: rest

/-- The strings that the loops `while (name[p])` visit, which go on by `p += strlen(name + p) + 1`. -/
def pathWalk (mem : ℕ → BitVec 8) : ℕ → ℕ → Result (List Str)
  | 0, _ => throw .endless
  | fuel + 1, a => do
    let c ← strAt mem addressSpace a
    if c = [] then return []
    let rest ← pathWalk mem fuel (wordAdd a (c.length + 1))
    return c :: rest

/-- The circumstances of a call of `path_cut`: the answer of `malloc`, what the register for results holds
when it ends, and the memory. -/
structure Cut where
  buffer : Errno × ℕ
  eax : ℕ
  mem : ℕ → BitVec 8

/-- The components that the caller of `path_cut` visits. -/
def components (cut : Cut) (name : Str) : Result (List Str) := do
  let (ret, stores) ← pathCut name cut.buffer cut.eax
  pathWalk (stored cut.mem cut.buffer.2 stores) addressSpace ret

/-! ### What the function is for -/

/-- The parts of a path behind its first `/`, each with the `/` that ends it. -/
def cutPath : Str → List Str
  | [] => []
  | c :: rest =>
    if c = slash then [c] :: cutPath rest
    else match cutPath rest with
      | [] => [[c]]
      | comp :: comps => (c :: comp) :: comps

/-- The components of a path: they are not empty and make up the path, `/` only ends them, and only the last
may lack it. -/
structure Splits (t : Str) (comps : List Str) : Prop where
  flatten_eq : comps.flatten = t
  ne_nil : ∀ c ∈ comps, c ≠ []
  slash_last : ∀ c ∈ comps, slash ∉ c.dropLast
  closed : ∀ c ∈ comps.dropLast, Closed c

def encode (comps : List Str) : Str := comps.flatMap (· ++ [nul]) ++ [nul]

def Reads (mem : ℕ → BitVec 8) (a : ℕ) (bytes : Str) : Prop :=
  ∀ i byte, bytes[i]? = some byte → mem (wordAdd a i) = byte

/-- The number of bytes that `path_cut` stores. -/
def cutLength (name : Str) : ℕ :=
  name.length + name.tail.count slash + (if Closed name then 0 else 1)

/-! ### The components -/

section Components

variable {t : Str} {c : BitVec 8}

@[simp] theorem cutPath_eq_nil : cutPath t = [] ↔ t = [] := by
  cases t with
  | nil => simp [cutPath]
  | cons c rest =>
    unfold cutPath
    split_ifs
    · simp
    · split <;> simp

theorem cutPath_cons_of_ne (hc : c ≠ slash) {rest comp : Str} {comps : List Str}
    (hrest : cutPath rest = comp :: comps) : cutPath (c :: rest) = (c :: comp) :: comps := by
  rw [cutPath, if_neg hc, hrest]

theorem closed_cons {rest : Str} (hrest : rest ≠ []) : Closed (c :: rest) ↔ Closed rest := by grind [Closed]

theorem splits_cutPath (t : Str) : Splits t (cutPath t) := by
  induction t with
  | nil => constructor <;> simp [cutPath]
  | cons c rest ih =>
    by_cases hc : c = slash
    · rw [cutPath, if_pos hc]
      refine ⟨by simp [ih.flatten_eq], ?_, ?_, ?_⟩
      · simpa using ih.ne_nil
      · simpa using ih.slash_last
      · cases hcomps : cutPath rest with
        | nil => simp
        | cons comp comps =>
          have hclosed := ih.closed
          rw [hcomps] at hclosed
          simpa [Closed, hc] using hclosed
    · cases hcomps : cutPath rest with
      | nil =>
        obtain rfl := cutPath_eq_nil.mp hcomps
        constructor <;> simp [cutPath, hc]
      | cons comp comps =>
        rw [hcomps] at ih
        have hcomp : comp ≠ [] := ih.ne_nil comp (by simp)
        rw [cutPath_cons_of_ne hc hcomps]
        refine ⟨by simpa using ih.flatten_eq, ?_, ?_, ?_⟩
        · simpa using fun d hd ↦ ih.ne_nil d (by simp [hd])
        · intro d hd
          obtain rfl | hd := List.mem_cons.mp hd
          · rw [dropLast_cons_of_ne_nil hcomp]
            simpa [Ne.symm hc] using ih.slash_last comp (by simp)
          · exact ih.slash_last d (by simp [hd])
        · cases comps with
          | nil => simp
          | cons comp' comps =>
            intro d hd
            have hclosed := ih.closed
            grind [closed_cons]

def copied (t : Str) : Str := t.flatMap fun c ↦ if c = slash then [c, nul] else [c]

def terminator (name : Str) : Str := if Closed name then [] else [nul]

theorem copied_cons (c : BitVec 8) (rest : Str) :
    copied (c :: rest) = (if c = slash then [c, nul] else [c]) ++ copied rest := flatMap_cons

theorem terminator_cons {rest : Str} (hrest : rest ≠ []) : terminator (c :: rest) = terminator rest :=
  if_congr (closed_cons hrest) rfl rfl

theorem copied_append (t : Str) : copied t ++ terminator (slash :: t) = (cutPath t).flatMap (· ++ [nul]) := by
  induction t with
  | nil => simp [copied, cutPath, terminator, Closed]
  | cons c rest ih =>
    rw [copied_cons, terminator_cons (cons_ne_nil c rest), append_assoc]
    by_cases hc : c = slash
    · rw [if_pos hc, cutPath, if_pos hc, flatMap_cons, ← ih, hc]
      rfl
    · rw [if_neg hc]
      cases hcomps : cutPath rest with
      | nil =>
        obtain rfl := cutPath_eq_nil.mp hcomps
        simp [cutPath, copied, terminator, Closed, hc]
      | cons comp comps =>
        have hrest : rest ≠ [] := fun hnil ↦ by simp [hnil, cutPath] at hcomps
        rw [terminator_cons hrest] at ih ⊢
        rw [cutPath_cons_of_ne hc hcomps, ih, hcomps]
        rfl

theorem length_copied (t : Str) : (copied t).length = t.length + t.count slash := by
  induction t with
  | nil => rfl
  | cons c rest ih =>
    rw [copied_cons, length_append, ih, count_cons, length_cons]
    grind

theorem encode_cutPath (t : Str) : encode (cutPath t) = copied t ++ terminator (slash :: t) ++ [nul] := by
  rw [encode, copied_append]

theorem length_encode (t : Str) : (encode (cutPath t)).length = cutLength (slash :: t) := by
  have hterminator : (terminator (slash :: t)).length = if Closed (slash :: t) then 0 else 1 := by
    unfold terminator
    split_ifs <;> rfl
  rw [encode_cutPath, cutLength, length_append, length_append, length_copied, hterminator,
    length_singleton, length_cons, tail_cons]
  omega

end Components

/-! ### What is stored -/

def storesFrom (i : ℕ) (out : Str) : Stores := (out.zipIdx i).map fun x ↦ (x.2 % addressSpace, x.1)

theorem foldl_put (i : ℕ) (st : Stores) (out : Str) :
    out.foldl put (i % addressSpace, st) = ((i + out.length) % addressSpace, st ++ storesFrom i out) := by
  induction out generalizing i st with
  | nil => simp [storesFrom]
  | cons c out ih =>
    have hnext : wordAdd (i % addressSpace) 1 = (i + 1) % addressSpace := Nat.mod_add_mod _ _ _
    rw [foldl_cons, put, hnext, ih]
    simp [storesFrom, zipIdx_cons, Nat.add_assoc, Nat.add_comm 1]

theorem copyLoop_eq (at' : ℕ × Stores) (t : Str) : copyLoop at' t = (copied t).foldl put at' := by
  induction t generalizing at' with
  | nil => rfl
  | cons c rest ih =>
    rw [copyLoop, foldl_cons, ← copyLoop, ih, copied_cons, foldl_append]
    split_ifs <;> rfl

theorem tmplen_eq (name : Str) : tmplen name = cutLength name % addressSpace := by
  have hloop : ∀ (n : ℕ) (rest : Str), rest.foldl (fun n c ↦ if c = slash then wordAdd n 1 else n)
      (n % addressSpace) = (n + rest.count slash) % addressSpace := by
    intro n rest
    induction rest generalizing n with
    | nil => rfl
    | cons c rest ih =>
      rw [foldl_cons]
      by_cases hc : c = slash
      · have hnext : wordAdd (n % addressSpace) 1 = (n + 1) % addressSpace := Nat.mod_add_mod _ _ _
        rw [if_pos hc, hnext, ih, hc, count_cons_self, Nat.add_right_comm, Nat.add_assoc]
      · rw [if_neg hc, ih, count_cons_of_ne (by simpa using hc)]
  rw [tmplen, wordAdd, hloop, cutLength, Nat.add_right_comm]

theorem pathCut_eq (t : Str) (s eax : ℕ) :
    pathCut (slash :: t) (.ok, s) eax = .ok (eax, storesFrom 0 (encode (cutPath t))) := by
  have hput : ∀ at', (if ¬ Closed (slash :: t) then put at' nul else at') =
      (terminator (slash :: t)).foldl put at' := by
    intro at'
    unfold terminator
    split_ifs <;> rfl
  have hat : put (if ¬ Closed (slash :: t) then put (copyLoop (0, []) t) nul else copyLoop (0, []) t) nul =
      (cutLength (slash :: t) % addressSpace, storesFrom 0 (encode (cutPath t))) := by
    have hall := foldl_put 0 [] (encode (cutPath t))
    rw [Nat.zero_mod, Nat.zero_add, nil_append, length_encode] at hall
    rw [← hall, encode_cutPath, foldl_append, foldl_append, hput, copyLoop_eq]
    rfl
  simp only [pathCut, tail_cons, hat, tmplen_eq, assert_of_true trivial, ok_bind, pure_eq]

theorem wordAdd_wordAdd (a i j : ℕ) : wordAdd (wordAdd a i) j = wordAdd a (i + j) := by
  rw [wordAdd, wordAdd, Nat.mod_add_mod, Nat.add_assoc]
  rfl

theorem wordAdd_inj {a i j : ℕ} (hi : i < addressSpace) (hj : j < addressSpace)
    (h : wordAdd a i = wordAdd a j) : i = j := by
  simp only [wordAdd, addressSpace] at *
  omega

theorem stored_append (mem : ℕ → BitVec 8) (s : ℕ) (st : Stores) (i : ℕ) (c : BitVec 8) :
    stored mem s (st ++ [(i, c)]) = Function.update (stored mem s st) (wordAdd s i) c := by simp [stored]

theorem reads_stored (mem : ℕ → BitVec 8) (s : ℕ) {out : Str} (hlength : out.length ≤ addressSpace) :
    Reads (stored mem s (storesFrom 0 out)) s out := by
  induction out using List.reverseRecOn with
  | nil => simp [Reads]
  | append_singleton out c ih =>
    rw [length_append, length_singleton] at hlength
    have hstores : storesFrom 0 (out ++ [c]) = storesFrom 0 out ++ [(out.length, c)] := by
      simp [storesFrom, zipIdx_append, Nat.mod_eq_of_lt (show out.length < addressSpace by omega)]
    intro i byte hbyte
    rw [hstores, stored_append]
    by_cases hi : i = out.length
    · subst hi
      rw [Function.update_self]
      simpa using hbyte
    · have hlt : i < out.length := by grind
      rw [Function.update_of_ne fun heq ↦ hi (wordAdd_inj (by omega) (by omega) heq)]
      rw [List.getElem?_append_left hlt] at hbyte
      exact ih (by omega) i byte hbyte

/-- What `path_cut` is for: it stores only into its buffer, returns it, and the buffer holds the components of
the path, terminated, and an empty one. -/
def CutRight (name : Str) (s eax : ℕ) : Prop :=
  ∃ ret stores, pathCut name (.ok, s) eax = .ok (ret, stores) ∧ (∀ st ∈ stores, st.1 < tmplen name) ∧
    ret = s ∧ ∃ comps, Splits name.tail comps ∧ ∀ mem, Reads (stored mem s stores) s (encode comps)

/-- For every path `path_cut` does what it is for exactly if its buffer is returned by the register and its
size is a word. -/
theorem pathCut_right_iff (t : Str) (s eax : ℕ) :
    CutRight (slash :: t) s eax ↔ eax = s ∧ cutLength (slash :: t) < addressSpace := by
  have hrun := pathCut_eq t s eax
  have hlength := length_encode t
  constructor
  · rintro ⟨ret, stores, hrun', hwithin, rfl, -⟩
    obtain ⟨rfl, rfl⟩ := ok_pair_inj (hrun.symm.trans hrun')
    refine ⟨rfl, ?_⟩
    -- If the size wraps, the offset behind the buffer is one of those that are written.
    by_contra hwrap
    rw [tmplen_eq] at hwithin
    have hlt : cutLength (slash :: t) % addressSpace < (encode (cutPath t)).length := by
      rw [hlength]
      exact (Nat.mod_lt _ (by decide)).trans_le (not_lt.mp hwrap)
    have hmem : (cutLength (slash :: t) % addressSpace,
        (encode (cutPath t))[cutLength (slash :: t) % addressSpace]) ∈ storesFrom 0 (encode (cutPath t)) := by
      refine List.mem_map.mpr ⟨_, mk_mem_zipIdx_iff_getElem?.mpr (List.getElem?_eq_getElem hlt), ?_⟩
      rw [Nat.mod_mod]
    exact lt_irrefl _ (hwithin _ hmem)
  · rintro ⟨rfl, hlt⟩
    refine ⟨eax, _, hrun, ?_, rfl, cutPath t, splits_cutPath t, fun mem ↦ reads_stored mem eax (by omega)⟩
    rw [tmplen_eq, Nat.mod_eq_of_lt hlt]
    intro st hst
    obtain ⟨⟨c, i⟩, hi, rfl⟩ := List.mem_map.mp hst
    have hi' := (mem_zipIdx hi).2.1
    exact (Nat.mod_le _ _).trans_lt (by omega)

/-- The path `/a` is cut into a buffer at 4096, and the register holds the value that the last assertion has
compared: the caller does not get the buffer. -/
theorem pathCut_lost : ¬ CutRight [slash, 0x61#8] 4096 3 := by
  rintro ⟨ret, stores, hrun, -, hret, -⟩
  rw [pathCut_eq] at hrun
  cases hrun
  exact absurd hret (by decide)

/-! ### The walk of the callers -/

section Walk

variable {mem : ℕ → BitVec 8} {a fuel : ℕ} {c rest : Str} {comps : List Str}

theorem Reads.append {xs ys : Str} (h : Reads mem a (xs ++ ys)) :
    Reads mem a xs ∧ Reads mem (wordAdd a xs.length) ys := by
  refine ⟨fun i byte hbyte ↦ h i byte ?_, fun i byte hbyte ↦ ?_⟩
  · rw [List.getElem?_append_left (List.getElem?_eq_some_iff.mp hbyte).1]
    exact hbyte
  · rw [wordAdd_wordAdd]
    refine h _ byte ?_
    rw [List.getElem?_append_right (by omega), Nat.add_sub_cancel_left]
    exact hbyte

theorem Reads.head {byte : BitVec 8} (h : Reads mem a (byte :: rest)) (ha : a < addressSpace) : mem a = byte := by
  have hbyte := h 0 byte rfl
  rwa [wordAdd, Nat.add_zero, Nat.mod_eq_of_lt ha] at hbyte

theorem Reads.tail {byte : BitVec 8} (h : Reads mem a (byte :: rest)) : Reads mem (wordAdd a 1) rest :=
  (Reads.append (show Reads mem a ([byte] ++ rest) from h)).2

theorem wordAdd_lt (a b : ℕ) : wordAdd a b < addressSpace := Nat.mod_lt _ (by decide)

theorem strAt_eq (h : Reads mem a (c ++ nul :: rest)) (ha : a < addressSpace) (hc : c.Terminated)
    (hfuel : c.length < fuel) : strAt mem fuel a = .ok c := by
  induction c generalizing a fuel with
  | nil =>
    obtain ⟨fuel, rfl⟩ := exists_succ hfuel
    rw [strAt, if_pos (Reads.head h ha)]
    rfl
  | cons byte c ih =>
    obtain ⟨fuel, rfl⟩ := exists_succ hfuel
    have hbyte : mem a = byte := Reads.head h ha
    have hrest := ih (Reads.tail h) (wordAdd_lt a 1) (fun d hd ↦ hc d (by simp [hd]))
      (show c.length < fuel by simpa using hfuel)
    rw [strAt, hbyte, if_neg (hc byte (by simp)), hrest]
    rfl

theorem length_lt_encode (hc : c ∈ comps) : c.length < (encode comps).length := by
  obtain ⟨xs, ys, rfl⟩ := append_of_mem hc
  simp [encode]
  omega

theorem pathWalk_eq (h : Reads mem a (encode comps)) (ha : a < addressSpace)
    (hlength : (encode comps).length ≤ addressSpace)
    (hcomps : ∀ c ∈ comps, c ≠ [] ∧ c.Terminated) (hfuel : comps.length < fuel) :
    pathWalk mem fuel a = .ok comps := by
  induction comps generalizing a fuel with
  | nil =>
    obtain ⟨fuel, rfl⟩ := exists_succ hfuel
    have hstr : strAt mem addressSpace a = .ok [] :=
      strAt_eq (show Reads mem a ([] ++ nul :: []) from h) ha (by simp [Str.Terminated]) (by decide)
    rw [pathWalk, hstr]
    rfl
  | cons c comps ih =>
    obtain ⟨fuel, rfl⟩ := exists_succ hfuel
    obtain ⟨hne, hterminated⟩ := hcomps c (by simp)
    have hencode : encode (c :: comps) = (c ++ [nul]) ++ encode comps := by simp [encode]
    have hshort : c.length < (encode (c :: comps)).length := length_lt_encode (by simp)
    have hstr : strAt mem addressSpace a = .ok c :=
      strAt_eq (show Reads mem a (c ++ nul :: encode comps) by simpa [hencode] using h) ha hterminated (by omega)
    rw [hencode] at h hlength
    have hrest := ih (Reads.append h).2 (wordAdd_lt _ _)
      (by rw [length_append] at hlength; omega) (fun d hd ↦ hcomps d (by simp [hd]))
      (show comps.length < fuel by simpa using hfuel)
    rw [length_append, length_singleton] at hrest
    simp [pathWalk, hstr, hne, hrest]

end Walk

/-- `path_cut` has a buffer, the register holds its address, and its bytes have room in the address space. -/
structure Cut.Returns (cut : Cut) (name : Str) : Prop where
  ok : cut.buffer.1 = .ok
  eax_eq : cut.eax = cut.buffer.2
  word : cut.buffer.2 < addressSpace
  room : cutLength name < addressSpace

instance (cut : Cut) (name : Str) : Decidable (cut.Returns name) :=
  decidable_of_iff (cut.buffer.1 = .ok ∧ cut.eax = cut.buffer.2 ∧ cut.buffer.2 < addressSpace ∧
    cutLength name < addressSpace) ⟨fun h ↦ ⟨h.1, h.2.1, h.2.2.1, h.2.2.2⟩, fun h ↦ ⟨h.1, h.2, h.3, h.4⟩⟩

theorem cutPath_terminated {t : Str} (ht : t.Terminated) : ∀ c ∈ cutPath t, c ≠ [] ∧ c.Terminated := by
  have hsplits := splits_cutPath t
  refine fun c hc ↦ ⟨hsplits.ne_nil c hc, fun d hd ↦ ht d ?_⟩
  rw [← hsplits.flatten_eq]
  exact mem_flatten_of_mem hc hd

theorem length_le_length_encode (comps : List Str) : comps.length < (encode comps).length := by
  induction comps with
  | nil => simp [encode]
  | cons c comps ih =>
    simp only [encode, flatMap_cons, length_append, length_cons, length_nil] at ih ⊢
    omega

theorem components_eq {cut : Cut} {t : Str} (hcut : cut.Returns (slash :: t)) (ht : t.Terminated) :
    components cut (slash :: t) = .ok (cutPath t) := by
  obtain ⟨⟨err, s⟩, eax, mem⟩ := cut
  obtain ⟨hok, heax, hword, hroom⟩ := hcut
  dsimp only at hok heax hword
  subst hok heax
  have hlength := length_encode t
  have hread : Reads (stored mem eax (storesFrom 0 (encode (cutPath t)))) eax (encode (cutPath t)) :=
    reads_stored mem eax (by omega)
  have hcount := length_le_length_encode (cutPath t)
  refine bind_eq_ok.mpr ⟨_, pathCut_eq t eax eax, ?_⟩
  exact pathWalk_eq hread hword (by omega) (cutPath_terminated ht) (by omega)

end Lanthorn.Paths
