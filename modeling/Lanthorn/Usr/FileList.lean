import Lanthorn.Usr.FileTree

/-!
# Listings of directories

Model of `file_subfile` in `fssrv/file.c`, which sizes a buffer by one walk over the children of a directory and
fills it by another, and of the loop of `ls.c` that takes such a buffer apart. The buffer of the service is kept by
its stores, as in `Usr.Path`; `ls` has the bytes, and a read behind their end is a fault.

`FileTree.subfile_lists` says that in every tree of files the listing of a directory comes out of `ls` as the names
of its children in the order of `strcmp`, and that the error codes are the right ones. Assumes: `path_cut` returns
its buffer.
-/

namespace Lanthorn

open List

open Library Paths

namespace Fs

/-! ### The functions -/

/-- What `file_subfile` returns: `*addr` and `*size`, and the stores into the buffer. -/
structure Listing where
  addr : ℕ
  size : ℕ
  stores : Stores

/-- `strcpy(cache + offset, name, strlen(name) + 1)`, with the offset behind it. -/
def copyName (at' : ℕ × Stores) (name : Str) : ℕ × Stores := (name ++ [nul]).foldl put at'

/-- `file_subfile`, for the answer of `malloc`: the error code, and a listing for `E_OK`. -/
def fileSubfile (fs : Fs) (cut : Cut) (mem : Errno × ℕ) (name : Str) : Result (Errno × Option Listing) := do
  let (err, file) ← fs.fileFind cut name
  if err ≠ .ok then return (err, none)
  if (fs.file file).type ≠ .dir then return (.inval, none)
  let first ← (fs.subRbt file).rbtFirst
  let (_, len) ← Rbt.rbtRep (fun _ ↦ (fs.subRbt file).mem)
    (fun node len ↦ .ok (.ok, wordAdd len ((fs.nameAt node).length + 1))) addressSpace first 0
  if len = 0 then return (.notfound, none)
  if mem.1 ≠ .ok then return (mem.1, none)
  let first ← (fs.subRbt file).rbtFirst
  let (_, at') ← Rbt.rbtRep (fun _ ↦ (fs.subRbt file).mem)
    (fun node at' ↦ .ok (.ok, copyName at' (fs.nameAt node))) addressSpace first (0, [])
  return (.ok, some ⟨mem.2, len, at'.2⟩)

/-- The bytes of a listing, in a memory that held `mem` before. -/
def Listing.bytes (l : Listing) (mem : ℕ → BitVec 8) : Str :=
  (List.range l.size).map fun i ↦ stored mem l.addr l.stores (wordAdd l.addr i)

def strFrom : Str → Result Str
  | [] => throw .unset
  | c :: rest =>
    if c = nul then return []
    else do
      let s ← strFrom rest
      return c :: s

/-- The loop of `ls` from an offset on. -/
def lsLoop (cache : Str) (size : ℕ) : ℕ → ℕ → Result (List Str)
  | 0, _ => throw .endless
  | fuel + 1, offset =>
    if offset < size then do
      let s ← strFrom (cache.drop offset)
      let rest ← lsLoop cache size fuel (wordAdd offset (s.length + 1))
      return s :: rest
    else return []

/-- What `ls` prints for a buffer of a size. -/
def lsNames (cache : Str) (size : ℕ) : Result (List Str) := lsLoop cache size addressSpace 0

/-! ### Taking a buffer apart -/

def joined (names : List Str) : Str := names.flatMap (· ++ [nul])

theorem joined_cons (s : Str) (names : List Str) : joined (s :: names) = s ++ nul :: joined names := by
  simp [joined]

theorem strFrom_append {s : Str} (hs : s.Terminated) (rest : Str) : strFrom (s ++ nul :: rest) = .ok s := by
  induction s with
  | nil => simp [strFrom]
  | cons c s ih =>
    have hrest := ih fun d hd ↦ hs d (mem_cons_of_mem _ hd)
    rw [cons_append, strFrom, if_neg (hs c mem_cons_self), hrest]
    rfl

theorem lsLoop_joined {names : List Str} (done : Str) {fuel : ℕ} (hnames : ∀ s ∈ names, s.Terminated)
    (hfuel : names.length < fuel) (hsize : (done ++ joined names).length < addressSpace) :
    lsLoop (done ++ joined names) (done ++ joined names).length fuel done.length = .ok names := by
  induction names generalizing done fuel with
  | nil =>
    obtain ⟨fuel, rfl⟩ := exists_succ hfuel
    simp [lsLoop, joined]
  | cons s names ih =>
    obtain ⟨fuel, rfl⟩ := exists_succ hfuel
    have hsplit : done ++ joined (s :: names) = (done ++ (s ++ [nul])) ++ joined names := by simp [joined_cons]
    have hnext : (done ++ (s ++ [nul])).length = done.length + (s.length + 1) := by simp
    have hlt : done.length < (done ++ joined (s :: names)).length := by simp [joined_cons]
    have hword : wordAdd done.length (s.length + 1) = (done ++ (s ++ [nul])).length := by
      rw [hsplit, length_append] at hsize
      rw [hnext, wordAdd_of_lt (by omega)]
    have hstr : strFrom ((done ++ joined (s :: names)).drop done.length) = .ok s := by
      rw [drop_left, joined_cons]
      exact strFrom_append (hnames s mem_cons_self) _
    have hrest := ih (done ++ (s ++ [nul])) (fun d hd ↦ hnames d (mem_cons_of_mem _ hd))
      (show names.length < fuel by simpa using hfuel) (by rwa [← hsplit])
    rw [← hsplit] at hrest
    rw [lsLoop, if_pos hlt, hstr]
    simp only [hword, hrest, ok_bind, pure_eq]

theorem lsNames_joined {names : List Str} (hnames : ∀ s ∈ names, s.Terminated)
    (hsize : (joined names).length < addressSpace) : lsNames (joined names) (joined names).length = .ok names := by
  have hcount : names.length ≤ (joined names).length := by
    induction names with
    | nil => simp
    | cons s names ih =>
      have hle := ih (fun d hd ↦ hnames d (mem_cons_of_mem _ hd)) (by
        rw [joined_cons, length_append, length_cons] at hsize
        omega)
      rw [joined_cons, length_append, length_cons, length_cons]
      omega
  have hloop := lsLoop_joined [] hnames (hcount.trans_lt hsize) (by simpa using hsize)
  simpa [lsNames] using hloop

/-! ### Filling a buffer -/

theorem foldl_copyName (names : List Str) (at' : ℕ × Stores) :
    names.foldl copyName at' = (joined names).foldl put at' := by
  induction names generalizing at' with
  | nil => rfl
  | cons s names ih =>
    rw [foldl_cons, ih, copyName, ← foldl_append]
    simp [joined]

theorem foldl_size (names : List Str) (n : ℕ) :
    names.foldl (fun len s ↦ wordAdd len (s.length + 1)) (n % addressSpace) =
      (n + (joined names).length) % addressSpace := by
  induction names generalizing n with
  | nil => rfl
  | cons s names ih =>
    have hnext : wordAdd (n % addressSpace) (s.length + 1) = (n + (s.length + 1)) % addressSpace :=
      Nat.mod_add_mod _ _ _
    rw [foldl_cons, hnext, ih, joined_cons, length_append, length_cons]
    congr 1
    omega

theorem bytes_storesFrom (mem : ℕ → BitVec 8) (addr : ℕ) {out : Str} (hlength : out.length ≤ addressSpace) :
    Listing.bytes ⟨addr, out.length, storesFrom 0 out⟩ mem = out := by
  have hread := reads_stored mem addr hlength
  refine ext_getElem (by simp [Listing.bytes]) fun i hi hi' ↦ ?_
  simp only [Listing.bytes, getElem_map, getElem_range]
  exact hread i _ (List.getElem?_eq_getElem hi')

theorem storesFrom_lt {out : Str} {st : ℕ × BitVec 8} (hst : st ∈ storesFrom 0 out) : st.1 < out.length := by
  obtain ⟨⟨c, i⟩, hi, rfl⟩ := List.mem_map.mp hst
  have hlt := (mem_zipIdx hi).2.1
  exact (Nat.mod_le _ _).trans_lt (by omega)

theorem fileSubfile_dir {fs : Fs} {cut : Cut} {path : Str} {d : ℕ} {xs : List ℕ}
    (hfind : fs.fileFind cut path = .ok (.ok, d)) (hdir : (fs.file d).type = .dir)
    (hxs : Rbt.Named fs.nameAt (fs.subRbt d) xs)
    (hsize : (joined (xs.map fs.nameAt)).length < addressSpace) (mem : Errno × ℕ) :
    fs.fileSubfile cut mem path = .ok (if xs = [] then (.notfound, none)
      else if mem.1 ≠ .ok then (mem.1, none)
      else (.ok, some ⟨mem.2, (joined (xs.map fs.nameAt)).length, storesFrom 0 (joined (xs.map fs.nameAt))⟩)) := by
  have hlen := foldl_size (xs.map fs.nameAt) 0
  rw [foldl_map, Nat.zero_mod, Nat.zero_add, Nat.mod_eq_of_lt hsize] at hlen
  have hcopy := foldl_copyName (xs.map fs.nameAt) (0, [])
  have hput := foldl_put 0 [] (joined (xs.map fs.nameAt))
  rw [Nat.zero_mod, Nat.zero_add, nil_append] at hput
  rw [foldl_map, hput] at hcopy
  have hzero : (joined (xs.map fs.nameAt)).length = 0 ↔ xs = [] := by
    cases xs with
    | nil => simp [joined]
    | cons x xs => simp [joined_cons]
  have hfirst : (fs.subRbt d).rbtFirst = .ok (xs.headD 0) := Rbt.Keyed.rbtFirst hxs
  have hsizes := Rbt.Keyed.rbtRep_eq hxs (fun len node ↦ wordAdd len ((fs.nameAt node).length + 1)) 0
  have hcopies := Rbt.Keyed.rbtRep_eq hxs (fun at' node ↦ copyName at' (fs.nameAt node)) (0, [])
  rw [hlen] at hsizes
  rw [hcopy] at hcopies
  simp only [fileSubfile, hfind, hdir, hfirst, hsizes, hcopies, ne_eq, not_true_eq_false,
    if_false, hzero, ok_bind, pure_eq]
  split_ifs <;> rfl

end Fs

/-! ### Listings of the trees of files -/

namespace FileTree

open Fs

/-- What `file_subfile` is for, on a path that exists: the error codes tell other files and empty directories, and
otherwise, once there is memory, `ls` gets the names of the children from the buffer, in order; all stores are into
the buffer. -/
def ListRight (fs : Fs) (cut : Cut) (mem : Errno × ℕ) (path : Str) : Prop :=
  ∀ d, fs.lookup (pathNames path) = some d → ∃ err listing, fs.fileSubfile cut mem path = .ok (err, listing) ∧
    (err = .inval ↔ (fs.file d).type ≠ .dir) ∧
    (err = .notfound ↔ (fs.file d).type = .dir ∧ ∀ c, fs.lookup (pathNames path ++ [c]) = none) ∧
    ((fs.file d).type = .dir → (∃ c, fs.lookup (pathNames path ++ [c]) ≠ none) → mem.1 = .ok →
      err = .ok ∧ ∃ l names, listing = some l ∧ (∀ st ∈ l.stores, st.1 < l.size) ∧
        (∀ old, lsNames (l.bytes old) l.size = .ok names) ∧
        names.Pairwise (fun s s' ↦ strcmp s s' = .lt) ∧
        ∀ c, c ∈ names ↔ fs.lookup (pathNames path ++ [c]) ≠ none)

variable {tree : FileTree} {cut : Cut} {path : Str} {mem : Errno × ℕ} {p : List Str} {d : ℕ} {xs : List ℕ}

theorem length_le_of_apart (hnodup : xs.Nodup) (hword : ∀ x ∈ xs, x < addressSpace)
    (hapart : ∀ x ∈ xs, ∀ y ∈ xs, x ≠ y → Apart x y) : xs.length ≤ addressSpace / fileSize + 1 := by
  have hmap : (xs.map (· / fileSize)).Nodup := by grind [List.Nodup.map_on, Fs.Apart, fileSize]
  have hsub : xs.map (· / fileSize) ⊆ List.range (addressSpace / fileSize + 1) := by grind [Nat.div_le_div_right]
  simpa using (subperm_of_subset hmap hsub).length_le

theorem length_joined_le {names : List Str} (hshort : ∀ s ∈ names, s.length < fileMaxNameLen) :
    (joined names).length ≤ names.length * fileMaxNameLen := by
  induction names with
  | nil => simp [joined]
  | cons s names ih =>
    have hrest := ih fun t ht ↦ hshort t (mem_cons_of_mem _ ht)
    have hs := hshort s mem_cons_self
    rw [joined_cons, length_append, length_cons, length_cons, Nat.add_mul]
    omega

theorem Inv.children (h : tree.Inv) (hd : tree.fs.lookup p = some d) :
    ∃ xs, Rbt.Named tree.fs.nameAt (tree.fs.subRbt d) xs ∧
      (∀ c, c ∈ xs.map tree.fs.nameAt ↔ tree.fs.lookup (p ++ [c]) ≠ none) ∧
      (∀ c ∈ xs.map tree.fs.nameAt, c.Terminated) ∧ (joined (xs.map tree.fs.nameAt)).length < addressSpace := by
  obtain ⟨xs, hnamed, hxs⟩ := h.forest.sub hd
  have hname : ∀ {c f}, tree.fs.lookup (p ++ [c]) = some f → tree.fs.nameAt (f + faRbtNode) = c :=
    fun hf ↦ (Forest.nameAt_node (h.forest.room hf).2).trans (h.forest.name_eq hf)
  have hmem : ∀ c, c ∈ xs.map tree.fs.nameAt ↔ tree.fs.lookup (p ++ [c]) ≠ none := by
    intro c
    rw [mem_map]
    constructor
    · grind
    · intro hne
      obtain ⟨f, hf⟩ := Option.ne_none_iff_exists'.mp hne
      exact ⟨f + faRbtNode, (hxs _).mpr ⟨c, f, hf, rfl⟩, hname hf⟩
  have hexists : ∀ c ∈ xs.map tree.fs.nameAt, ∃ f, tree.fs.lookup (p ++ [c]) = some f :=
    fun c hc ↦ Option.ne_none_iff_exists'.mp ((hmem c).mp hc)
  refine ⟨xs, hnamed, hmem, fun c hc ↦ ?_, ?_⟩
  · obtain ⟨f, hf⟩ := hexists c hc
    exact h.terminated hf
  -- Every child takes 72 bytes of the address space and at most 32 of the listing.
  have hcount : xs.length ≤ addressSpace / fileSize + 1 := by
    refine length_le_of_apart hnamed.nodup (fun n hn ↦ ?_) fun n hn n' hn' hne ↦ ?_
    · obtain ⟨c, f, hf, rfl⟩ := (hxs n).mp hn
      have hroom := (h.forest.room hf).2
      simp only [faRbtNode, fileSize] at hroom ⊢
      omega
    · obtain ⟨c, f, hf, rfl⟩ := (hxs n).mp hn
      obtain ⟨c', f', hf', rfl⟩ := (hxs n').mp hn'
      have hapart := h.apart.forall (h.used hf) (h.used hf') (by omega)
      simp only [Fs.Apart] at hapart ⊢
      omega
  grind [length_joined_le, h.short, addressSpace, fileSize, fileMaxNameLen]

/-- In every tree of files that the calls build, the listing of a directory is right. Assumes: `malloc`, which is
asked for a positive size, answers neither `E_INVAL` nor `E_NOTFOUND`. -/
theorem subfile_lists (hrun : system.Run Allowed tree) (hpath : Absolute path) (hcut : cut.Returns path)
    (hmem : mem.1 ≠ .inval ∧ mem.1 ≠ .notfound) : ListRight tree.fs cut mem path := by
  intro d hd
  have h := inv_of_run hrun
  have hfind : tree.fs.fileFind cut path = .ok (.ok, d) := by rw [h.forest.fileFind hpath hcut, hd]
  by_cases hdir : (tree.fs.file d).type = .dir
  swap
  · refine ⟨.inval, none, ?_, by simp [hdir], by simp [hdir], fun hdir' ↦ absurd hdir' hdir⟩
    simp [fileSubfile, hfind, hdir]
  obtain ⟨xs, hnamed, hnames, hterminated, hsize⟩ := h.children hd
  have hresult := fileSubfile_dir hfind hdir hnamed hsize mem
  have hempty : xs = [] ↔ ∀ c, tree.fs.lookup (pathNames path ++ [c]) = none := by
    rw [← map_eq_nil_iff (f := tree.fs.nameAt), eq_nil_iff_forall_not_mem]
    exact forall_congr' fun c ↦ (not_congr (hnames c)).trans not_not
  by_cases hnil : xs = []
  · grind
  have hnotempty := fun hall ↦ hnil (hempty.mpr hall)
  rw [if_neg hnil] at hresult
  by_cases hok : mem.1 = .ok
  swap
  · grind
  rw [if_neg (not_not.mpr hok)] at hresult
  refine ⟨_, _, hresult, by simp [hdir], iff_of_false (by decide) fun hall ↦ hnotempty hall.2,
    fun _ _ _ ↦ ⟨rfl, _, _, rfl, ?_, ?_, ?_, hnames⟩⟩
  · exact fun st hst ↦ storesFrom_lt hst
  · grind [bytes_storesFrom, lsNames_joined]
  · exact List.pairwise_map.mpr (hnamed.sorted.imp fun hlt ↦ strcmp_eq_lt.mpr hlt)

/-! ### An example -/

/-- The name `a/`. -/
def exampleName : Str := [0x61#8, slash]

theorem subfile_lists_example : ∃ tree : FileTree, tree.fs.lookup [exampleName] ≠ none ∧
    ListRight tree.fs FileState.exampleCut (.ok, 131072) [slash] := by
  have hresult : (exampleCreate.foldlM (System.guarded next Allowed .unset) exampleTree).map
      (fun tree ↦ tree.fs.lookup [exampleName]) = .ok (some 8192) := by decide +kernel
  obtain ⟨tree, hcalls, hview⟩ := map_eq_ok.mp hresult
  exact ⟨tree, by simp [hview],
    subfile_lists (System.run_of_foldlM exampleTree_run hcalls) (by decide) (by decide) (by decide)⟩

/-- The register for results leads to the string `b`. -/
def lostCut : Cut := ⟨(.ok, 65536), 16, fun a ↦ if a = 16 then 0x62#8 else 0#8⟩

/-- The root, which has a child, is said not to exist if the register leads to another name. -/
theorem subfile_lost : ∃ tree : FileTree, system.Run Allowed tree ∧
    ¬ ListRight tree.fs lostCut (.ok, 131072) [slash] := by
  have hresult : (exampleCreate.foldlM (System.guarded next Allowed .unset) exampleTree).map
      (fun tree ↦ (tree.fs.lookup [], tree.fs.lookup [exampleName],
        (tree.fs.fileSubfile lostCut (.ok, 131072) [slash]).map Prod.fst)) =
      .ok (some 4096, some 8192, .ok .notfound) := by decide +kernel
  obtain ⟨tree, hcalls, hview⟩ := map_eq_ok.mp hresult
  obtain ⟨hroot, hview⟩ := Prod.mk.inj hview
  obtain ⟨hchild, hanswer⟩ := Prod.mk.inj hview
  refine ⟨tree, System.run_of_foldlM exampleTree_run hcalls, fun hright ↦ ?_⟩
  obtain ⟨⟨err, listing⟩, hrun, hfst⟩ := map_eq_ok.mp hanswer
  obtain ⟨err', listing', hrun', -, hnotfound, -⟩ := hright 4096 hroot
  obtain ⟨rfl, -⟩ := ok_pair_inj (hrun.symm.trans hrun')
  have hnone : tree.fs.lookup [exampleName] = none := (hnotfound.mp hfst).2 exampleName
  rw [hchild] at hnone
  cases hnone

end FileTree

end Lanthorn
