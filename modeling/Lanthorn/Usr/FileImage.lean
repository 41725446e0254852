import Lanthorn.Library.Bytes
import Lanthorn.Usr.FileTree

/-!
# The image of the initial files

Model of `fssrv/mkfs/mkfs.sh`, which writes a record for every file below a directory named `root`, and of `load_file`
in `fssrv/init.c`, which goes over the records and creates the files. A record is the name in 32 bytes, the size in
four with the low byte first, and the contents. The script takes as the name what follows the first `root` in the
path of the file, and fills the name up to 32 by its number of characters in the locale. The names are taken to have
no blanks and wildcards, so that the shell leaves them alone.

A name of 32 bytes has no terminator in its field, and `load_file` reads on into the size.
`FileTree.load_right_iff` says that the files come out of the image as they went in exactly if every name is shorter
or the low byte of the size behind it is 0. Assumes: the path of the image has no other `root`, its characters are
bytes, `path_cut` returns its buffer and there is memory for the files.
-/

namespace Lanthorn

open List

open Library Paths

structure ImageFile where
  path : Str
  contents : Str

namespace Image

/-! ### The script -/

/-- The word `root`. -/
def rootWord : Str := [0x72#8, 0x6f#8, 0x6f#8, 0x74#8]

/-- What follows the first `root`. -/
def afterRoot : Str → Option Str
  | [] => none
  | c :: rest => if rootWord <+: c :: rest then some ((c :: rest).drop rootWord.length) else afterRoot rest

/-- `${1#*root}`. -/
def stripRoot (s : Str) : Str := (afterRoot s).getD s

/-- `FILE_MAX_NAME_LEN` of the records. -/
def nameSize : ℕ := 32

/-- `sizeof(struct init_file_t)`. -/
def initFileSize : ℕ := 36

def sizeBytes (n : ℕ) : Str := (Bytes.word n).map UInt8.toBitVec

/-- `write` of the script, for the number of characters `${#name}` and the directory that `root` is in. -/
def write (chars : Str → ℕ) (dir : Str) (file : ImageFile) : Str :=
  let name := stripRoot (dir ++ slash :: rootWord ++ file.path)
  name ++ List.replicate (nameSize - chars name) nul ++ sizeBytes file.contents.length ++ file.contents

/-- `fileimg`. -/
def fileimg (chars : Str → ℕ) (dir : Str) (files : List ImageFile) : Str := files.flatMap (write chars dir)

/-! ### The records -/

def record (file : ImageFile) : Str :=
  file.path ++ List.replicate (nameSize - file.path.length) nul ++ sizeBytes file.contents.length ++ file.contents

def records (files : List ImageFile) : Str := files.flatMap record

def recordAddrs : ℕ → List ImageFile → List ℕ
  | _, [] => []
  | a, file :: files => a :: recordAddrs (a + (initFileSize + file.contents.length)) files

/-- A path below the root of the image that has room in the field, and is not one of a directory. -/
structure Valid (file : ImageFile) : Prop where
  absolute : Fs.Absolute file.path
  notDir : ¬ Closed file.path
  room : file.path.length ≤ nameSize

def Ends (file : ImageFile) : Prop := file.path.length < nameSize ∨ file.contents.length % 256 = 0

instance (file : ImageFile) : Decidable (Ends file) := inferInstanceAs (Decidable (_ ∨ _))

variable {file : ImageFile} {files : List ImageFile}

theorem afterRoot_append {x : Str} (hx : ¬ rootWord <:+: x ++ rootWord.dropLast) (y : Str) :
    afterRoot (x ++ rootWord ++ y) = some y := by
  induction x with
  | nil =>
    have hle : rootWord <+: rootWord ++ y := ⟨y, rfl⟩
    exact if_pos hle
  | cons c x ih =>
    rw [cons_append, cons_append, afterRoot, if_neg]
    · refine ih fun hin ↦ hx (hin.trans ?_)
      exact (suffix_cons c _).isInfix
    · rintro ⟨r, hr⟩
      have hsplit : rootWord ++ r = (c :: x ++ rootWord.dropLast) ++ (0x74#8 :: y) := by
        rw [hr]
        simp [rootWord]
      rcases List.append_eq_append_iff.mp hsplit with ⟨s, hs, -⟩ | ⟨s, hs, -⟩
      · exact hx ⟨[], s, by rw [hs]; rfl⟩
      · have hlength := congrArg List.length hs
        simp only [rootWord, List.dropLast, length_append, length_cons, length_nil] at hlength
        obtain rfl : s = [] := List.length_eq_zero_iff.mp (by omega)
        rw [append_nil] at hs
        exact hx ⟨[], [], by rw [nil_append, append_nil]; exact hs⟩

theorem fileimg_eq {chars : Str → ℕ} {dir : Str} (hdir : ¬ rootWord <:+: dir ++ slash :: rootWord.dropLast)
    (hchars : ∀ file ∈ files, chars file.path = file.path.length) : fileimg chars dir files = records files := by
  refine flatMap_congr fun file hfile ↦ ?_
  have hstrip : stripRoot (dir ++ slash :: rootWord ++ file.path) = file.path := by
    have hafter := afterRoot_append (x := dir ++ [slash]) (by simpa using hdir) file.path
    grind [stripRoot]
  rw [write, hstrip, hchars file hfile]
  rfl

theorem length_sizeBytes (n : ℕ) : (sizeBytes n).length = 4 := rfl

theorem length_record (hroom : file.path.length ≤ nameSize) :
    (record file).length = initFileSize + file.contents.length := by
  simp only [record, length_append, length_replicate, length_sizeBytes, nameSize, initFileSize] at hroom ⊢
  omega

/-! ### Reading a record -/

section Read

variable {mem : ℕ → BitVec 8} {a : ℕ} {rest : Str}

/-- `file->size` of the record at an address. -/
def sizeAt (mem : ℕ → BitVec 8) (a : ℕ) : ℕ :=
  Bytes.value ((List.range 4).map fun i ↦ UInt8.ofBitVec (mem (wordAdd a (nameSize + i))))

theorem strAt_longer {c name : Str} {byte : BitVec 8} {fuel : ℕ} (h : Paths.Reads mem a (c ++ byte :: rest))
    (ha : a < addressSpace) (hc : c.Terminated) (hbyte : byte ≠ nul) (hname : strAt mem fuel a = .ok name) :
    c ++ [byte] <+: name := by
  induction c generalizing a fuel name with
  | nil =>
    cases fuel with
    | zero => cases hname
    | succ fuel =>
      rw [strAt, Reads.head h ha, if_neg hbyte] at hname
      obtain ⟨s, -, hname⟩ := bind_eq_ok.mp hname
      cases hname
      exact ⟨s, rfl⟩
  | cons b c ih =>
    cases fuel with
    | zero => cases hname
    | succ fuel =>
      rw [strAt, Reads.head h ha, if_neg (hc b mem_cons_self)] at hname
      obtain ⟨s, hs, hname⟩ := bind_eq_ok.mp hname
      cases hname
      obtain ⟨t, rfl⟩ := ih (Reads.tail h) (wordAdd_lt a 1) (fun d hd ↦ hc d (mem_cons_of_mem _ hd)) hs
      exact ⟨t, rfl⟩

theorem strAt_terminated {name : Str} {fuel : ℕ} (hname : strAt mem fuel a = .ok name) : name.Terminated := by
  induction fuel generalizing a name with
  | zero => cases hname
  | succ fuel ih =>
    rw [strAt] at hname
    split_ifs at hname with hnul
    · cases hname
      exact fun c hc ↦ absurd hc not_mem_nil
    · obtain ⟨s, hs, hname⟩ := bind_eq_ok.mp hname
      cases hname
      intro c hc
      rcases List.mem_cons.mp hc with rfl | hc
      · exact hnul
      · exact ih hs c hc

theorem record_split (file : ImageFile) :
    ∃ byte tail, record file = file.path ++ byte :: tail ∧ (byte = nul ↔ Ends file) := by
  by_cases hshort : file.path.length < nameSize
  · obtain ⟨k, hk⟩ := Nat.exists_eq_add_one_of_ne_zero (Nat.sub_ne_zero_of_lt hshort)
    refine ⟨nul, List.replicate k nul ++ sizeBytes file.contents.length ++ file.contents, ?_,
      iff_of_true rfl (.inl hshort)⟩
    rw [record, hk, replicate_succ]
    simp
  · have hzero : nameSize - file.path.length = 0 := Nat.sub_eq_zero_of_le (not_lt.mp hshort)
    refine ⟨BitVec.ofNat 8 file.contents.length, (sizeBytes file.contents.length).tail ++ file.contents, ?_, ?_⟩
    · rw [record, hzero, replicate_zero, append_nil]
      simp [sizeBytes, Bytes.word]
      rfl
    · simp only [Ends, hshort, false_or, nul]
      rw [← BitVec.toNat_inj, BitVec.toNat_ofNat]
      simp

variable (hvalid : Valid file) (h : Paths.Reads mem a (record file ++ rest)) (ha : a < addressSpace)

include hvalid h ha

theorem strAt_record (hends : Ends file) : strAt mem addressSpace a = .ok file.path := by
  obtain ⟨byte, tail, hsplit, hbyte⟩ := record_split file
  rw [hsplit, hbyte.mpr hends, append_assoc] at h
  have hroom := hvalid.room
  refine strAt_eq h ha hvalid.absolute.2 ?_
  simp only [nameSize, addressSpace] at hroom ⊢
  omega

theorem strAt_record_longer (hends : ¬ Ends file) {name : Str} (hname : strAt mem addressSpace a = .ok name) :
    ∃ byte, file.path ++ [byte] <+: name := by
  obtain ⟨byte, tail, hsplit, hbyte⟩ := record_split file
  rw [hsplit, append_assoc] at h
  exact ⟨byte, strAt_longer h ha hvalid.absolute.2 (fun heq ↦ hends (hbyte.mp heq)) hname⟩

omit ha in
theorem reads_record (hsize : file.contents.length < addressSpace) :
    sizeAt mem a = file.contents.length ∧ Paths.Reads mem (wordAdd a initFileSize) file.contents ∧
      Paths.Reads mem (wordAdd a (initFileSize + file.contents.length)) rest := by
  have hroom := hvalid.room
  have hrest := (Reads.append h).2
  rw [length_record hroom] at hrest
  have hrecord := (Reads.append h).1
  have hcontents := (Reads.append hrecord).2
  have hheader := (Reads.append (Reads.append hrecord).1).2
  have hname : (file.path ++ List.replicate (nameSize - file.path.length) nul).length = nameSize := by
    rw [length_append, length_replicate]
    omega
  rw [length_append, hname, length_sizeBytes] at hcontents
  rw [hname] at hheader
  refine ⟨?_, hcontents, hrest⟩
  have hbytes : ((List.range 4).map fun i ↦ UInt8.ofBitVec (mem (wordAdd a (nameSize + i)))) =
      Bytes.word file.contents.length := by
    refine ext_getElem rfl fun i hi hi' ↦ ?_
    have hbyte := hheader i ((Bytes.word file.contents.length)[i]).toBitVec
      (by rw [sizeBytes, List.getElem?_map, List.getElem?_eq_getElem hi']; rfl)
    rw [wordAdd_wordAdd] at hbyte
    simp only [getElem_map, getElem_range, hbyte]
  rw [sizeAt, hbytes]
  exact Bytes.value_word (by simpa [addressSpace] using hsize)

end Read

end Image

/-! ### Loading -/

/-- The circumstances of a round of `load_file`: those of `path_cut` in the two calls, and the answers of `malloc`. -/
structure LoadCall where
  create : Cut
  find : Cut
  mems : List Block

namespace Fs

open Image

/-- The loop of `load_file` from a record on: the records that are visited, and where it stops. -/
def loadLoop (mem : ℕ → BitVec 8) (stop : ℕ) (calls : ℕ → LoadCall) : ℕ → ℕ → Fs → Result (List ℕ × ℕ × Fs)
  | 0, _, _ => throw .endless
  | fuel + 1, file, fs =>
    if file < stop then do
      let name ← strAt mem addressSpace file
      let (_, fs) ← fs.fileCreate (calls file).create (calls file).mems name (wordAdd file initFileSize)
        (sizeAt mem file)
      let _ ← fs.fileFind (calls file).find name
      let (visited, last, fs) ← loadLoop mem stop calls fuel (wordAdd (wordAdd file
        (sizeAt mem file)) initFileSize) fs
      return (file :: visited, last, fs)
    else return ([], file, fs)

/-- `load_file`, for an image between two addresses. -/
def loadFile (fs : Fs) (mem : ℕ → BitVec 8) (start stop : ℕ) (calls : ℕ → LoadCall) : Result (List ℕ × ℕ × Fs) :=
  loadLoop mem stop calls addressSpace start fs

end Fs

namespace FileTree

open Fs Image

def recordName (mem : ℕ → BitVec 8) (a : ℕ) : Str :=
  match strAt mem addressSpace a with
  | .ok name => name
  | .error _ => []

/-- In every round `path_cut` returns its buffer, and there is memory for the names. -/
def Served (mem : ℕ → BitVec 8) (calls : ℕ → LoadCall) : List ℕ → ℕ → List ImageFile → Prop
  | _, _, [] => True
  | used, a, file :: files =>
    ((calls a).create.Returns (recordName mem a) ∧ (calls a).find.Returns (recordName mem a) ∧
      Available used (calls a).mems ∧ Enough (pathNames (recordName mem a)).length (calls a).mems) ∧
    Served mem calls (used ++ taken (calls a).mems) (a + (initFileSize + file.contents.length)) files

/-- What `load_file` is for: it visits the record of every file, stops at the end of the image, and every file is
found under its path with its size and its contents. -/
def LoadRight (fs : Fs) (mem : ℕ → BitVec 8) (start stop : ℕ) (calls : ℕ → LoadCall) (files : List ImageFile) :
    Prop :=
  ∃ visited last fs', fs.loadFile mem start stop calls = .ok (visited, last, fs') ∧
    visited = recordAddrs start files ∧ last = stop ∧
    ∀ file ∈ files, ∃ data, fs'.map (pathNames file.path) = some ⟨.entity, data, file.contents.length⟩ ∧
      Paths.Reads mem data file.contents

section Names

variable {path path' : Str}

theorem eq_of_names_le (hpath : Absolute path) (hpath' : Absolute path') (hopen : ¬ Closed path)
    (hle : pathNames path <+: pathNames path') : path = path' := by
  have hcons := hpath.eq_cons
  by_cases heq : pathNames path = pathNames path'
  · have htail : path.tail = path'.tail := by
      rw [← (splits_cutPath path.tail).flatten_eq, ← (splits_cutPath path'.tail).flatten_eq]
      exact congrArg List.flatten heq
    rw [hcons, hpath'.eq_cons, htail]
  · have hne : pathNames path ≠ [] := by
      intro hnil
      have hnil' := cutPath_eq_nil.mp hnil
      rw [hcons, hnil'] at hopen
      exact hopen rfl
    obtain ⟨q, c, hnames⟩ : ∃ q c, pathNames path = q ++ [c] := ⟨_, _, (dropLast_append_getLast hne).symm⟩
    rw [hnames] at hle heq
    rw [hcons, FileMap.closed_last hnames.symm] at hopen
    exact absurd (FileMap.closed_of_lt hle heq) hopen

theorem fits_of_room (hroom : path.length ≤ nameSize) : Fits path := by
  intro c hc
  have hle : c.length ≤ path.tail.length := by
    rw [← (splits_cutPath path.tail).flatten_eq]
    exact (sublist_flatten_of_mem hc).length_le
  grind [nameSize, fileMaxNameLen]

end Names

section Load

variable {tree : FileTree} {mem : ℕ → BitVec 8} {a stop fuel : ℕ} {calls : ℕ → LoadCall} {files : List ImageFile}
  {file : ImageFile} {rest : Str}

theorem length_records_cons (files : List ImageFile) (hvalid : Valid file) :
    (records (file :: files)).length = initFileSize + file.contents.length + (records files).length := by
  rw [records, flatMap_cons, length_append, length_record hvalid.room]
  rfl

theorem recordName_spec (hvalid : Valid file) (h : Paths.Reads mem a (record file ++ rest)) (ha : a < addressSpace)
    {name : Str} (hname : strAt mem addressSpace a = .ok name) :
    Absolute name ∧ (name = file.path ∧ Ends file ∨ nameSize < name.length ∧ ¬ Ends file) := by
  by_cases hends : Ends file
  · grind [strAt_record, hvalid.absolute]
  · obtain ⟨byte, t, rfl⟩ := strAt_record_longer hvalid h ha hends hname
    refine ⟨⟨?_, strAt_terminated hname⟩, .inr ⟨?_, hends⟩⟩
    · rw [hvalid.absolute.eq_cons]
      rfl
    · simp only [Ends, not_or, not_lt] at hends
      simp only [length_append, length_singleton]
      omega

theorem recordName_eq {name : Str} (hname : strAt mem addressSpace a = .ok name) : recordName mem a = name := by
  rw [recordName, hname]

/-- The image of the files is in memory from an address to another. -/
structure Loaded (mem : ℕ → BitVec 8) (a stop : ℕ) (files : List ImageFile) : Prop where
  valid : ∀ file ∈ files, Valid file
  reads : Paths.Reads mem a (records files)
  stop_eq : a + (records files).length = stop
  word : stop < addressSpace

/-- What a round of `load_file` finds at a record, and where it goes on. -/
structure Round (mem : ℕ → BitVec 8) (a stop : ℕ) (file : ImageFile) (files : List ImageFile) : Prop where
  lt : a < stop
  reads : Paths.Reads mem a (record file ++ records files)
  size_eq : sizeAt mem a = file.contents.length
  contents : Paths.Reads mem (wordAdd a initFileSize) file.contents
  next_eq : wordAdd (wordAdd a (sizeAt mem a)) initFileSize = a + (initFileSize + file.contents.length)
  next : Loaded mem (a + (initFileSize + file.contents.length)) stop files

theorem Loaded.round (h : Loaded mem a stop (file :: files)) : Round mem a stop file files := by
  have hvalid := h.valid file mem_cons_self
  have hlength := length_records_cons files hvalid
  have hstop := h.stop_eq
  have hword := h.word
  have hreads : Paths.Reads mem a (record file ++ records files) := h.reads
  have hpos : 0 < initFileSize := by decide
  obtain ⟨hsize, hcontents, hrest⟩ := reads_record hvalid hreads (by omega)
  have hnext : wordAdd a (initFileSize + file.contents.length) = a + (initFileSize + file.contents.length) :=
    wordAdd_of_lt (by omega)
  refine ⟨by omega, hreads, hsize, hcontents, ?_, fun f hf ↦ h.valid f (mem_cons_of_mem _ hf), ?_, by omega, hword⟩
  · rw [hsize, wordAdd_wordAdd, Nat.add_comm file.contents.length, hnext]
  · rwa [hnext] at hrest

theorem Loaded.record_of_mem (h : Loaded mem a stop files) {b : ℕ} (hb : b ∈ recordAddrs a files) :
    ∃ file ∈ files, ∃ rest, Paths.Reads mem b (record file ++ rest) ∧ b < addressSpace := by
  induction files generalizing a with
  | nil => exact absurd hb not_mem_nil
  | cons file files ih =>
    have hround := h.round
    rcases List.mem_cons.mp hb with rfl | hb
    · exact ⟨file, mem_cons_self, _, hround.reads, hround.lt.trans h.word⟩
    · obtain ⟨f, hf, hrest⟩ := ih hround.next hb
      exact ⟨f, mem_cons_of_mem _ hf, hrest⟩

section

variable (h : tree.Inv) (hloaded : Loaded mem a stop files) (hserved : Served mem calls tree.used a files)
include h hloaded hserved

theorem Inv.loadLoop_none {visited : List ℕ} {last : ℕ} {fs' : Fs}
    (hrun : loadLoop mem stop calls fuel a tree.fs = .ok (visited, last, fs')) {q : List Str}
    (hnone : tree.fs.map q = none) (hq : ∀ b ∈ recordAddrs a files, ¬ q <+: pathNames (recordName mem b)) :
    fs'.map q = none := by
  induction files generalizing tree a fuel visited last fs' with
  | nil =>
    cases fuel with
    | zero => cases hrun
    | succ fuel =>
      have hstop : ¬ a < stop := by grind [hloaded.stop_eq, records]
      rw [loadLoop, if_neg hstop] at hrun
      obtain ⟨-, -, rfl⟩ := ok_triple_inj hrun
      exact hnone
  | cons file files ih =>
    cases fuel with
    | zero => cases hrun
    | succ fuel =>
      have hround := hloaded.round
      obtain ⟨⟨hcreate, -, hmems, -⟩, hserved⟩ := hserved
      rw [loadLoop, if_pos hround.lt] at hrun
      obtain ⟨name, hname, hrun⟩ := bind_eq_ok.mp hrun
      obtain ⟨⟨err, fs₁⟩, hcreated, hrun⟩ := bind_eq_ok.mp hrun
      dsimp only at hrun
      obtain ⟨found, -, hrun⟩ := bind_eq_ok.mp hrun
      obtain ⟨⟨visited', last', fs₂⟩, hloop, hrun⟩ := bind_eq_ok.mp hrun
      obtain ⟨-, -, rfl⟩ := ok_triple_inj hrun
      have hrecord := recordName_eq hname
      rw [hrecord] at hcreate
      obtain ⟨habsolute, -⟩ := recordName_spec (hloaded.valid file mem_cons_self) hround.reads
        (hround.lt.trans hloaded.word) hname
      have h₁ := h.create habsolute hcreate hmems hcreated
      obtain ⟨names, e, -, hle, hmap, -⟩ := h.created habsolute hcreate hmems hcreated
      rw [hround.next_eq] at hloop
      refine ih h₁ hround.next hserved hloop ?_
        fun b hb ↦ hq b (mem_cons_of_mem _ hb)
      dsimp only
      rw [hmap, FileMap.add_of_none hnone, if_neg]
      intro hle'
      refine hq a mem_cons_self ?_
      rw [hrecord]
      exact hle'.trans hle

theorem Inv.loadLoop_ok (hends : ∀ file ∈ files, Ends file)
    (hdistinct : files.Pairwise fun f f' ↦ f.path ≠ f'.path)
    (hnone : ∀ file ∈ files, tree.fs.map (pathNames file.path) = none) (hfuel : files.length < fuel) :
    ∃ fs', loadLoop mem stop calls fuel a tree.fs = .ok (recordAddrs a files, stop, fs') ∧
      (∀ q e, tree.fs.map q = some e → fs'.map q = some e) ∧
      ∀ file ∈ files, ∃ data, fs'.map (pathNames file.path) = some ⟨.entity, data, file.contents.length⟩ ∧
        Paths.Reads mem data file.contents := by
  induction files generalizing tree a fuel with
  | nil =>
    obtain ⟨fuel, rfl⟩ := exists_succ hfuel
    have hstop : a = stop := by simpa [records] using hloaded.stop_eq
    refine ⟨tree.fs, ?_, fun _ _ ↦ id, fun file hfile ↦ absurd hfile not_mem_nil⟩
    rw [loadLoop, if_neg (by omega), hstop]
    rfl
  | cons file files ih =>
    obtain ⟨fuel, rfl⟩ := exists_succ hfuel
    have hround := hloaded.round
    have hvalid := hloaded.valid file mem_cons_self
    have hname : strAt mem addressSpace a = .ok file.path :=
      strAt_record hvalid hround.reads (hround.lt.trans hloaded.word) (hends file mem_cons_self)
    obtain ⟨⟨hcreate, hfind, hmems, henough⟩, hserved⟩ := hserved
    rw [recordName_eq hname] at hcreate hfind henough
    obtain ⟨fs₁, hcreated, hmap⟩ := h.create_ok (wordAdd a initFileSize) (sizeAt mem a) hvalid.absolute hcreate
      hmems (fits_of_room hvalid.room) henough
    have h₁ := h.create hvalid.absolute hcreate hmems hcreated
    rw [pathType, if_neg hvalid.notDir, hround.size_eq] at hmap
    obtain ⟨hothers, hdistinct⟩ := List.pairwise_cons.mp hdistinct
    have hself : fs₁.map (pathNames file.path) = some ⟨.entity, wordAdd a initFileSize, file.contents.length⟩ := by
      rw [hmap, FileMap.add_of_none (hnone file mem_cons_self), if_pos ⟨[], append_nil _⟩, if_pos rfl]
    have hnone₁ : ∀ f ∈ files, fs₁.map (pathNames f.path) = none := by
      intro f hf
      have hvalid' := hloaded.valid f (mem_cons_of_mem _ hf)
      rw [hmap, FileMap.add_of_none (hnone f (mem_cons_of_mem _ hf)), if_neg]
      exact fun hle ↦ hothers f hf (eq_of_names_le hvalid'.absolute hvalid.absolute hvalid'.notDir hle).symm
    obtain ⟨fs₂, hloop, hkeep, hentries⟩ := ih h₁ hround.next hserved
      (fun f hf ↦ hends f (mem_cons_of_mem _ hf)) hdistinct hnone₁
      (show files.length < fuel by simpa using hfuel)
    refine ⟨fs₂, ?_, fun q e hq ↦ hkeep q e ?_, fun f hf ↦ ?_⟩
    · have hfound := h₁.forest.fileFind hvalid.absolute hfind
      rw [loadLoop, if_pos hround.lt, hround.next_eq]
      exact bind_eq_ok.mpr ⟨_, hname, bind_eq_ok.mpr ⟨_, hcreated, bind_eq_ok.mpr ⟨_, hfound,
        bind_eq_ok.mpr ⟨_, hloop, rfl⟩⟩⟩⟩
    · dsimp only
      rw [hmap, FileMap.add_of_some hq]
    · rcases List.mem_cons.mp hf with rfl | hf
      · exact ⟨_, hkeep _ _ hself, hround.contents⟩
      · exact hentries f hf

end

theorem length_le_records (hvalid : ∀ file ∈ files, Valid file) : files.length ≤ (records files).length := by
  induction files with
  | nil => simp
  | cons file files ih =>
    have hle := ih fun f hf ↦ hvalid f (mem_cons_of_mem _ hf)
    grind [length_records_cons, initFileSize]

theorem map_of_initial (hinit : Initial tree) (hvalid : Valid file) : tree.fs.map (pathNames file.path) = none := by
  have h := inv_initial hinit
  rw [map_eq_none]
  by_contra hne
  obtain ⟨g, hg⟩ := Option.ne_none_iff_exists'.mp hne
  obtain ⟨fs, mem, fs', -, -, -, hused⟩ := hinit
  have hone := h.used hg
  have htwo := h.used h.forest.root_eq
  rw [hused, mem_singleton] at hone htwo
  have hnames : pathNames file.path = [] := h.forest.inj hg (by rw [hone, ← htwo]; exact h.forest.root_eq)
  have htail := cutPath_eq_nil.mp hnames
  have hclosed := hvalid.notDir
  rw [hvalid.absolute.eq_cons, htail] at hclosed
  exact hclosed rfl

end Load

/-! ### An example -/

def memoryOf (start : ℕ) (bytes : Str) (a : ℕ) : BitVec 8 := if start ≤ a then bytes.getD (a - start) 0 else 0

theorem reads_memoryOf {start : ℕ} {bytes : Str} (hroom : start + bytes.length ≤ addressSpace) :
    Paths.Reads (memoryOf start bytes) start bytes := by
  intro i byte hbyte
  have hi := (List.getElem?_eq_some_iff.mp hbyte).1
  rw [memoryOf, wordAdd_of_lt (by omega), if_pos (by omega), Nat.add_sub_cancel_left, getD_eq_getElem?_getD,
    hbyte]
  rfl

/-- `/a/b`, with one byte. -/
def exampleFile : ImageFile := ⟨FileState.examplePath, [7]⟩

/-- `/a/bb…b` with 32 characters, and one byte. -/
def longFile : ImageFile := ⟨slash :: 0x61#8 :: slash :: List.replicate 29 0x62#8, [7]⟩

/-- The image of one file at 262144, built in the directory `.`. -/
def exampleImage (file : ImageFile) : ℕ → BitVec 8 := memoryOf 262144 (fileimg List.length [0x2e#8] [file])

def exampleLoad : ℕ → LoadCall := fun _ ↦ ⟨FileState.exampleCut, FileState.exampleCut, exampleMems⟩

theorem exampleTree_initial : Initial exampleTree :=
  ⟨FileState.exampleMemory, ⟨.ok, 4096, 0⟩, _, rfl, by decide, rfl, rfl⟩

theorem valid_examples : Valid exampleFile ∧ Valid longFile :=
  ⟨⟨by decide, by decide, by decide⟩, ⟨by decide, by decide, by decide⟩⟩

theorem served_example {file : ImageFile}
    (h : FileState.exampleCut.Returns (recordName (exampleImage file) 262144) ∧
      Enough (pathNames (recordName (exampleImage file) 262144)).length exampleMems) :
    Served (exampleImage file) exampleLoad exampleTree.used 262144 [file] :=
  ⟨⟨h.1, h.1, by decide, h.2⟩, trivial⟩

end FileTree

end Lanthorn
