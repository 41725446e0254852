import Lanthorn.Usr.Path

/-!
# The files of the file service

Model of `fssrv/file.c`: files in memory, each with the red-black tree of its children by name, and the functions
`file_find`, `file_create`, `file_read` and `file_write`. A file is named by its address. The answers of `malloc`
are inputs: an error code, the address, and the word that the new memory holds where `ffile` will be, since
`file_new` does not set it.

`file_new` copies a name of any length into the 32 bytes of `name`. A name of 32 characters or more leaves no
terminator there and a longer one runs over the members behind it; from then on the members of the file are not
what the code takes them for, and the model stops with `Fault.unset`.

`Fs.Forest` is the invariant: the files are a tree of directories, in which every file has a place, a list of
names.
-/

namespace Lanthorn

open Function List

open Library Paths

/-- `enum TYPE` of `file.h`. -/
inductive FileType
  | entity
  | dir
  deriving DecidableEq, Repr

/-- The members of `struct file_t` but `state`, which nothing uses, and the node in the tree of the parent;
`subfile` is the root of the tree `subfile_rbt`. -/
structure File where
  type : FileType
  name : Str
  data : ℕ
  size : ℕ
  subfile : ℕ
  ffile : ℕ

/-- The answer of `malloc` for a file: the error code, the address, and what the memory holds at `ffile`. -/
structure Block where
  err : Errno
  addr : ℕ
  ffile : ℕ

/-- The memory of the files and of their nodes, and `root_file`. -/
structure Fs where
  file : ℕ → File
  tree : TreeMem
  root : ℕ

namespace Fs

/-- `FILE_MAX_NAME_LEN`. -/
def fileMaxNameLen : ℕ := 32

/-- The offset of `fa_rbt_node` in `struct file_t`. -/
def faRbtNode : ℕ := 52

/-- `sizeof(struct file_t)`. -/
def fileSize : ℕ := 72

/-! ### The trees of children -/

/-- `&file->subfile_rbt`. -/
def subRbt (fs : Fs) (file : ℕ) : Rbt := ⟨fs.tree, (fs.file file).subfile⟩

def nameAt (fs : Fs) (n : ℕ) : Str := (fs.file (containerOf n faRbtNode)).name

/-- The files after an operation on the tree of the children of `file`. -/
def setSub (fs : Fs) (file : ℕ) (t : Rbt) : Fs :=
  { fs with
    file := update fs.file file { fs.file file with subfile := t.root }
    tree := t.mem }

/-- `rbt_find` in the children of `file`: nothing for `E_NOTFOUND`. -/
def rbtFind (fs : Fs) (file : ℕ) (name : Str) : Result (Option ℕ) := do
  let n ← (fs.subRbt file).search fun n ↦ strcmp name (fs.nameAt n)
  return if n = 0 then none else some (containerOf n faRbtNode)

/-- `rbt_insert` of a file `sub` into the children of `file`. -/
def rbtInsert (fs : Fs) (file sub : ℕ) : Result (Errno × Fs) := do
  let t ← (fs.subRbt file).insertBy (fun n ↦ strcmp (fs.file sub).name (fs.nameAt n)) (wordAdd sub faRbtNode)
  match t with
  | none => return (.exist, fs)
  | some t => return (.ok, fs.setSub file t)

/-! ### The functions -/

/-- `file_new`. -/
def fileNew (fs : Fs) (mem : Block) (name : Str) (type : FileType) (addr size : ℕ) : Result (Errno × ℕ × Fs) := do
  if mem.err ≠ .ok then return (mem.err, 0, fs)
  if fileMaxNameLen ≤ name.length then throw .unset
  return (.ok, mem.addr, { fs with file := update fs.file mem.addr ⟨type, name, addr, size, 0, mem.ffile⟩ })

/-- The loop of `file_find` over the components, from a file on. -/
def findLoop (fs : Fs) (file : ℕ) : List Str → Result (Errno × ℕ)
  | [] => return (.ok, file)
  | c :: rest => do
    match ← fs.rbtFind file c with
    | none => return (.notfound, 0)
    | some file => fs.findLoop file rest

/-- `file_find`: the error code and the file. -/
def fileFind (fs : Fs) (cut : Cut) (name : Str) : Result (Errno × ℕ) := do
  if name.head? ≠ some slash then return (.inval, 0)
  let comps ← components cut name
  fs.findLoop fs.root comps

/-- The next answer of `malloc`; where there is none, there is no memory. -/
def nextBlock (mems : List Block) : Block := mems.headD ⟨.nomem, 0, 0⟩

/-- The loop of `file_create` over the components, from a file on. -/
def createLoop (type : FileType) (addr size : ℕ) : List Str → Fs → ℕ → List Block → Result (Errno × Fs)
  | [], fs, _, _ => return (.ok, fs)
  | c :: rest, fs, file, mems => do
    match ← fs.rbtFind file c with
    | some file => createLoop type addr size rest fs file mems
    | none =>
      let (err, tmpfile, fs) ←
        if rest ≠ [] then fs.fileNew (nextBlock mems) c .dir 0 0
        else fs.fileNew (nextBlock mems) c type addr size
      if err ≠ .ok then return (err, fs)
      let (err, fs) ← fs.rbtInsert file tmpfile
      assert (err = .ok)
      let found ← fs.rbtFind file c
      assert (found ≠ none)
      assert (found = some tmpfile)
      createLoop type addr size rest fs tmpfile mems.tail

/-- The type that `file_create` gives to the file of a path. -/
def pathType (name : Str) : FileType := if Closed name then .dir else .entity

/-- `file_create`. -/
def fileCreate (fs : Fs) (cut : Cut) (mems : List Block) (name : Str) (addr size : ℕ) : Result (Errno × Fs) := do
  if name.head? ≠ some slash then return (.inval, fs)
  let comps ← components cut name
  createLoop (pathType name) addr size comps fs fs.root mems

/-- `file_read`: the error code, the address and the size. -/
def fileRead (fs : Fs) (cut : Cut) (name : Str) : Result (Errno × ℕ × ℕ) := do
  let (err, file) ← fs.fileFind cut name
  if err ≠ .ok then return (err, 0, 0)
  return (err, (fs.file file).data, (fs.file file).size)

/-- `file_write`. -/
def fileWrite (fs : Fs) (cut : Cut) (name : Str) (addr size : ℕ) : Result (Errno × Fs) := do
  let (err, file) ← fs.fileFind cut name
  if err ≠ .ok then return (err, fs)
  return (err, { fs with
    file := update fs.file file { fs.file file with data := addr, size := size } })

/-! ### The invariant -/

def Apart (a b : ℕ) : Prop := a + fileSize ≤ b ∨ b + fileSize ≤ a

instance (a b : ℕ) : Decidable (Apart a b) := inferInstanceAs (Decidable (_ ∨ _))

instance : Std.Symm Apart := ⟨fun _ _ ↦ Or.symm⟩

/-- The files that have a place are a tree: `root_file` is at the empty list of names, and the tree of the
children of a file has the files at one name more, under their names. -/
structure Forest (fs : Fs) (place : List Str → Option ℕ) : Prop where
  root_eq : place [] = some fs.root
  inj : ∀ {p q f}, place p = some f → place q = some f → p = q
  parent : ∀ {p c f}, place (p ++ [c]) = some f → ∃ d, place p = some d
  sub : ∀ {p d}, place p = some d → ∃ xs, Rbt.Named fs.nameAt (fs.subRbt d) xs ∧
    ∀ n, n ∈ xs ↔ ∃ c f, place (p ++ [c]) = some f ∧ n = f + faRbtNode
  name_eq : ∀ {p c f}, place (p ++ [c]) = some f → (fs.file f).name = c
  room : ∀ {p f}, place p = some f → f ≠ 0 ∧ f + fileSize ≤ addressSpace

structure Vacant (place : List Str → Option ℕ) (f : ℕ) : Prop where
  ne_zero : f ≠ 0
  room : f + fileSize ≤ addressSpace
  apart : ∀ q g, place q = some g → Apart f g

namespace Forest

variable {fs : Fs} {place : List Str → Option ℕ} {p q comps : List Str} {c : Str} {d f g : ℕ}

theorem containerOf_node (hroom : f + fileSize ≤ addressSpace) : containerOf (f + faRbtNode) faRbtNode = f :=
  containerOf_add (by simp only [faRbtNode, fileSize] at *; omega)

theorem nameAt_node (hroom : f + fileSize ≤ addressSpace) : fs.nameAt (f + faRbtNode) = (fs.file f).name := by
  rw [nameAt, containerOf_node hroom]

theorem ancestor (h : fs.Forest place) (hf : place (p ++ q) = some f) : ∃ d, place p = some d := by
  induction q using List.reverseRecOn generalizing f with
  | nil => exact ⟨f, by simpa using hf⟩
  | append_singleton q c ih =>
    rw [← append_assoc] at hf
    obtain ⟨d, hd⟩ := h.parent hf
    exact ih hd

theorem none_below (h : fs.Forest place) (hp : place p = none) (q : List Str) : place (p ++ q) = none := by
  by_contra hne
  obtain ⟨f, hf⟩ := Option.ne_none_iff_exists'.mp hne
  obtain ⟨d, hd⟩ := h.ancestor hf
  simp [hp] at hd

theorem rbtFind (h : fs.Forest place) (hd : place p = some d) (c : Str) :
    fs.rbtFind d c = .ok (place (p ++ [c])) := by
  obtain ⟨xs, hnamed, hxs⟩ := h.sub hd
  cases hf : place (p ++ [c]) with
  | some f =>
    obtain ⟨hne, hroom⟩ := h.room hf
    have hmem : f + faRbtNode ∈ xs := (hxs _).mpr ⟨c, f, hf, rfl⟩
    have hname : fs.nameAt (f + faRbtNode) = c := by rw [nameAt_node hroom, h.name_eq hf]
    have hsearch := Rbt.Named.search hnamed hmem hname
    simp [Fs.rbtFind, hsearch, hne, containerOf_node hroom]
  | none =>
    have hnone : ∀ n ∈ xs, fs.nameAt n ≠ c := by grind [nameAt_node, h.room, h.name_eq]
    have hsearch := Rbt.Named.search_none hnamed hnone
    simp [Fs.rbtFind, hsearch]

theorem findLoop (h : fs.Forest place) (hd : place p = some d) (comps : List Str) :
    fs.findLoop d comps = .ok (match place (p ++ comps) with
      | some f => (.ok, f)
      | none => (.notfound, 0)) := by
  induction comps generalizing p d with
  | nil => simp [Fs.findLoop, hd]
  | cons c rest ih =>
    rw [Fs.findLoop, h.rbtFind hd c]
    cases hf : place (p ++ [c]) with
    | some f =>
      have hrest := ih hf
      rw [append_assoc] at hrest
      exact hrest
    | none =>
      have hbelow := h.none_below hf rest
      rw [append_assoc, singleton_append] at hbelow
      rw [hbelow]
      rfl

/-! ### New files -/

theorem ne_of_vacant (hf : Vacant place f) (hg : place q = some g) : g ≠ f := by
  rintro rfl
  have hapart := hf.apart q g hg
  simp only [Apart, fileSize] at hapart
  omega

theorem subRbt_frame {fs' : Fs} {xs : List ℕ} (hnamed : Rbt.Named fs.nameAt (fs.subRbt d) xs)
    (hname : ∀ n ∈ xs, fs'.nameAt n = fs.nameAt n) (hsub : (fs'.file d).subfile = (fs.file d).subfile)
    (htree : ∀ n ∈ xs, fs.tree.AgreeAt fs'.tree n) : Rbt.Named fs'.nameAt (fs'.subRbt d) xs := by
  rw [subRbt, hsub]
  exact hnamed.congr htree fun n hn ↦ congrArg Str.key (hname n hn)

theorem frame (h : fs.Forest place) {fs' : Fs} (hroot : fs'.root = fs.root)
    (hname : ∀ {q g}, place q = some g → (fs'.file g).name = (fs.file g).name)
    (hsub : ∀ {q g}, place q = some g → (fs'.file g).subfile = (fs.file g).subfile)
    (htree : ∀ {q g}, place q = some g → fs.tree.AgreeAt fs'.tree (g + faRbtNode)) : fs'.Forest place := by
  refine ⟨hroot ▸ h.root_eq, h.inj, h.parent, fun {p d} hd ↦ ?_, fun hg ↦ ?_, h.room⟩
  all_goals grind [h.sub, subRbt_frame, nameAt_node, h.room, h.name_eq]

theorem write_vacant (h : fs.Forest place) (hf : Vacant place f) (new : File) :
    Forest { fs with file := update fs.file f new } place := by
  have hfile : ∀ {q g}, place q = some g → update fs.file f new g = fs.file g :=
    fun hg ↦ update_of_ne (ne_of_vacant hf hg) _ _
  exact h.frame rfl (fun hg ↦ congrArg File.name (hfile hg)) (fun hg ↦ congrArg File.subfile (hfile hg))
    fun _ ↦ .refl _ _

theorem file_setSub_self (t : Rbt) : (fs.setSub d t).file d = { fs.file d with subfile := t.root } :=
  update_self ..

theorem file_setSub_of_ne (t : Rbt) (hg : g ≠ d) : (fs.setSub d t).file g = fs.file g :=
  update_of_ne hg ..

theorem name_setSub (t : Rbt) (g : ℕ) : ((fs.setSub d t).file g).name = (fs.file g).name := by
  by_cases hg : g = d
  · rw [hg, file_setSub_self]
  · rw [file_setSub_of_ne t hg]

theorem nameAt_setSub (t : Rbt) : (fs.setSub d t).nameAt = fs.nameAt := by
  funext n
  rw [nameAt, nameAt, name_setSub]

theorem subRbt_setSub_self (t : Rbt) : (fs.setSub d t).subRbt d = t := by
  rw [subRbt, file_setSub_self]
  rfl

theorem node_ne (h : fs.Forest place) {c' : Str} (hpq : p ≠ q) (hf : place (p ++ [c]) = some f)
    (hg : place (q ++ [c']) = some g) : f + faRbtNode ≠ g + faRbtNode := by
  intro heq
  obtain rfl : f = g := by omega
  exact hpq (append_inj' (h.inj hf hg) rfl).1

theorem rbtInsert (h : fs.Forest place) (hd : place p = some d) (hnone : place (p ++ [c]) = none)
    (hf : Vacant place f) (hname : (fs.file f).name = c) (hsub : (fs.file f).subfile = 0) :
    ∃ t, fs.rbtInsert d f = .ok (.ok, fs.setSub d t) ∧
      Forest (fs.setSub d t) (update place (p ++ [c]) (some f)) := by
  obtain ⟨xs, hnamed, hxs⟩ := h.sub hd
  have hroom := hf.room
  have hword : f + faRbtNode < addressSpace := by
    simp only [faRbtNode, fileSize] at hroom ⊢
    omega
  have hfresh : ∀ {q g}, place q = some g → f + faRbtNode ≠ g + faRbtNode :=
    fun hg heq ↦ ne_of_vacant hf hg (by omega)
  have hnotmem : f + faRbtNode ∉ xs := by
    intro hmem
    obtain ⟨c', g, hg, heq⟩ := (hxs _).mp hmem
    exact hfresh hg heq
  have hothers : ∀ n ∈ xs, fs.nameAt n ≠ c := by
    rintro n hn heq
    grind [nameAt_node, h.room, h.name_eq]
  obtain ⟨t, ys, zs, hrun, hsplit, hnamed', hframes⟩ := Rbt.Named.insertBy hnamed (x := f + faRbtNode)
    (by simp [faRbtNode]) hword hnotmem (by rw [nameAt_node hroom, hname]) hothers
  have hmem : ∀ n, n ∈ ys ++ (f + faRbtNode) :: zs ↔ n = f + faRbtNode ∨ n ∈ xs := by
    intro n
    rw [hsplit]
    simp only [mem_append, mem_cons]
    tauto
  have hne : ∀ {q c'}, q ≠ p → q ++ [c'] ≠ p ++ [c] := fun hq heq ↦ hq (append_inj' heq rfl).1
  refine ⟨t, ?_, ?_⟩
  · simp [Fs.rbtInsert, hname, wordAdd_of_lt hword, hrun]
  refine ⟨?_, ?_, ?_, ?_, ?_, ?_⟩
  · rw [update_of_ne (by simp)]
    exact h.root_eq
  · intro q q' g hq hq'
    by_cases heq : q = p ++ [c] <;> by_cases heq' : q' = p ++ [c]
    · rw [heq, heq']
    · rw [heq, update_self] at hq
      rw [update_of_ne heq'] at hq'
      exact absurd (Option.some_inj.mp hq).symm (ne_of_vacant hf hq')
    · rw [heq', update_self] at hq'
      rw [update_of_ne heq] at hq
      exact absurd (Option.some_inj.mp hq').symm (ne_of_vacant hf hq)
    · rw [update_of_ne heq] at hq
      rw [update_of_ne heq'] at hq'
      exact h.inj hq hq'
  · grind [h.parent]
  · intro q g hg
    by_cases hq : q = p ++ [c]
    · -- The new file has no children.
      subst hq
      obtain rfl : f = g := by simpa using hg
      have hempty : (fs.setSub d t).subRbt f = ⟨t.mem, 0⟩ := by
        rw [subRbt, file_setSub_of_ne t (ne_of_vacant hf hd).symm, hsub]
        rfl
      refine ⟨[], hempty ▸ Rbt.Keyed.empty _ _, fun n ↦ iff_of_false not_mem_nil ?_⟩
      rintro ⟨c', g, hg', -⟩
      rw [update_of_ne (by simp), h.none_below hnone [c']] at hg'
      simp at hg'
    rw [update_of_ne hq] at hg
    by_cases hqp : q = p
    · -- The directory of the new file has one child more.
      subst hqp
      obtain rfl : d = g := by simpa [hd] using hg
      refine ⟨ys ++ (f + faRbtNode) :: zs, ?_, fun n ↦ ?_⟩
      · rw [nameAt_setSub, subRbt_setSub_self]
        exact hnamed'
      grind
    · -- The children of the other directories are apart from what the insertion has written.
      obtain ⟨xs', hnamed'', hxs'⟩ := h.sub hg
      refine ⟨xs', subRbt_frame hnamed'' (fun n _ ↦ by rw [nameAt_setSub]) ?_ fun n hn ↦ hframes n ?_,
        fun n ↦ ?_⟩
      · rw [file_setSub_of_ne t]
        rintro rfl
        exact hqp (h.inj hg hd)
      · obtain ⟨c', g', hg', rfl⟩ := (hxs' n).mp hn
        rw [mem_cons, not_or]
        refine ⟨(hfresh hg').symm, fun hmem' ↦ ?_⟩
        obtain ⟨c'', g'', hg'', heq⟩ := (hxs _).mp hmem'
        exact h.node_ne hqp hg' hg'' heq
      · rw [hxs']
        refine exists_congr fun c' ↦ exists_congr fun g' ↦ ?_
        rw [update_of_ne (hne hqp)]
  · intro q c' g hg
    rw [name_setSub]
    by_cases heq : q ++ [c'] = p ++ [c]
    · rw [heq, update_self] at hg
      obtain ⟨-, hc⟩ := append_inj' heq rfl
      rw [← Option.some_inj.mp hg, hname]
      simpa using hc.symm
    · rw [update_of_ne heq] at hg
      exact h.name_eq hg
  · intro q g hg
    by_cases heq : q = p ++ [c]
    · grind [hf.ne_zero]
    · rw [update_of_ne heq] at hg
      exact h.room hg

end Forest

/-! ### The rounds of `file_create` -/

structure Entry where
  type : FileType
  data : ℕ
  size : ℕ
  deriving DecidableEq

def entry (fs : Fs) (f : ℕ) : Entry := ⟨(fs.file f).type, (fs.file f).data, (fs.file f).size⟩

/-- The files after a new one has got a place; `ffile` is what its memory held. -/
structure Added (fs : Fs) (place : List Str → Option ℕ) (p : List Str) (f : ℕ) (e : Entry) (ffile : ℕ)
    (fs' : Fs) : Prop where
  forest : fs'.Forest (update place p (some f))
  entry_self : fs'.entry f = e
  ffile_self : (fs'.file f).ffile = ffile
  entry_of : ∀ {q g}, place q = some g → fs'.entry g = fs.entry g
  ffile_of : ∀ {q g}, place q = some g → (fs'.file g).ffile = (fs.file g).ffile
  name_of : ∀ {q g}, place q = some g → (fs'.file g).name = (fs.file g).name

/-- What `file_create` makes of a component, which is the last one or not. -/
def newEntry (e : Entry) (rest : List Str) : Entry := if rest ≠ [] then ⟨.dir, 0, 0⟩ else e

/-- The answers of `malloc` for one call: the blocks are vacant and apart from each other. -/
structure Fresh (place : List Str → Option ℕ) (mems : List Block) : Prop where
  vacant : ∀ b ∈ mems, b.err = .ok → Vacant place b.addr
  apart : mems.Pairwise fun b b' ↦ b.err = .ok → b'.err = .ok → Apart b.addr b'.addr

theorem nextBlock_mem {mems : List Block} (hok : (nextBlock mems).err = .ok) :
    mems = nextBlock mems :: mems.tail := by
  cases mems with
  | nil => simp [nextBlock] at hok
  | cons b mems => rfl

theorem Fresh.tail {place : List Str → Option ℕ} {mems : List Block} (h : Fresh place mems)
    (hok : (nextBlock mems).err = .ok) (p : List Str) :
    Fresh (update place p (some (nextBlock mems).addr)) mems.tail := by
  obtain ⟨hvacant, hapart⟩ := h
  rw [nextBlock_mem hok] at hvacant hapart
  rw [pairwise_cons] at hapart
  refine ⟨fun b hb hbok ↦ ?_, hapart.2⟩
  obtain ⟨hne, hroom, hothers⟩ := hvacant b (mem_cons_of_mem _ hb) hbok
  refine ⟨hne, hroom, fun q g hg ↦ ?_⟩
  by_cases hq : q = p
  · rw [hq, update_self] at hg
    obtain rfl := Option.some_inj.mp hg
    exact (hapart.1 b hb hok hbok).symm
  · rw [update_of_ne hq] at hg
    exact hothers q g hg

namespace Forest

variable {fs : Fs} {place : List Str → Option ℕ} {p rest : List Str} {c : Str} {d f : ℕ} {type : FileType}
  {addr size : ℕ} {mems : List Block}

theorem entry_setSub (t : Rbt) (g : ℕ) : (fs.setSub d t).entry g = fs.entry g := by
  grind [entry, file_setSub_self, file_setSub_of_ne]

theorem ffile_setSub (t : Rbt) (g : ℕ) : ((fs.setSub d t).file g).ffile = (fs.file g).ffile := by
  by_cases hg : g = d
  · rw [hg, file_setSub_self]
  · rw [file_setSub_of_ne t hg]

/-- The call of `file_new` in a round. -/
def roundNew (fs : Fs) (mem : Block) (c : Str) (rest : List Str) (e : Entry) : Result (Errno × ℕ × Fs) :=
  fs.fileNew mem c (newEntry e rest).type (newEntry e rest).data (newEntry e rest).size

theorem createLoop_cons : createLoop type addr size (c :: rest) fs d mems = (do
    match ← fs.rbtFind d c with
    | some file => createLoop type addr size rest fs file mems
    | none =>
      let (err, tmpfile, fs) ← roundNew fs (nextBlock mems) c rest ⟨type, addr, size⟩
      if err ≠ .ok then return (err, fs)
      let (err, fs) ← fs.rbtInsert d tmpfile
      assert (err = .ok)
      let found ← fs.rbtFind d c
      assert (found ≠ none)
      assert (found = some tmpfile)
      createLoop type addr size rest fs tmpfile mems.tail) := by grind [createLoop, roundNew, newEntry]

section

variable (h : fs.Forest place) (hd : place p = some d)
include h hd

theorem createLoop_exist (hf : place (p ++ [c]) = some f) :
    createLoop type addr size (c :: rest) fs d mems = createLoop type addr size rest fs f mems := by
  rw [createLoop_cons, h.rbtFind hd c, hf]
  rfl

theorem createLoop_nomem (hnone : place (p ++ [c]) = none) (hmem : (nextBlock mems).err ≠ .ok) :
    createLoop type addr size (c :: rest) fs d mems = .ok ((nextBlock mems).err, fs) := by
  rw [createLoop_cons, h.rbtFind hd c, hnone]
  simp [roundNew, fileNew, hmem]

theorem createLoop_long (hnone : place (p ++ [c]) = none) (hmem : (nextBlock mems).err = .ok)
    (hlong : fileMaxNameLen ≤ c.length) :
    createLoop type addr size (c :: rest) fs d mems = .error .unset := by
  rw [createLoop_cons, h.rbtFind hd c, hnone]
  simp [roundNew, fileNew, hmem, hlong, throw, throwThe, MonadExceptOf.throw]

end

theorem createLoop_new (type : FileType) (addr size : ℕ) (rest : List Str) (h : fs.Forest place)
    (hd : place p = some d) (hnone : place (p ++ [c]) = none)
    (hmem : (nextBlock mems).err = .ok) (hvacant : Vacant place (nextBlock mems).addr)
    (hshort : c.length < fileMaxNameLen) :
    ∃ fs', Added fs place (p ++ [c]) (nextBlock mems).addr (newEntry ⟨type, addr, size⟩ rest)
        (nextBlock mems).ffile fs' ∧
      createLoop type addr size (c :: rest) fs d mems =
        createLoop type addr size rest fs' (nextBlock mems).addr mems.tail := by
  obtain ⟨f, hfeq⟩ : ∃ f, (nextBlock mems).addr = f := ⟨_, rfl⟩
  rw [hfeq] at hvacant ⊢
  let e := newEntry ⟨type, addr, size⟩ rest
  let fs₁ : Fs := { fs with
    file := update fs.file f ⟨e.type, c, e.data, e.size, 0, (nextBlock mems).ffile⟩ }
  have h₁ : fs₁.Forest place := h.write_vacant hvacant _
  have hself : fs₁.file f = ⟨e.type, c, e.data, e.size, 0, (nextBlock mems).ffile⟩ := update_self ..
  have hother : ∀ {q g}, place q = some g → fs₁.file g = fs.file g :=
    fun hg ↦ update_of_ne (ne_of_vacant hvacant hg) ..
  have hnew : roundNew fs (nextBlock mems) c rest ⟨type, addr, size⟩ = .ok (.ok, f, fs₁) := by
    simp [roundNew, fileNew, hmem, hshort.not_ge, hfeq, fs₁, e]
  obtain ⟨t, hinsert, h₂⟩ := h₁.rbtInsert hd hnone hvacant (by rw [hself]) (by rw [hself])
  have hd₂ : update place (p ++ [c]) (some f) p = some d := by rw [update_of_ne (by simp), hd]
  have hfind := h₂.rbtFind hd₂ c
  rw [update_self] at hfind
  refine ⟨fs₁.setSub d t, ⟨h₂, ?_, ?_, fun hg ↦ ?_, fun hg ↦ ?_, fun hg ↦ ?_⟩, ?_⟩
  · rw [entry_setSub, entry, hself]
  · rw [ffile_setSub, hself]
  · rw [entry_setSub, entry, hother hg, entry]
  · rw [ffile_setSub, hother hg]
  · rw [name_setSub, hother hg]
  · rw [createLoop_cons, h.rbtFind hd c, hnone]
    simp only [hnew, hinsert, hfind, ne_eq, not_true_eq_false, if_false, assert_of_true trivial,
      reduceCtorEq, not_false_eq_true, ok_bind]

end Forest

end Fs

end Lanthorn
