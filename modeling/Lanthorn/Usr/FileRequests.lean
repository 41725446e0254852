import Lanthorn.Usr.FileTree

/-!
# Concurrent creations of files

The file service handles every request in a thread of its own, without a lock. Here any number of `fssrv/create`
requests run `file_create` at the same time; a step is one call of `rbt_find`, `file_new` or `rbt_insert`, with the
assertions behind it. `Request.alone_eq` says that a request without company does what `file_create` does.

Two requests that both miss a name in a directory both make a file for it, and the assertion behind the second
`rbt_insert` fails (`FileRequests.insert_collides`). `FileRequests.requests_serial` says that nothing else goes wrong:
if no request looks for a name while another is about to insert it there, then no assertion fails, every request
returns `E_OK`, and in the end the files are those that the requests make one after the other, in any order. Assumes,
for every request: the path is absolute and fits, `path_cut` returns its buffer, and there is memory.
-/

namespace Lanthorn

open Function List

open Library Paths

/-- Where a thread is in the loop of `file_create`: before the first `rbt_find`, `file_new`, `rbt_insert` or the
second `rbt_find` of a round, or at the end. -/
inductive CreatePoint
  | find
  | new
  | insert (tmpfile : ℕ)
  | check (tmpfile : ℕ)
  | done (err : Errno)
  deriving DecidableEq

/-- Between a `rbt_find` that has failed and the end of `rbt_insert`. -/
def CreatePoint.pending : CreatePoint → Bool
  | .new => true
  | .insert _ => true
  | _ => false

def CreatePoint.returned : CreatePoint → Bool
  | .done _ => true
  | _ => false

/-- The thread of a request: the components that it still has to go through, and the file that it is at. -/
structure Request where
  path : Str
  comps : List Str
  file : ℕ
  point : CreatePoint

namespace Request

open Fs

def advance (r : Request) (rest : List Str) (file : ℕ) : Request :=
  { r with comps := rest, file := file, point := if rest = [] then .done .ok else .find }

/-- A step of `file_create(path, NULL, NULL)`, for the answer of `malloc` in `file_new`. -/
def step (r : Request) (fs : Fs) (mem : Block) : Result (Request × Fs) :=
  match r.comps, r.point with
  | c :: rest, .find => do
    match ← fs.rbtFind r.file c with
    | some file => return (r.advance rest file, fs)
    | none => return ({ r with point := .new }, fs)
  | c :: rest, .new => do
    let (err, tmpfile, fs) ←
      if rest ≠ [] then fs.fileNew mem c .dir 0 0
      else fs.fileNew mem c (pathType r.path) 0 0
    if err ≠ .ok then return ({ r with point := .done err }, fs)
    return ({ r with point := .insert tmpfile }, fs)
  | _ :: _, .insert tmpfile => do
    let (err, fs) ← fs.rbtInsert r.file tmpfile
    assert (err = .ok)
    return ({ r with point := .check tmpfile }, fs)
  | c :: rest, .check tmpfile => do
    let found ← fs.rbtFind r.file c
    assert (found ≠ none)
    assert (found = some tmpfile)
    return (r.advance rest tmpfile, fs)
  | _, _ => return (r, fs)

def alone : ℕ → Request → Fs → List Block → Result (Errno × Fs)
  | 0, _, _, _ => throw .endless
  | fuel + 1, r, fs, mems =>
    match r.point with
    | .done err => return (err, fs)
    | .new => do
      let (r, fs) ← r.step fs (nextBlock mems)
      alone fuel r fs mems.tail
    | _ => do
      let (r, fs) ← r.step fs (nextBlock mems)
      alone fuel r fs mems

section Steps

variable {path c : Str} {rest : List Str} {file tmpfile fuel : ℕ} {fs : Fs} {mem : Block} {mems : List Block}

theorem step_find : step ⟨path, c :: rest, file, .find⟩ fs mem = (do
    match ← fs.rbtFind file c with
    | some file' => return (advance ⟨path, c :: rest, file, .find⟩ rest file', fs)
    | none => return (⟨path, c :: rest, file, .new⟩, fs)) := rfl

theorem step_new : step ⟨path, c :: rest, file, .new⟩ fs mem = (do
    let (err, tmpfile, fs) ← Forest.roundNew fs mem c rest ⟨pathType path, 0, 0⟩
    if err ≠ .ok then return (⟨path, c :: rest, file, .done err⟩, fs)
    return (⟨path, c :: rest, file, .insert tmpfile⟩, fs)) := by grind [step, Forest.roundNew, newEntry]

theorem step_insert : step ⟨path, c :: rest, file, .insert tmpfile⟩ fs mem = (do
    let (err, fs) ← fs.rbtInsert file tmpfile
    assert (err = .ok)
    return (⟨path, c :: rest, file, .check tmpfile⟩, fs)) := rfl

theorem step_check : step ⟨path, c :: rest, file, .check tmpfile⟩ fs mem = (do
    let found ← fs.rbtFind file c
    assert (found ≠ none)
    assert (found = some tmpfile)
    return (advance ⟨path, c :: rest, file, .check tmpfile⟩ rest tmpfile, fs)) := rfl

/-- Without company a request does what `file_create` does. -/
theorem alone_eq (path : Str) (comps : List Str) (file : ℕ) (fs : Fs) (mems : List Block)
    (hfuel : 4 * comps.length < fuel) : alone fuel (advance ⟨path, [], 0, .find⟩ comps file) fs mems =
      createLoop (pathType path) 0 0 comps fs file mems := by
  induction comps generalizing file fs mems fuel with
  | nil =>
    obtain ⟨fuel, rfl⟩ := exists_succ hfuel
    rfl
  | cons c rest ih =>
    rw [length_cons] at hfuel
    obtain ⟨fuel, rfl⟩ : ∃ k, fuel = k + 1 + 1 + 1 + 1 := ⟨fuel - 4, by omega⟩
    have hstart : advance ⟨path, [], 0, .find⟩ (c :: rest) file = ⟨path, c :: rest, file, .find⟩ := rfl
    rw [Forest.createLoop_cons, hstart, alone, step_find]
    rcases fs.rbtFind file c with fault | (_ | f)
    · rfl
    swap
    · exact ih f fs mems (by omega)
    -- The name is missing: three more steps.
    change alone (fuel + 1 + 1 + 1) ⟨path, c :: rest, file, .new⟩ fs mems = _
    rw [alone, step_new]
    simp only [bind, Except.bind, pure, Except.pure]
    rcases Forest.roundNew fs (nextBlock mems) c rest ⟨pathType path, 0, 0⟩ with fault | ⟨err, tmpfile, fs₁⟩
    · rfl
    by_cases herr : err = .ok
    swap
    · simp only [ne_eq, herr, not_false_eq_true, if_true]
      rfl
    simp only [ne_eq, herr, not_true_eq_false, if_false]
    rw [alone, step_insert]
    simp only [bind, Except.bind, pure, Except.pure]
    rcases fs₁.rbtInsert file tmpfile with fault | ⟨err', fs₂⟩
    · rfl
    by_cases herr' : err' = .ok
    swap
    · simp only [assert, herr', if_false]
    simp only [herr', assert_of_true trivial]
    rw [alone, step_check]
    simp only [bind, Except.bind, pure, Except.pure]
    rcases fs₂.rbtFind file c with fault | found
    · rfl
    by_cases hfound : found = some tmpfile
    swap
    · cases found <;> simp [assert, hfound]
    simp only [hfound, ne_eq, reduceCtorEq, not_false_eq_true, assert_of_true trivial]
    exact ih tmpfile fs₂ mems.tail (by omega)

end Steps

/-- A request for `/a`. -/
theorem alone_eq_example :
    alone 5 (advance ⟨[slash, 0x61#8], [], 0, .find⟩ [[0x61#8]] 0) FileState.exampleMemory [] =
    createLoop (pathType [slash, 0x61#8]) 0 0 [[0x61#8]] FileState.exampleMemory 0 [] :=
  alone_eq _ _ 0 _ [] (by decide)

def Pending (r : Request) (file : ℕ) (c : Str) : Prop :=
  r.file = file ∧ r.comps.head? = some c ∧ r.point.pending

instance (r : Request) (file : ℕ) (c : Str) : Decidable (r.Pending file c) := inferInstanceAs (Decidable (_ ∧ _))

def Returned (r : Request) : Prop := r.point.returned

instance (r : Request) : Decidable r.Returned := inferInstanceAs (Decidable (_ = true))

def work (r : Request) : ℕ :=
  match r.point with
  | .find => 4 * r.comps.length
  | .new => 4 * r.comps.length - 1
  | .insert _ => 4 * r.comps.length - 2
  | .check _ => 4 * r.comps.length - 3
  | .done _ => 0

end Request

/-! ### The system -/

/-- The files with the threads that handle requests; `start` is what the files were before the first one. -/
structure FileRequests where
  fs : Fs
  used : List ℕ
  reqs : List Request
  start : FileTree

/-- A request arrives, with the circumstances of `path_cut`, or a thread takes a step, with an answer of `malloc`. -/
inductive RequestStep
  | arrive (path : Str) (cut : Cut)
  | run (i : ℕ) (mem : Block)

namespace FileRequests

open Fs

def next (st : FileRequests) : RequestStep → Result FileRequests
  | .arrive path cut => do
    if path.head? ≠ some slash then return { st with reqs := st.reqs ++ [⟨path, [], st.fs.root, .done .inval⟩] }
    let comps ← components cut path
    return { st with reqs := st.reqs ++ [Request.advance ⟨path, [], 0, .find⟩ comps st.fs.root] }
  | .run i mem =>
    match st.reqs[i]? with
    | none => return st
    | some r => do
      let (r', fs) ← r.step st.fs mem
      return { st with
        fs := fs
        reqs := st.reqs.set i r'
        used := if r.point = .new then st.used ++ taken [mem] else st.used }

def Initial (st : FileRequests) : Prop :=
  FileTree.system.Run FileTree.Allowed st.start ∧ st.fs = st.start.fs ∧ st.used = st.start.used ∧ st.reqs = []

def system : System FileRequests RequestStep := System.ofNext Initial next

/-- Requests are for absolute paths that fit, `path_cut` returns its buffer, and there is memory. -/
def Possible (st : FileRequests) : RequestStep → Prop
  | .arrive path cut => Absolute path ∧ cut.Returns path ∧ Fits path
  | .run i mem => ∃ r ∈ st.reqs[i]?, ¬ r.Returned ∧ (r.point = .new → mem.err = .ok ∧ Available st.used [mem])

/-- No thread looks for a name while another has missed it in the same directory and is about to insert it. -/
def Separate (st : FileRequests) : RequestStep → Prop
  | .arrive _ _ => True
  | .run i _ => ∀ r ∈ st.reqs[i]?, r.point = .find → ∀ c ∈ r.comps.head?,
    ∀ r' ∈ st.reqs.eraseIdx i, ¬ r'.Pending r.file c

instance (st : FileRequests) (a : RequestStep) : Decidable (st.Possible a) := match a with
  | .arrive _ _ => inferInstanceAs (Decidable (_ ∧ _))
  | .run i _ => inferInstanceAs (Decidable (∃ r ∈ st.reqs[i]?, _))

instance (st : FileRequests) (a : RequestStep) : Decidable (st.Separate a) := match a with
  | .arrive _ _ => inferInstanceAs (Decidable True)
  | .run i _ => inferInstanceAs (Decidable (∀ r ∈ st.reqs[i]?, _))

def Clean (st : FileRequests) (a : RequestStep) : Prop := st.Possible a ∧ st.Separate a

instance (st : FileRequests) (a : RequestStep) : Decidable (st.Clean a) := inferInstanceAs (Decidable (_ ∧ _))

/-! ### One request after the other -/

/-- A call of `file_create` with its circumstances. -/
structure CreateCall where
  path : Str
  cut : Cut
  mems : List Block

def createSeq : List CreateCall → FileTree → Result (List Errno × FileTree)
  | [], tree => return ([], tree)
  | call :: calls, tree => do
    let (err, fs) ← tree.fs.fileCreate call.cut call.mems call.path 0 0
    let (errs, tree) ← createSeq calls ⟨fs, tree.used ++ taken call.mems⟩
    return (err :: errs, tree)

/-- `path_cut` returns its buffer, and there is memory for every name. -/
def SeqServed : List ℕ → List CreateCall → Prop
  | _, [] => True
  | used, call :: calls => (call.cut.Returns call.path ∧ Available used call.mems ∧
      Enough (pathNames call.path).length call.mems) ∧ SeqServed (used ++ taken call.mems) calls

/-- What the service is for: every step that may be taken succeeds and brings its request nearer to the end; while a
request has not returned, some step may be taken, given memory; the answers are `E_OK`; and when all have returned,
the files are what the requests make one after the other in any order. -/
structure Right (st : FileRequests) : Prop where
  steps : ∀ i mem, st.Clean (.run i mem) →
    ∃ st', st.next (.run i mem) = .ok st' ∧ (st'.reqs.map Request.work).sum < (st.reqs.map Request.work).sum
  progress : (∃ r ∈ st.reqs, ¬ r.Returned) → ∀ mem : Block, mem.err = .ok → Available st.used [mem] →
    ∃ i, st.Clean (.run i mem)
  answers : ∀ r ∈ st.reqs, ∀ err, r.point = .done err → err = .ok
  serial : (∀ r ∈ st.reqs, r.Returned) → ∀ calls : List CreateCall,
    (calls.map CreateCall.path).Perm (st.reqs.map Request.path) → SeqServed st.start.used calls →
    ∃ tree, createSeq calls st.start = .ok (List.replicate calls.length .ok, tree) ∧ tree.fs.map = st.fs.map

/-! ### The entries -/

/-- The entry that `file_create(path, NULL, NULL)` makes at a list of names. -/
def nameEntry (q : List Str) : Entry := ⟨if ∀ c ∈ q.getLast?, Closed c then .dir else .entity, 0, 0⟩

theorem nameEntry_append (q : List Str) (c : Str) :
    nameEntry (q ++ [c]) = ⟨if Closed c then .dir else .entity, 0, 0⟩ := by simp [nameEntry]

section Entries

variable {path c : Str} {p q rest : List Str} {m : FileMap}

theorem pathType_eq (hpath : Absolute path) (hnames : pathNames path = p ++ [c]) :
    pathType path = if Closed c then .dir else .entity := by grind [hpath.type_eq, pathType]

theorem newEntry_eq (hpath : Absolute path) (hnames : pathNames path = p ++ c :: rest) :
    newEntry ⟨pathType path, 0, 0⟩ rest = nameEntry (p ++ [c]) := by
  rw [nameEntry_append, newEntry]
  split_ifs with hrest hclosed hclosed
  · rfl
  · refine absurd (FileMap.closed_of_lt (t := path.tail) (q := p) (c := c) ?_ ?_) hclosed
    · exact ⟨rest, by rw [append_assoc, singleton_append]; exact hnames.symm⟩
    · intro heq
      have hall := heq.trans hnames
      exact hrest (by simpa using hall)
  all_goals grind [pathType_eq]

theorem add_names (hpath : Absolute path) (hroot : m [] ≠ none) (hq : m q = none) :
    m.add (pathNames path) ⟨pathType path, 0, 0⟩ q = if q <+: pathNames path then some (nameEntry q) else none := by
  rw [FileMap.add_of_none hq]
  split_ifs with hle heq
  · rcases eq_nil_or_concat q with rfl | ⟨p, c, rfl⟩
    · exact absurd hq hroot
    grind [nameEntry_append, pathType_eq]
  · rcases eq_nil_or_concat q with rfl | ⟨p, c, rfl⟩
    · exact absurd hq hroot
    · rw [concat_eq_append] at hle heq ⊢
      rw [nameEntry_append, if_pos (FileMap.closed_of_lt hle heq)]
  · rfl

end Entries

theorem createSeq_eq {tree : FileTree} (h : tree.Inv) {calls : List CreateCall}
    (hpaths : ∀ call ∈ calls, Absolute call.path ∧ Fits call.path) (hserved : SeqServed tree.used calls) :
    ∃ tree', createSeq calls tree = .ok (List.replicate calls.length .ok, tree') ∧
      (∀ q e, tree.fs.map q = some e → tree'.fs.map q = some e) ∧ ∀ q, tree.fs.map q = none →
        ((∃ call ∈ calls, q <+: pathNames call.path) → tree'.fs.map q = some (nameEntry q)) ∧
        ((∀ call ∈ calls, ¬ q <+: pathNames call.path) → tree'.fs.map q = none) := by
  induction calls generalizing tree with
  | nil => exact ⟨tree, rfl, fun _ _ ↦ id, fun q hq ↦ ⟨by simp, fun _ ↦ hq⟩⟩
  | cons call calls ih =>
    obtain ⟨⟨hcut, hmems, henough⟩, hserved⟩ := hserved
    obtain ⟨hpath, hfits⟩ := hpaths call mem_cons_self
    obtain ⟨fs₁, hrun, hmap⟩ := h.create_ok 0 0 hpath hcut hmems hfits henough
    have h₁ := h.create hpath hcut hmems hrun
    have hroot : tree.fs.map [] ≠ none := by
      obtain ⟨e, he, -⟩ := h.wf.root
      simp [he]
    obtain ⟨tree', hseq, hkeep, hnew⟩ := ih h₁ (fun c hc ↦ hpaths c (mem_cons_of_mem _ hc)) hserved
    have hadd : ∀ q, tree.fs.map q = none →
        fs₁.map q = if q <+: pathNames call.path then some (nameEntry q) else none := by
      intro q hq
      rw [hmap, add_names hpath hroot hq]
    refine ⟨tree', ?_, fun q e hq ↦ hkeep q e ?_, fun q hq ↦ ⟨?_, ?_⟩⟩
    · exact bind_eq_ok.mpr ⟨_, hrun, bind_eq_ok.mpr ⟨_, hseq, rfl⟩⟩
    · dsimp only
      rw [hmap, FileMap.add_of_some hq]
    all_goals grind

/-! ### What holds of a request -/

/-- A request in the middle of its path: it is at the file of the names before the next one. -/
structure Walk (place : List Str → Option ℕ) (path : Str) (p : List Str) (c : Str) (rest : List Str) (file : ℕ) :
    Prop where
  absolute : Absolute path
  fits : Fits path
  names : pathNames path = p ++ c :: rest
  at_file : place p = some file

structure Prepared (fs : Fs) (tmpfile : ℕ) (p : List Str) (c : Str) : Prop where
  name_eq : (fs.file tmpfile).name = c
  sub_eq : (fs.file tmpfile).subfile = 0
  entry_eq : fs.entry tmpfile = nameEntry (p ++ [c])

inductive Good (fs : Fs) (place : List Str → Option ℕ) (used : List ℕ) : Request → Prop
  | find {path p c rest file} (hwalk : Walk place path p c rest file) : Good fs place used
    ⟨path, c :: rest, file, .find⟩
  | new {path p c rest file} (hwalk : Walk place path p c rest file) (hnone : place (p ++ [c]) = none) :
    Good fs place used ⟨path, c :: rest, file, .new⟩
  | insert {path p c rest file tmpfile} (hwalk : Walk place path p c rest file) (hnone : place (p ++ [c]) = none)
    (hvacant : Vacant place tmpfile) (hused : tmpfile ∈ used) (hprepared : Prepared fs tmpfile p c) :
    Good fs place used ⟨path, c :: rest, file, .insert tmpfile⟩
  | check {path p c rest file tmpfile} (hwalk : Walk place path p c rest file)
    (hfound : place (p ++ [c]) = some tmpfile) : Good fs place used ⟨path, c :: rest, file, .check tmpfile⟩
  | done {path file} (habsolute : Absolute path) (hfits : Fits path) (hfile : place (pathNames path) = some file) :
    Good fs place used ⟨path, [], file, .done .ok⟩

/-- Two requests are not about to insert the same name into the same directory, and have prepared different files. -/
structure Distinct (r r' : Request) : Prop where
  pending : ∀ file c, r.Pending file c → ¬ r'.Pending file c
  temps : ∀ t t', r.point = .insert t → r'.point = .insert t' → Apart t t'

theorem Distinct.symm {r r' : Request} (h : Distinct r r') : Distinct r' r :=
  ⟨fun file c hr' hr ↦ h.pending file c hr hr', fun t t' ht ht' ↦ Or.symm (h.temps t' t ht' ht)⟩

theorem Distinct.of_not_pending {r r' : Request} (h : r.point.pending = false) : Distinct r r' := by
  refine ⟨fun file c hr ↦ ?_, fun t t' ht ↦ ?_⟩
  · rw [hr.2.2] at h
    cases h
  · rw [ht] at h
    cases h

section Good

variable {fs fs' : Fs} {place place' : List Str → Option ℕ} {used used' : List ℕ} {r : Request} {path c : Str}
  {p rest : List Str} {file f : ℕ}

theorem Walk.short (h : Walk place path p c rest file) : c.length < fileMaxNameLen :=
  h.fits c (by rw [h.names]; simp)

theorem Walk.mono (h : Walk place path p c rest file) (hkeep : ∀ {q g}, place q = some g → place' q = some g) :
    Walk place' path p c rest file := ⟨h.absolute, h.fits, h.names, hkeep h.at_file⟩

theorem Good.frame (h : Good fs place used r) (hkeep : ∀ {q g}, place q = some g → place' q = some g)
    (hnone : ∀ {p c}, place p = some r.file → r.Pending r.file c → place (p ++ [c]) = none →
      place' (p ++ [c]) = none)
    (htmp : ∀ t, r.point = .insert t → Vacant place t → t ∈ used →
      Vacant place' t ∧ (fs'.file t).name = (fs.file t).name ∧ (fs'.file t).subfile = (fs.file t).subfile ∧
        fs'.entry t = fs.entry t)
    (hused : ∀ a ∈ used, a ∈ used') : Good fs' place' used' r := by
  cases h with
  | find hwalk => exact .find (hwalk.mono hkeep)
  | new hwalk hn => exact .new (hwalk.mono hkeep) (hnone hwalk.at_file ⟨rfl, rfl, rfl⟩ hn)
  | insert hwalk hn hvacant hmem hprepared =>
    obtain ⟨hvacant', hname, hsub, hentry⟩ := htmp _ rfl hvacant hmem
    exact .insert (hwalk.mono hkeep) (hnone hwalk.at_file ⟨rfl, rfl, rfl⟩ hn) hvacant' (hused _ hmem)
      ⟨hname.trans hprepared.name_eq, hsub.trans hprepared.sub_eq, hentry.trans hprepared.entry_eq⟩
  | check hwalk hfound => exact .check (hwalk.mono hkeep) (hkeep hfound)
  | done habsolute hfits hfile => exact .done habsolute hfits (hkeep hfile)

theorem Good.advance (h : Walk place path p c rest file) (hf : place (p ++ [c]) = some f) (old : Request)
    (hold : old.path = path) : Good fs place used (old.advance rest f) := by
  subst hold
  cases rest with
  | nil =>
    refine Good.done h.absolute h.fits ?_
    rw [h.names]
    exact hf
  | cons c' rest =>
    refine Good.find (p := p ++ [c]) ⟨h.absolute, h.fits, ?_, hf⟩
    rw [h.names, append_assoc]
    rfl

theorem Good.arrive (habsolute : Absolute path) (hfits : Fits path) (hroot : place [] = some f) :
    Good fs place used (Request.advance ⟨path, [], 0, .find⟩ (pathNames path) f) := by
  cases hnames : pathNames path with
  | nil =>
    refine Good.done habsolute hfits ?_
    rw [hnames]
    exact hroot
  | cons c rest => exact Good.find (p := []) ⟨habsolute, hfits, hnames, hroot⟩

theorem Good.absolute_fits (h : Good fs place used r) : Absolute r.path ∧ Fits r.path := by
  cases h with
  | find hwalk | new hwalk | insert hwalk | check hwalk => exact ⟨hwalk.absolute, hwalk.fits⟩
  | done habsolute hfits => exact ⟨habsolute, hfits⟩

theorem Good.temp_mem {t : ℕ} (h : Good fs place used r) (ht : r.point = .insert t) : t ∈ used := by
  cases h with
  | insert hwalk hnone hvacant hused hprepared =>
    obtain rfl := CreatePoint.insert.inj ht
    exact hused
  | _ => cases ht

end Good

/-! ### The invariant -/

/-- The files are a tree, every request is where it should be, no two are after the same name, and the files are
those from the start with names of the requests. -/
structure Inv (st : FileRequests) : Prop where
  forest : st.fs.Forest st.fs.lookup
  used : ∀ {q g}, st.fs.lookup q = some g → g ∈ st.used
  good : ∀ r ∈ st.reqs, Good st.fs st.fs.lookup st.used r
  distinct : ∀ {i j : ℕ} {r r' : Request}, i ≠ j → st.reqs[i]? = some r → st.reqs[j]? = some r' → Distinct r r'
  start : st.start.Inv
  keep : ∀ {q e}, st.start.fs.map q = some e → st.fs.map q = some e
  made : ∀ {q e}, st.start.fs.map q = none → st.fs.map q = some e →
    e = nameEntry q ∧ ∃ path ∈ st.reqs.map Request.path, q <+: pathNames path

theorem map_path_set {reqs : List Request} {i : ℕ} {r r' : Request} (hi : reqs[i]? = some r)
    (hpath : r'.path = r.path) : (reqs.set i r').map Request.path = reqs.map Request.path := by
  rw [map_set, hpath]
  exact ext_getElem? fun j ↦ by grind

variable {st st' : FileRequests} {i : ℕ} {r r' : Request}

theorem Inv.replace (h : st.Inv) {fs' : Fs} {used' : List ℕ} (hi : st.reqs[i]? = some r) (hpath : r'.path = r.path)
    (hforest : fs'.Forest fs'.lookup) (hused : ∀ {q g}, fs'.lookup q = some g → g ∈ used')
    (hothers : ∀ j b, j ≠ i → st.reqs[j]? = some b → Good fs' fs'.lookup used' b ∧ Distinct r' b)
    (hgood : Good fs' fs'.lookup used' r') (hkeep : ∀ q e, st.fs.map q = some e → fs'.map q = some e)
    (hmade : ∀ q e, st.fs.map q = none → fs'.map q = some e → e = nameEntry q ∧ q <+: pathNames r.path) :
    Inv { st with fs := fs', used := used', reqs := st.reqs.set i r' } := by
  refine ⟨hforest, hused, fun b hb ↦ ?_, fun {j k b b'} hjk hj hk ↦ ?_, h.start, fun hq ↦ hkeep _ _ (h.keep hq),
    fun {q e} hq he ↦ ?_⟩
  · obtain ⟨j, hj⟩ := mem_iff_getElem?.mp hb
    grind
  · have hold := @h.distinct j k
    have hsymm := fun b b' (hd : Distinct b b') ↦ hd.symm
    grind
  · dsimp only
    rw [map_path_set hi hpath]
    cases hold : st.fs.map q with
    | some e' => grind [h.made]
    | none => grind

/-! ### The steps -/

theorem Inv.replace_same (h : st.Inv) (hi : st.reqs[i]? = some r) (hpath : r'.path = r.path)
    (hothers : ∀ j b, j ≠ i → st.reqs[j]? = some b → Distinct r' b)
    (hgood : Good st.fs st.fs.lookup st.used r') : Inv { st with reqs := st.reqs.set i r' } :=
  h.replace hi hpath h.forest h.used (fun j b hj hb ↦ ⟨h.good b (mem_of_getElem? hb), hothers j b hj hb⟩) hgood
    (fun _ _ ↦ id) fun q e hnone he ↦ by
      rw [hnone] at he
      cases he

section Step

variable {path c : Str} {p rest : List Str} {file tmpfile : ℕ} {mem : Block}

theorem Inv.step_find (h : st.Inv) (mem : Block) (hi : st.reqs[i]? = some ⟨path, c :: rest, file, .find⟩)
    (hwalk : Walk st.fs.lookup path p c rest file)
    (hseparate : ∀ j b, j ≠ i → st.reqs[j]? = some b → ¬ b.Pending file c) :
    ∃ r', Request.step ⟨path, c :: rest, file, .find⟩ st.fs mem = .ok (r', st.fs) ∧
      r'.work < Request.work ⟨path, c :: rest, file, .find⟩ ∧ Inv { st with reqs := st.reqs.set i r' } := by
  rw [Request.step_find, h.forest.rbtFind hwalk.at_file c]
  cases hf : st.fs.lookup (p ++ [c]) with
  | some f =>
    refine ⟨_, rfl, ?_, h.replace_same hi rfl (fun _ _ _ _ ↦ .of_not_pending ?_) (.advance hwalk hf _ rfl)⟩
    · cases rest <;> simp [Request.advance, Request.work]
    · cases rest <;> rfl
  | none =>
    refine ⟨_, rfl, ?_, h.replace_same hi rfl (fun j b hj hb ↦ ⟨fun file' c' hr ↦ ?_, fun t t' ht ↦ ?_⟩)
      (.new hwalk hf)⟩
    · simp only [Request.work, length_cons]
      omega
    · obtain ⟨rfl, hc, -⟩ := hr
      obtain rfl := Option.some_inj.mp hc
      exact hseparate j b hj hb
    · cases ht

theorem Inv.step_new (h : st.Inv) (hi : st.reqs[i]? = some ⟨path, c :: rest, file, .new⟩)
    (hwalk : Walk st.fs.lookup path p c rest file) (hnone : st.fs.lookup (p ++ [c]) = none)
    (hok : mem.err = .ok) (hmem : Available st.used [mem]) :
    ∃ r' fs', Request.step ⟨path, c :: rest, file, .new⟩ st.fs mem = .ok (r', fs') ∧
      r'.work < Request.work ⟨path, c :: rest, file, .new⟩ ∧
      Inv { st with fs := fs', used := st.used ++ taken [mem], reqs := st.reqs.set i r' } := by
  have hfresh : Fresh st.fs.lookup [mem] := hmem.fresh h.used
  have hvacant : Vacant st.fs.lookup mem.addr := hfresh.vacant mem mem_cons_self hok
  have hused : st.used ++ taken [mem] = st.used ++ [mem.addr] := by simp [taken, hok]
  let e := newEntry ⟨pathType path, 0, 0⟩ rest
  let fs' : Fs := { st.fs with
    file := update st.fs.file mem.addr ⟨e.type, c, e.data, e.size, 0, mem.ffile⟩ }
  have hself : fs'.file mem.addr = ⟨e.type, c, e.data, e.size, 0, mem.ffile⟩ := update_self ..
  have hother : ∀ {g}, g ≠ mem.addr → fs'.file g = st.fs.file g := fun hg ↦ update_of_ne hg ..
  have hforest : fs'.Forest st.fs.lookup := h.forest.write_vacant hvacant _
  have hlookup : fs'.lookup = st.fs.lookup := hforest.lookup_eq
  have hnew : Forest.roundNew st.fs mem c rest ⟨pathType path, 0, 0⟩ = .ok (.ok, mem.addr, fs') := by
    simp [Forest.roundNew, fileNew, hok, hwalk.short.not_ge, fs', e]
  have hmap : fs'.map = st.fs.map := by
    funext q
    rw [Fs.map, Fs.map, hlookup, view, view]
    cases hg : st.fs.lookup q with
    | none => rfl
    | some g => rw [Option.map_some, Option.map_some, entry, entry, hother (Forest.ne_of_vacant hvacant hg)]
  refine ⟨⟨path, c :: rest, file, .insert mem.addr⟩, fs', ?_, ?_, ?_⟩
  · rw [Request.step_new, hnew]
    rfl
  · simp only [Request.work, length_cons]
    omega
  rw [hused]
  refine h.replace hi rfl (by rw [hlookup]; exact hforest)
    (fun hg ↦ mem_append_left _ (h.used (by rwa [hlookup] at hg))) (fun j b hj hb ↦ ⟨?_, ?_⟩) ?_
    (fun q e he ↦ by rwa [hmap]) fun q e hn he ↦ ?_
  · have hgood := h.good b (mem_of_getElem? hb)
    rw [hlookup]
    refine hgood.frame id (fun _ _ hn ↦ hn) (fun t ht hvac hmemt ↦ ⟨hvac, ?_⟩) fun a ha ↦ mem_append_left _ ha
    have hne : t ≠ mem.addr := by
      rintro rfl
      have hapart := (hmem.1 mem mem_cons_self hok).2.2 _ hmemt
      simp only [Fs.Apart, fileSize] at hapart
      omega
    rw [entry, entry, hother hne]
    exact ⟨rfl, rfl, rfl⟩
  · have hold := h.distinct hj.symm hi hb
    refine ⟨fun file' c' hr ↦ hold.pending file' c' ⟨hr.1, hr.2.1, rfl⟩, fun t t' ht ht' ↦ ?_⟩
    obtain rfl := CreatePoint.insert.inj ht
    exact (hmem.1 mem mem_cons_self hok).2.2 _ ((h.good b (mem_of_getElem? hb)).temp_mem ht')
  · rw [hlookup]
    refine .insert hwalk hnone hvacant (by simp) ⟨by rw [hself], by rw [hself], ?_⟩
    rw [entry, hself]
    exact newEntry_eq hwalk.absolute hwalk.names
  · rw [hmap, hn] at he
    cases he

theorem Inv.step_insert (h : st.Inv) (mem : Block) (hi : st.reqs[i]? = some ⟨path, c :: rest, file, .insert tmpfile⟩)
    (hwalk : Walk st.fs.lookup path p c rest file) (hnone : st.fs.lookup (p ++ [c]) = none)
    (hvacant : Vacant st.fs.lookup tmpfile) (hused : tmpfile ∈ st.used) (hprepared : Prepared st.fs tmpfile p c) :
    ∃ r' fs', Request.step ⟨path, c :: rest, file, .insert tmpfile⟩ st.fs mem = .ok (r', fs') ∧
      r'.work < Request.work ⟨path, c :: rest, file, .insert tmpfile⟩ ∧
      Inv { st with fs := fs', reqs := st.reqs.set i r' } := by
  obtain ⟨t, hrun, hforest⟩ :=
    h.forest.rbtInsert hwalk.at_file hnone hvacant hprepared.name_eq hprepared.sub_eq
  have hlookup := hforest.lookup_eq
  have hkeep : ∀ {q g}, st.fs.lookup q = some g → (st.fs.setSub file t).lookup q = some g := by
    intro q g hg
    rw [hlookup, update_of_ne, hg]
    rintro rfl
    rw [hnone] at hg
    cases hg
  have hself : (st.fs.setSub file t).lookup (p ++ [c]) = some tmpfile := by rw [hlookup, update_self]
  refine ⟨⟨path, c :: rest, file, .check tmpfile⟩, st.fs.setSub file t, ?_, ?_, ?_⟩
  · rw [Request.step_insert, hrun]
    rfl
  · simp only [Request.work, length_cons]
    omega
  refine h.replace hi rfl (by rw [hlookup]; exact hforest) (fun {q g} hg ↦ ?_) (fun j b hj hb ↦ ⟨?_, ?_⟩)
    (.check (hwalk.mono hkeep) hself) (fun q e he ↦ ?_) fun q e hn he ↦ ?_
  · by_cases hq : q = p ++ [c]
    · rw [hq, hself] at hg
      exact Option.some_inj.mp hg ▸ hused
    · rw [hlookup, update_of_ne hq] at hg
      exact h.used hg
  · -- Another request is after another name, and its file is another one.
    have hdistinct := h.distinct hj.symm hi hb
    refine (h.good b (mem_of_getElem? hb)).frame hkeep (fun {q c'} hq hpending hn ↦ ?_)
      (fun t' ht' hvac hmem' ↦ ⟨⟨hvac.ne_zero, hvac.room, fun q g hg ↦ ?_⟩, Forest.name_setSub t t', ?_,
        Forest.entry_setSub t t'⟩) fun _ ↦ id
    · rw [hlookup, update_of_ne, hn]
      intro heq
      obtain ⟨rfl, hc⟩ := append_inj' heq rfl
      obtain rfl := List.singleton_inj.mp hc
      have hfile : b.file = file := Option.some_inj.mp (hq.symm.trans hwalk.at_file)
      exact hdistinct.pending file c' ⟨rfl, rfl, rfl⟩ (hfile ▸ hpending)
    · by_cases hq : q = p ++ [c]
      · rw [hq, hself] at hg
        exact Option.some_inj.mp hg ▸ Or.symm (hdistinct.temps tmpfile t' rfl ht')
      · rw [hlookup, update_of_ne hq] at hg
        exact hvac.apart q g hg
    · rw [Forest.file_setSub_of_ne t (Forest.ne_of_vacant hvac hwalk.at_file).symm]
  · exact .of_not_pending rfl
  · obtain ⟨g, hg, rfl⟩ := Option.map_eq_some_iff.mp he
    rw [Fs.map, view, hkeep hg, Option.map_some, Forest.entry_setSub]
  · have hn' := map_eq_none.mp hn
    obtain ⟨g, hg, rfl⟩ := Option.map_eq_some_iff.mp he
    obtain rfl : q = p ++ [c] := by
      by_contra hq
      rw [hlookup, update_of_ne hq, hn'] at hg
      cases hg
    rw [hself] at hg
    obtain rfl := Option.some_inj.mp hg
    rw [Forest.entry_setSub, hprepared.entry_eq]
    refine ⟨rfl, rest, ?_⟩
    rw [hwalk.names, append_assoc]
    rfl

theorem Inv.step_check (h : st.Inv) (mem : Block) (hi : st.reqs[i]? = some ⟨path, c :: rest, file, .check tmpfile⟩)
    (hwalk : Walk st.fs.lookup path p c rest file) (hfound : st.fs.lookup (p ++ [c]) = some tmpfile) :
    ∃ r', Request.step ⟨path, c :: rest, file, .check tmpfile⟩ st.fs mem = .ok (r', st.fs) ∧
      r'.work < Request.work ⟨path, c :: rest, file, .check tmpfile⟩ ∧ Inv { st with reqs := st.reqs.set i r' } := by
  rw [Request.step_check, h.forest.rbtFind hwalk.at_file c, hfound]
  refine ⟨Request.advance ⟨path, c :: rest, file, .check tmpfile⟩ rest tmpfile, ?_, ?_,
    h.replace_same hi rfl (fun _ _ _ _ ↦ .of_not_pending ?_) (.advance hwalk hfound _ rfl)⟩
  · simp only [ne_eq, reduceCtorEq, not_false_eq_true, assert_of_true trivial, ok_bind, pure_eq]
  · cases rest <;> simp [Request.advance, Request.work]
    omega
  · cases rest <;> rfl

end Step

theorem sum_work_set {reqs : List Request} (hi : reqs[i]? = some r) (hlt : r'.work < r.work) :
    ((reqs.set i r').map Request.work).sum < (reqs.map Request.work).sum := by
  induction reqs generalizing i with
  | nil => cases hi
  | cons b reqs ih =>
    cases i with
    | zero =>
      cases hi
      simpa using hlt
    | succ i =>
      have hrest := ih (i := i) (by simpa using hi)
      simpa using hrest

theorem Inv.run (h : st.Inv) {mem : Block} (hclean : st.Clean (.run i mem)) :
    ∃ st', st.next (.run i mem) = .ok st' ∧
      (st'.reqs.map Request.work).sum < (st.reqs.map Request.work).sum ∧ st'.Inv := by
  obtain ⟨⟨r, hr, hreturned, hmem⟩, hseparate⟩ := hclean
  have hi : st.reqs[i]? = some r := hr
  have hothers : ∀ j b, j ≠ i → st.reqs[j]? = some b → b ∈ st.reqs.eraseIdx i :=
    fun j b hj hb ↦ mem_eraseIdx_iff_getElem?.mpr ⟨j, hj, hb⟩
  simp only [next, hi]
  cases h.good r (mem_of_getElem? hi) with
  | find hwalk =>
    obtain ⟨r', hrun, hwork, hinv⟩ := h.step_find mem hi hwalk
      fun j b hj hb ↦ hseparate _ hr rfl _ rfl b (hothers j b hj hb)
    exact ⟨_, bind_eq_ok.mpr ⟨_, hrun, rfl⟩, sum_work_set hi hwork, hinv⟩
  | new hwalk hnone =>
    obtain ⟨hok, havailable⟩ := hmem rfl
    obtain ⟨r', fs', hrun, hwork, hinv⟩ := h.step_new hi hwalk hnone hok havailable
    exact ⟨_, bind_eq_ok.mpr ⟨_, hrun, rfl⟩, sum_work_set hi hwork, hinv⟩
  | insert hwalk hnone hvacant hused hprepared =>
    obtain ⟨r', fs', hrun, hwork, hinv⟩ := h.step_insert mem hi hwalk hnone hvacant hused hprepared
    exact ⟨_, bind_eq_ok.mpr ⟨_, hrun, rfl⟩, sum_work_set hi hwork, hinv⟩
  | check hwalk hfound =>
    obtain ⟨r', hrun, hwork, hinv⟩ := h.step_check mem hi hwalk hfound
    exact ⟨_, bind_eq_ok.mpr ⟨_, hrun, rfl⟩, sum_work_set hi hwork, hinv⟩
  | done habsolute hfits hfile => exact absurd rfl hreturned

theorem Inv.arrive (h : st.Inv) {path : Str} {cut : Cut} (hpath : Absolute path) (hcut : cut.Returns path)
    (hfits : Fits path) : ∃ st', st.next (.arrive path cut) = .ok st' ∧ st'.Inv := by
  refine ⟨{ st with reqs := st.reqs ++ [Request.advance ⟨path, [], 0, .find⟩ (pathNames path) st.fs.root] }, ?_, ?_⟩
  · simp only [next, hpath.1, ne_eq, not_true_eq_false, if_false]
    exact bind_eq_ok.mpr ⟨_, hpath.components hcut, rfl⟩
  have hidle : (Request.advance ⟨path, [], 0, .find⟩ (pathNames path) st.fs.root).point.pending = false := by
    cases hnames : pathNames path <;> rfl
  refine ⟨h.forest, h.used, fun b hb ↦ ?_, fun {j k b b'} hjk hj hk ↦ ?_, h.start, h.keep, fun {q e} hq he ↦ ?_⟩
  · rcases List.mem_append.mp hb with hb | hb
    · exact h.good b hb
    · obtain rfl := List.mem_singleton.mp hb
      exact .arrive hpath hfits h.forest.root_eq
  · have hold := @h.distinct j k
    have hnew := fun b ↦ (Distinct.of_not_pending hidle : Distinct _ b)
    have hsymm := fun b b' (hd : Distinct b b') ↦ hd.symm
    grind
  grind [h.made]

theorem inv_initial (hinit : Initial st) : st.Inv := by
  obtain ⟨hrun, hfs, hused, hreqs⟩ := hinit
  have h := FileTree.inv_of_run hrun
  refine ⟨by rw [hfs]; exact h.forest, fun hg ↦ ?_, by simp [hreqs], by simp [hreqs], h, ?_, fun {q e} hq he ↦ ?_⟩
  all_goals grind [h.used]

theorem inv_step (h : st.Inv) {a : RequestStep} (hclean : st.Clean a) (hstep : st.next a = .ok st') : st'.Inv := by
  cases a with
  | arrive path cut =>
    obtain ⟨⟨hpath, hcut, hfits⟩, -⟩ := hclean
    grind [h.arrive]
  | run i mem => grind [h.run]

/-! ### The result -/

theorem clean_of_active (hactive : ∃ r ∈ st.reqs, ¬ r.Returned) {mem : Block} (hok : mem.err = .ok)
    (hmem : Available st.used [mem]) : ∃ i, st.Clean (.run i mem) := by
  by_cases hpending : ∃ b ∈ st.reqs, b.point.pending
  · obtain ⟨b, hb, hbpending⟩ := hpending
    obtain ⟨i, hi⟩ := mem_iff_getElem?.mp hb
    refine ⟨i, ⟨b, hi, fun hreturned ↦ ?_, fun _ ↦ ⟨hok, hmem⟩⟩, fun r hr hfind ↦ ?_⟩
    · unfold Request.Returned at hreturned
      cases hpoint : b.point <;> simp [hpoint, CreatePoint.pending, CreatePoint.returned] at hbpending hreturned
    · obtain rfl : b = r := Option.some_inj.mp (hi.symm.trans hr)
      rw [hfind] at hbpending
      cases hbpending
  · obtain ⟨r, hr, hreturned⟩ := hactive
    obtain ⟨i, hi⟩ := mem_iff_getElem?.mp hr
    refine ⟨i, ⟨r, hi, hreturned, fun _ ↦ ⟨hok, hmem⟩⟩, fun _ _ _ c _ b hb hbpending ↦ ?_⟩
    exact hpending ⟨b, mem_of_mem_eraseIdx hb, hbpending.2.2⟩

theorem Inv.map_of_returned (h : st.Inv) (hall : ∀ r ∈ st.reqs, r.Returned) {q : List Str}
    (hq : st.start.fs.map q = none) :
    ((∃ path ∈ st.reqs.map Request.path, q <+: pathNames path) → st.fs.map q = some (nameEntry q)) ∧
      ((∀ path ∈ st.reqs.map Request.path, ¬ q <+: pathNames path) → st.fs.map q = none) := by
  constructor
  · rintro ⟨path, hpath, hle⟩
    obtain ⟨r, hr, rfl⟩ := List.mem_map.mp hpath
    have hreturned := hall r hr
    cases h.good r hr with
    | done habsolute hfits hfile =>
      obtain ⟨tail, htail⟩ := hle
      rw [← htail] at hfile
      obtain ⟨d, hd⟩ := h.forest.ancestor hfile
      have hentry : st.fs.map q = some (st.fs.entry d) := by rw [Fs.map, view, hd, Option.map_some]
      rw [hentry, (h.made hq hentry).1]
    | _ => cases hreturned
  · intro hnone
    by_contra hne
    obtain ⟨e, he⟩ := Option.ne_none_iff_exists'.mp hne
    obtain ⟨-, path, hpath, hle⟩ := h.made hq he
    exact hnone path hpath hle

/-- In every state of a run in which no thread looks for a name that another is about to insert, the requests do what
they should. -/
theorem requests_serial (hrun : system.Run Clean st) : st.Right := by
  have h : st.Inv := System.Run.invariant (P := Inv) (fun _ hinit ↦ inv_initial hinit)
    (fun _ _ _ hinv hclean hstep ↦ inv_step hinv hclean hstep) hrun
  refine ⟨fun i mem hclean ↦ ?_, fun hactive _ hok hmem ↦ clean_of_active hactive hok hmem, fun r hr err herr ↦ ?_,
    fun hall calls hperm hserved ↦ ?_⟩
  · obtain ⟨st', hstep, hwork, -⟩ := h.run hclean
    exact ⟨st', hstep, hwork⟩
  · cases h.good r hr with
    | done habsolute hfits hfile => exact (CreatePoint.done.inj herr).symm
    | _ => cases herr
  · have hpaths : ∀ call ∈ calls, Absolute call.path ∧ Fits call.path := by
      intro call hcall
      obtain ⟨r, hr, hpath⟩ := List.mem_map.mp (hperm.subset (mem_map_of_mem hcall))
      rw [← hpath]
      exact (h.good r hr).absolute_fits
    obtain ⟨tree, hseq, hkeep, hnew⟩ := createSeq_eq h.start hpaths hserved
    refine ⟨tree, hseq, funext fun q ↦ ?_⟩
    cases hq : st.start.fs.map q with
    | some e => rw [hkeep q e hq, h.keep hq]
    | none =>
      obtain ⟨hmade, hmissing⟩ := h.map_of_returned hall hq
      by_cases hpath : ∃ path ∈ st.reqs.map Request.path, q <+: pathNames path
      all_goals grind

/-! ### An example -/

def exampleStart : FileRequests := ⟨FileTree.exampleTree.fs, FileTree.exampleTree.used, [], FileTree.exampleTree⟩

theorem exampleStart_initial : Initial exampleStart := ⟨FileTree.exampleTree_run, rfl, rfl, rfl⟩

/-- The path `/a`. -/
def examplePath : Str := [slash, 0x61#8]

def noMem : Block := ⟨.nomem, 0, 0⟩

/-- Two requests for `/a` arrive, and the second looks for the name after the first has inserted it. -/
def exampleSteps : List RequestStep :=
  [.arrive examplePath FileState.exampleCut, .arrive examplePath FileState.exampleCut, .run 0 noMem,
    .run 0 ⟨.ok, 8192, 0⟩, .run 0 noMem, .run 1 noMem, .run 0 noMem]

/-- Two requests for `/a` arrive, and both look for the name before one of them inserts it. -/
def collidingSteps : List RequestStep :=
  [.arrive examplePath FileState.exampleCut, .arrive examplePath FileState.exampleCut, .run 0 noMem, .run 1 noMem,
    .run 0 ⟨.ok, 8192, 0⟩, .run 1 ⟨.ok, 12288, 0⟩, .run 0 noMem]

theorem requests_serial_example : ∃ st : FileRequests,
    st.reqs.map Request.point = [.done .ok, .done .ok] ∧ st.Right := by
  have hresult : (exampleSteps.foldlM (System.guarded next Clean .unset) exampleStart).map
      (fun st ↦ st.reqs.map Request.point) = .ok [.done .ok, .done .ok] := by decide +kernel
  obtain ⟨st, hsteps, hview⟩ := map_eq_ok.mp hresult
  exact ⟨st, hview, requests_serial (System.run_of_foldlM (.init exampleStart_initial) hsteps)⟩

/-- The second request fails the assertion behind `rbt_insert`. -/
theorem insert_collides : ∃ st : FileRequests, system.Run Possible st ∧ st.Possible (.run 1 noMem) ∧
    st.next (.run 1 noMem) = .error .assertion := by
  have hresult : (collidingSteps.foldlM (System.guarded next Possible .unset) exampleStart).map
      (fun st ↦ (decide (st.Possible (.run 1 noMem)), (st.next (.run 1 noMem)).map fun _ ↦ ())) =
      .ok (true, .error .assertion) := by decide +kernel
  obtain ⟨st, hsteps, hview⟩ := map_eq_ok.mp hresult
  obtain ⟨hpossible, hnext⟩ := Prod.mk.inj hview
  refine ⟨st, System.run_of_foldlM (.init exampleStart_initial) hsteps, of_decide_eq_true hpossible, ?_⟩
  cases hrun : st.next (.run 1 noMem) with
  | error fault =>
    rw [hrun] at hnext
    exact congrArg Except.error (Except.error.inj hnext)
  | ok st' =>
    rw [hrun] at hnext
    cases hnext

end FileRequests

end Lanthorn
