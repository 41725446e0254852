import Lanthorn.Usr.FileMap

/-!
# Trees of files

The trees of files that `file_create` and `file_write` build, whatever the answers of `malloc` are: a creation that
runs out of memory leaves the directories that it has made. The places of the files can be read off the memory
(`Fs.lookup`), and `FileTree.inv_of_run` says that in every state of such a run they are a tree of directories with
terminated names. Assumes, for every call: the path is absolute, `path_cut` returns its buffer, and the blocks of
`malloc` are apart from the earlier ones. A call that runs over the end of `name` has no next state.
-/

namespace Lanthorn

open Library Paths

namespace Fs

/-! ### Places -/

/-- The file that `file_find` finds at a list of names. -/
def lookup (fs : Fs) (q : List Str) : Option ℕ :=
  match fs.findLoop fs.root q with
  | .ok (.ok, f) => some f
  | _ => none

def map (fs : Fs) : FileMap := fs.view fs.lookup

variable {fs fs' : Fs} {place : List Str → Option ℕ} {p comps : List Str} {d : ℕ}

theorem Forest.lookup_eq (h : fs.Forest place) : fs.lookup = place := by
  funext q
  have hfind := h.findLoop h.root_eq q
  rw [List.nil_append] at hfind
  rw [lookup, hfind]
  cases place q <;> rfl

theorem map_eq_none {q : List Str} : fs.map q = none ↔ fs.lookup q = none := view_eq_none

section CreateLoop

variable {type : FileType} {addr size : ℕ} {mems : List Block}

theorem Forest.createLoop_cases {err : Errno} (h : fs.Forest place) (hd : place p = some d)
    (hfresh : Fresh place mems) (hrun : createLoop type addr size comps fs d mems = .ok (err, fs')) :
    ∃ place' names e, Grown fs place mems fs' place' ∧ names <+: p ++ comps ∧
      fs'.view place' = (fs.view place).add names e ∧ (names = p ++ comps ∧ e = ⟨type, addr, size⟩ ∧ err = .ok ∨
        names ≠ p ++ comps ∧ e = FileMap.dirEntry ∧ err ≠ .ok) := by
  by_cases hgood : (∀ c ∈ (fs.view place).missing p comps, c.length < fileMaxNameLen) ∧
      Enough ((fs.view place).missing p comps).length mems
  · obtain ⟨fs₁, place', hrun', hgrown, hview⟩ :=
      h.createLoop_ok type addr size hd hfresh hgood.1 hgood.2
    grind
  grind [h.createLoop_fails]

theorem Forest.createLoop_skip (type : FileType) (addr size : ℕ) (comps : List Str) (mems : List Block)
    (h : fs.Forest place) (hd : place p = some d) :
    ∃ pre d', comps = pre ++ (fs.view place).missing p comps ∧ place (p ++ pre) = some d' ∧
      createLoop type addr size comps fs d mems =
        createLoop type addr size ((fs.view place).missing p comps) fs d' mems ∧
      ∀ c rest, (fs.view place).missing p comps = c :: rest → place (p ++ pre ++ [c]) = none := by
  induction comps generalizing p d with
  | nil => exact ⟨[], d, rfl, by simpa using hd, rfl, by simp [FileMap.missing]⟩
  | cons c rest ih =>
    cases hf : place (p ++ [c]) with
    | some f =>
      obtain ⟨pre, d', hsplit, hd', hrun, hnone⟩ := ih hf
      rw [missing_of_some hf]
      refine ⟨c :: pre, d', by rw [List.cons_append, ← hsplit], by simpa using hd', ?_, by simpa using hnone⟩
      rw [createLoop_exist h hd hf, hrun]
    | none =>
      rw [missing_of_none hf]
      grind

end CreateLoop

end Fs

/-! ### Runs -/

/-- The files, and the blocks that `malloc` has returned. -/
structure FileTree where
  fs : Fs
  used : List ℕ

/-- A call that changes the files, with its circumstances. -/
inductive TreeCall
  | create (path : Str) (addr size : ℕ) (cut : Cut) (mems : List Block)
  | write (path : Str) (addr size : ℕ) (cut : Cut)

namespace FileTree

open Fs

def next (tree : FileTree) : TreeCall → Result FileTree
  | .create path addr size cut mems => do
    let (_, fs) ← tree.fs.fileCreate cut mems path addr size
    return ⟨fs, tree.used ++ taken mems⟩
  | .write path addr size cut => do
    let (_, fs) ← tree.fs.fileWrite cut path addr size
    return { tree with fs := fs }

/-- `init`: `file_new` makes the root. -/
def Initial (tree : FileTree) : Prop :=
  ∃ (fs : Fs) (mem : Block) (fs' : Fs), fs.fileNew mem [slash] .dir 0 0 = .ok (.ok, mem.addr, fs') ∧
    Available [] [mem] ∧ tree.fs = { fs' with root := mem.addr } ∧ tree.used = [mem.addr]

def system : System FileTree TreeCall := System.ofNext Initial next

/-- The path is absolute, `path_cut` returns its buffer, and the blocks of `malloc` are apart from the earlier
ones. -/
def Allowed (tree : FileTree) : TreeCall → Prop
  | .create path _ _ cut mems => Absolute path ∧ cut.Returns path ∧ Available tree.used mems
  | .write path _ _ cut => Absolute path ∧ cut.Returns path

instance (tree : FileTree) (c : TreeCall) : Decidable (tree.Allowed c) := match c with
  | .create _ _ _ _ _ => inferInstanceAs (Decidable (_ ∧ _))
  | .write _ _ _ _ => inferInstanceAs (Decidable (_ ∧ _))

/-- The files are a tree of directories with terminated names, in blocks that do not overlap. -/
structure Inv (tree : FileTree) : Prop where
  forest : tree.fs.Forest tree.fs.lookup
  used : ∀ {q g}, tree.fs.lookup q = some g → g ∈ tree.used
  apart : tree.used.Pairwise Apart
  short : ∀ {q c g}, tree.fs.lookup (q ++ [c]) = some g → c.length < fileMaxNameLen
  terminated : ∀ {q c g}, tree.fs.lookup (q ++ [c]) = some g → c.Terminated
  rootName : (tree.fs.file tree.fs.root).name = [slash]
  wf : tree.fs.map.Wf

variable {tree tree' : FileTree}

theorem inv_initial (hinit : Initial tree) : tree.Inv := by
  obtain ⟨fs, mem, fs', hnew, hroom, hfs, hused⟩ := hinit
  have hstate : FileState.Inv ⟨tree.fs, fun q ↦ if q = [] then some FileMap.dirEntry else none, tree.used⟩ :=
    FileState.inv_initial ⟨fs, mem, fs', hnew, hroom, hfs, rfl, hused⟩
  obtain ⟨place, hforest, hmap, hmem⟩ := hstate.holds
  have hlookup := hforest.lookup_eq
  subst hlookup
  have hnone : ∀ {q c g}, tree.fs.lookup (q ++ [c]) ≠ some g := by
    intro q c g hg
    have hview := congrFun hmap (q ++ [c])
    simp [view, hg] at hview
  refine ⟨hforest, hmem, ?_, fun hg ↦ absurd hg hnone, fun hg ↦ absurd hg hnone, hstate.rootName, ?_⟩
  · rw [hused]
    exact List.pairwise_singleton _ _
  · have hwf := hstate.wf
    dsimp only at hmap hwf
    rw [hmap] at hwf
    exact hwf

variable {path : Str} {cut : Cut} {mems : List Block}

section

variable (h : tree.Inv) {addr size : ℕ} {err : Errno} {fs' : Fs} (hpath : Absolute path)
  (hcut : cut.Returns path) (hmems : Available tree.used mems)
  (hrun : tree.fs.fileCreate cut mems path addr size = .ok (err, fs'))
include h hpath hcut hmems hrun

theorem Inv.created : ∃ names e, Grown tree.fs tree.fs.lookup mems fs' fs'.lookup ∧ names <+: pathNames path ∧
      fs'.map = tree.fs.map.add names e ∧ (names = pathNames path ∧ e = ⟨pathType path, addr, size⟩ ∧ err = .ok ∨
        names ≠ pathNames path ∧ e = FileMap.dirEntry ∧ err ≠ .ok) := by
  rw [fileCreate_eq mems addr size hpath hcut] at hrun
  obtain ⟨place', names, e, hgrown, hle, hview, hcases⟩ :=
    h.forest.createLoop_cases (p := []) h.forest.root_eq (hmems.fresh h.used) hrun
  have hlookup := hgrown.forest.lookup_eq
  subst hlookup
  exact ⟨names, e, hgrown, hle, hview, hcases⟩

theorem Inv.create : Inv ⟨fs', tree.used ++ taken mems⟩ := by
  obtain ⟨names, e, hgrown, hle, hmap, hcases⟩ := h.created hpath hcut hmems hrun
  refine ⟨hgrown.forest, hgrown.used h.used, hmems.pairwise h.apart, fun hg ↦ ?_, fun {q c g} hg ↦ ?_, ?_, ?_⟩
  · rcases hgrown.short hg with hold | hshort
    · exact h.short hold
    · exact hshort
  · cases hold : tree.fs.lookup (q ++ [c]) with
    | some g' => exact h.terminated hold
    | none =>
      have hnew := congrFun hmap (q ++ [c])
      rw [FileMap.add_of_none (map_eq_none.mpr hold)] at hnew
      have hbelow : q ++ [c] <+: names := by
        by_contra hbelow
        rw [if_neg hbelow, map_eq_none, hg] at hnew
        cases hnew
      exact (cutPath_terminated (fun b hb ↦ hpath.2 b (List.mem_of_mem_tail hb)) c
        ((hbelow.trans hle).subset (by simp))).2
  · dsimp only
    rw [hgrown.root_eq h.forest, hgrown.name_eq h.forest.root_eq]
    exact h.rootName
  · dsimp only
    rw [hmap]
    refine h.wf.add hle fun q c hq ↦ ?_
    rcases hcases with ⟨hall, rfl, -⟩ | ⟨hne, rfl, -⟩
    · exact hpath.type_eq (hall.symm.trans hq)
    · subst hq
      exact iff_of_true rfl (FileMap.closed_of_lt hle hne)

end

theorem Inv.create_ok (h : tree.Inv) (addr size : ℕ) (hpath : Absolute path)
    (hcut : cut.Returns path) (hmems : Available tree.used mems) (hfits : Fits path)
    (henough : Enough (pathNames path).length mems) :
    ∃ fs', tree.fs.fileCreate cut mems path addr size = .ok (.ok, fs') ∧
      fs'.map = tree.fs.map.add (pathNames path) ⟨pathType path, addr, size⟩ := by
  obtain ⟨fs', place', hrun, hgrown, hview⟩ := h.forest.createLoop_ok (p := []) (pathType path) addr size
    h.forest.root_eq (hmems.fresh h.used) (fun c hc ↦ hfits c ((FileMap.missing_suffix _ _ _).mem hc))
    (henough.mono (FileMap.missing_suffix _ _ _).length_le)
  grind [fileCreate_eq, Fs.map, hgrown.forest.lookup_eq]

theorem inv_step (h : tree.Inv) {c : TreeCall} (hallowed : tree.Allowed c) (hstep : tree.next c = .ok tree') :
    tree'.Inv := by
  cases c with
  | create path addr size cut mems =>
    obtain ⟨hpath, hcut, hmems⟩ := hallowed
    obtain ⟨⟨err, fs'⟩, hrun, hstep⟩ := bind_eq_ok.mp hstep
    cases hstep
    exact h.create hpath hcut hmems hrun
  | write path addr size cut =>
    obtain ⟨hpath, hcut⟩ := hallowed
    obtain ⟨⟨err, fs'⟩, hrun, hstep⟩ := bind_eq_ok.mp hstep
    cases hstep
    obtain ⟨fs₁, hrun', hforest, hview, hname⟩ := h.forest.fileWrite hpath hcut addr size
    obtain ⟨-, rfl⟩ := ok_pair_inj (hrun'.symm.trans hrun)
    have hlookup := hforest.lookup_eq
    have hroot : fs₁.root = tree.fs.root :=
      Option.some_inj.mp (hforest.root_eq.symm.trans h.forest.root_eq)
    rw [← hlookup] at hforest
    refine ⟨hforest, ?_, h.apart, ?_, ?_, ?_, ?_⟩
    · dsimp only
      rw [hlookup]
      exact h.used
    · dsimp only
      rw [hlookup]
      exact h.short
    · dsimp only
      rw [hlookup]
      exact h.terminated
    all_goals grind [h.rootName, Fs.map, h.wf.write]

theorem inv_of_run (hrun : system.Run Allowed tree) : tree.Inv :=
  System.Run.invariant (P := Inv) (fun _ hinit ↦ inv_initial hinit)
    (fun _ _ _ hinv hallowed hstep ↦ inv_step hinv hallowed hstep) hrun

/-! ### Examples of trees -/

def exampleTree : FileTree := ⟨FileState.exampleInit.fs, [4096]⟩

theorem exampleTree_run : system.Run Allowed exampleTree :=
  .init ⟨FileState.exampleMemory, ⟨.ok, 4096, 0⟩, _, rfl, by decide, rfl, rfl⟩

def exampleMems : List Block := [⟨.ok, 8192, 0⟩, ⟨.ok, 12288, 0⟩]

/-- `/a/b` is created. -/
def exampleCreate : List TreeCall := [.create FileState.examplePath 7 2 FileState.exampleCut exampleMems]

end FileTree

end Lanthorn
