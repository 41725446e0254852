import Lanthorn.Usr.FileTree

/-!
# Names of any length

`file_create` takes paths from any client and copies each component into the 32 bytes of `name`.
`FileTree.names_right_iff` says exactly which creations do what they should, namely fail without changing the
tree or store every new name with its terminator so that the path is found again: the memory for the first
missing component is refused, or there is memory for all of them and each has room. Otherwise a name runs over
its end, or a directory stays behind from a creation that failed (`FileTree.names_overrun`).
-/

namespace Lanthorn

open Library Paths Fs

namespace FileTree

/-- What a creation should do: fail and leave the files as they were, or give every name that was missing its
place, terminated within `name` and with the other members as they are meant, so that the path is found. -/
def NamesRight (fs : Fs) (cut : Cut) (mems : List Block) (path : Str) (addr size : ℕ) : Prop :=
  ∃ err fs', fs.fileCreate cut mems path addr size = .ok (err, fs') ∧ (err ≠ .ok ∧ fs' = fs ∨
      err = .ok ∧ (∃ names, fs'.map = fs.map.add names ⟨pathType path, addr, size⟩) ∧
        (∀ q c f, fs'.lookup (q ++ [c]) = some f → fs.lookup (q ++ [c]) = none →
          (fs'.file f).name = c ∧ c.length < fileMaxNameLen) ∧
        fs'.lookup (pathNames path) ≠ none)

/-- The names that the creation visits: the memory for the first missing one is refused, or there is memory and
room for all that are missing, and the path is among them. -/
def NamesSafe (fs : Fs) (cut : Cut) (mems : List Block) (path : Str) : Prop :=
  ∃ names, components cut path = .ok names ∧ (fs.map.missing [] names ≠ [] ∧ (nextBlock mems).err ≠ .ok ∨
      (∀ c ∈ fs.map.missing [] names, c.length < fileMaxNameLen) ∧ Enough (fs.map.missing [] names).length mems ∧
        (fs.map (pathNames path) ≠ none ∨ pathNames path <+: names))

variable {tree : FileTree} {cut : Cut} {mems : List Block} {path : Str} {addr size : ℕ}

theorem fileCreate_of_components {names : List Str} (fs : Fs) (mems : List Block) (addr size : ℕ)
    (hpath : Absolute path)
    (hnames : components cut path = .ok names) :
    fs.fileCreate cut mems path addr size = createLoop (pathType path) addr size names fs fs.root mems := by
  rw [fileCreate, if_neg (by simp [hpath.1]), hnames]
  rfl

theorem Inv.names_right_of_enough (h : tree.Inv) (hmems : Available tree.used mems) {names : List Str}
    (hcreate : tree.fs.fileCreate cut mems path addr size =
      createLoop (pathType path) addr size names tree.fs tree.fs.root mems)
    (hshort : ∀ c ∈ tree.fs.map.missing [] names, c.length < fileMaxNameLen)
    (henough : Enough (tree.fs.map.missing [] names).length mems) : NamesRight tree.fs cut mems path addr size ↔
      tree.fs.map (pathNames path) ≠ none ∨ pathNames path <+: names := by
  obtain ⟨fs', place', hrun, hgrown, hview⟩ := h.forest.createLoop_ok (p := []) (pathType path) addr size
    h.forest.root_eq (hmems.fresh h.used) hshort henough
  have hlookup := hgrown.forest.lookup_eq
  subst hlookup
  rw [List.nil_append] at hview
  have hfound : fs'.lookup (pathNames path) ≠ none ↔
      tree.fs.map (pathNames path) ≠ none ∨ pathNames path <+: names := by
    have hmap : fs'.map (pathNames path) = tree.fs.map.add names ⟨pathType path, addr, size⟩ (pathNames path) :=
      congrFun hview _
    rw [Ne, ← map_eq_none, hmap]
    cases hold : tree.fs.map (pathNames path) with
    | some e => simp [FileMap.add_of_some hold]
    | none => simp [FileMap.add_of_none hold]
  rw [← hfound]
  constructor
  · rintro ⟨err, fs₁, hrun', hright⟩
    grind
  · intro hpath
    refine ⟨.ok, fs', hcreate.trans hrun, .inr ⟨rfl, ⟨names, hview⟩, fun q c f hf hnone ↦ ?_, hpath⟩⟩
    exact ⟨hgrown.forest.name_eq hf, (hgrown.short hf).resolve_left (by simp [hnone])⟩

theorem Inv.not_names_right (h : tree.Inv) (names : List Str) (hmems : Available tree.used mems)
    (hcreate : tree.fs.fileCreate cut mems path addr size =
      createLoop (pathType path) addr size names tree.fs tree.fs.root mems)
    (hok : (nextBlock mems).err = .ok) (hbad : ¬ ((∀ c ∈ tree.fs.map.missing [] names, c.length < fileMaxNameLen) ∧
      Enough (tree.fs.map.missing [] names).length mems)) :
    ¬ NamesRight tree.fs cut mems path addr size := by
  rintro ⟨err, fs', hrun, hright⟩
  obtain ⟨pre, d, -, hd, hskip, hnone⟩ :=
    h.forest.createLoop_skip (p := []) (pathType path) addr size names mems h.forest.root_eq
  rw [hcreate, hskip] at hrun
  cases hmissing : tree.fs.map.missing [] names with
  | nil => exact hbad ⟨by simp [hmissing], by simp [hmissing, Enough]⟩
  | cons c rest =>
    have hf := hnone c rest hmissing
    rw [show (tree.fs.view tree.fs.lookup).missing [] names = c :: rest from hmissing] at hrun
    rw [hmissing] at hbad
    by_cases hlong : fileMaxNameLen ≤ c.length
    · rw [h.forest.createLoop_long hd hf hok hlong] at hrun
      cases hrun
    have hfresh : Fresh tree.fs.lookup mems := hmems.fresh h.used
    have hblock : nextBlock mems ∈ mems := by
      rw [nextBlock_mem hok]
      exact List.mem_cons_self
    obtain ⟨fs₁, hadded, hnew⟩ := h.forest.createLoop_new (pathType path) addr size rest hd hf hok
      (hfresh.vacant _ hblock hok) (not_le.mp hlong)
    have hall := FileMap.missing_of_none (h.forest.view_below hf fs₁ (nextBlock mems).addr) rest
    have hbad' : ¬ ((∀ c ∈ rest, c.length < fileMaxNameLen) ∧ Enough rest.length mems.tail) := by
      grind [enough_succ]
    rw [hnew] at hrun
    rcases hadded.forest.createLoop_fails (pathType path) addr size (Function.update_self ..)
        (hfresh.tail hok _) (by rw [hall]; exact hbad') with
      hunset | ⟨err', fs₂, place', names', hrun', herr, hgrown, -⟩
    · rw [hunset] at hrun
      cases hrun
    · obtain ⟨rfl, rfl⟩ := ok_pair_inj (hrun'.symm.trans hrun)
      rcases hright with ⟨-, hsame⟩ | ⟨hok', -⟩
      · -- The first missing name has its place now.
        have hplaced := hgrown.keep (Function.update_self ..)
        rw [← hgrown.forest.lookup_eq, hsame, hf] at hplaced
        cases hplaced
      · exact herr hok'

/-- A creation does what it should exactly if the memory for the first missing name is refused, or there is
memory and room for all the missing names. -/
theorem names_right_iff (hrun : system.Run Allowed tree) (hpath : Absolute path)
    (hmems : Available tree.used mems) :
    NamesRight tree.fs cut mems path addr size ↔ NamesSafe tree.fs cut mems path := by
  have h := inv_of_run hrun
  cases hnames : components cut path with
  | error fault =>
    have hcreate : tree.fs.fileCreate cut mems path addr size = .error fault := by
      rw [fileCreate, if_neg (by simp [hpath.1]), hnames]
      rfl
    simp [NamesRight, NamesSafe, hcreate, hnames]
  | ok names =>
    have hcreate := fileCreate_of_components tree.fs mems addr size hpath hnames
    have hsafe : NamesSafe tree.fs cut mems path ↔ (tree.fs.map.missing [] names ≠ [] ∧ (nextBlock mems).err ≠ .ok ∨
          (∀ c ∈ tree.fs.map.missing [] names, c.length < fileMaxNameLen) ∧
            Enough (tree.fs.map.missing [] names).length mems ∧
            (tree.fs.map (pathNames path) ≠ none ∨ pathNames path <+: names)) := by simp [NamesSafe, hnames]
    rw [hsafe]
    by_cases hgood : (∀ c ∈ tree.fs.map.missing [] names, c.length < fileMaxNameLen) ∧
        Enough (tree.fs.map.missing [] names).length mems
    · rw [h.names_right_of_enough hmems hcreate hgood.1 hgood.2]
      refine ⟨fun hfound ↦ .inr ⟨hgood.1, hgood.2, hfound⟩, ?_⟩
      rintro (⟨hmissing, hfails⟩ | ⟨-, -, hfound⟩)
      · obtain ⟨c, rest, hcons⟩ := List.exists_cons_of_ne_nil hmissing
        rw [hcons] at hgood
        exact absurd (enough_succ.mp hgood.2).1 hfails
      · exact hfound
    · by_cases hok : (nextBlock mems).err = .ok
      · grind [h.not_names_right]
      · have hmissing : tree.fs.map.missing [] names ≠ [] := by
          intro hnil
          exact hgood ⟨by simp [hnil], by simp [hnil, Enough]⟩
        refine iff_of_true ?_ (.inl ⟨hmissing, hok⟩)
        obtain ⟨c, rest, hcons⟩ := List.exists_cons_of_ne_nil hmissing
        obtain ⟨pre, d, -, hd, hskip, hnone⟩ :=
          h.forest.createLoop_skip (p := []) (pathType path) addr size names mems h.forest.root_eq
        have hf := hnone c rest hcons
        rw [show (tree.fs.view tree.fs.lookup).missing [] names = c :: rest from hcons,
          h.forest.createLoop_nomem hd hf hok] at hskip
        exact ⟨_, _, hcreate.trans hskip, .inl ⟨hok, rfl⟩⟩

/-! ### An example -/

theorem names_right_iff_example :
    NamesRight exampleTree.fs FileState.exampleCut exampleMems FileState.examplePath 7 2 := by
  refine (names_right_iff exampleTree_run (by decide) (by decide)).mpr ⟨pathNames FileState.examplePath, ?_, .inr ?_⟩
  · decide +kernel
  · decide +kernel

/-- A name of 32 letters leaves no terminator in `name`; and without memory for the second name the first one
stays behind. -/
theorem names_overrun : system.Run Allowed exampleTree ∧
    ¬ NamesRight exampleTree.fs FileState.exampleCut exampleMems (slash :: List.replicate 32 0x61#8) 0 0 ∧
    ¬ NamesRight exampleTree.fs FileState.exampleCut [⟨.ok, 8192, 0⟩] FileState.examplePath 0 0 := by
  have h := inv_of_run exampleTree_run
  refine ⟨exampleTree_run, h.not_names_right [List.replicate 32 0x61#8] (by decide) ?_ rfl ?_,
    h.not_names_right (pathNames FileState.examplePath) (by decide) ?_ rfl ?_⟩
  · exact fileCreate_of_components _ _ _ _ (by decide) (by decide +kernel)
  · decide +kernel
  · exact fileCreate_of_components _ _ _ _ (by decide) (by decide +kernel)
  · decide +kernel

end FileTree

end Lanthorn
