import Lanthorn.Usr.FileTree

/-!
# Deletion of files

Model of `file_delete` in `fssrv/file.c` and of the recursion `_file_delete`, which empties a directory child by
child and then takes it out of the tree of its parent. The parent is what the member `ffile` holds, and nothing ever
sets `ffile`: it is what the memory of the file held before.

`FileTree.delete_removes` says that a deletion does what it should if the memory of every file happened to hold the
address of its directory there, and the path is not the root. Then the recursion ends for every tree, and only
the trees of the parents of the deleted files change (`Fs.Touches`).
-/

namespace Lanthorn

open Function List

open Library Paths

namespace Fs

/-! ### The functions -/

/-- `rbt_delete(&file->ffile->subfile_rbt, &file->fa_rbt_node)`. With `ffile` null it is taken to fail at once, also
where `rbt_delete` would not come to touch the root of the tree. -/
def unlink (fs : Fs) (file : ℕ) : Result Fs := do
  let ffile := (fs.file file).ffile
  if ffile = 0 then throw .null
  let t ← (fs.subRbt ffile).rbtDelete (wordAdd file faRbtNode)
  return fs.setSub ffile t

mutual

/-- `_file_delete`. -/
def fileDeleteRec : ℕ → Fs → ℕ → Result Fs
  | 0, _, _ => throw .endless
  | fuel + 1, fs, file => do
    if (fs.file file).type = .entity then fs.unlink file
    else do
      let fs ← deleteLoop fuel fs file
      fs.unlink file

/-- The loop of `_file_delete` over the children of a directory. -/
def deleteLoop : ℕ → Fs → ℕ → Result Fs
  | 0, _, _ => throw .endless
  | fuel + 1, fs, file => do
    let node ← (fs.subRbt file).rbtFirst
    if node = 0 then return fs
    else do
      let fs ← fileDeleteRec fuel fs (containerOf node faRbtNode)
      deleteLoop fuel fs file

end

/-- `file_delete`. -/
def fileDelete (fs : Fs) (cut : Cut) (path : Str) : Result (Errno × Fs) := do
  let (err, file) ← fs.fileFind cut path
  if err ≠ .ok then return (err, fs)
  let fs ← fileDeleteRec addressSpace fs file
  return (err, fs)

/-! ### What a deletion leaves alone -/

/-- Only the trees of the directories at some places change: the roots of these trees, and the nodes in them. -/
structure Touches (fs fs' : Fs) (place : List Str → Option ℕ) (dirs : List Str → Prop) : Prop where
  file_eq : ∀ g, fs'.file g = { fs.file g with subfile := (fs'.file g).subfile }
  sub_eq : ∀ g, (∀ q, dirs q → place q ≠ some g) → (fs'.file g).subfile = (fs.file g).subfile
  tree_eq : ∀ n, (∀ q c g, dirs q → place (q ++ [c]) = some g → n ≠ g + faRbtNode) → fs.tree.AgreeAt fs'.tree n
  root_eq : fs'.root = fs.root

section Touches

variable {fs fs' fs'' : Fs} {place place' : List Str → Option ℕ} {dirs dirs' : List Str → Prop}

theorem Touches.refl : Touches fs fs place dirs := ⟨fun _ ↦ rfl, fun _ _ ↦ rfl, fun _ _ ↦ .refl _ _, rfl⟩

theorem Touches.trans (h : Touches fs fs' place dirs) (h' : Touches fs' fs'' place dirs) :
    Touches fs fs'' place dirs := by
  refine ⟨fun g ↦ ?_, fun g hg ↦ (h'.sub_eq g hg).trans (h.sub_eq g hg),
    fun n hn ↦ (h.tree_eq n hn).trans (h'.tree_eq n hn), h'.root_eq.trans h.root_eq⟩
  rw [h'.file_eq g, h.file_eq g]

theorem Touches.mono (h : Touches fs fs' place dirs) (hdirs : ∀ q, dirs q → dirs' q)
    (hplace : ∀ {q g}, place q = some g → place' q = some g) : Touches fs fs' place' dirs' :=
  ⟨h.file_eq, fun g hg ↦ h.sub_eq g fun q hq hat ↦ hg q (hdirs q hq) (hplace hat),
    fun n hn ↦ h.tree_eq n fun q c g hq hat ↦ hn q c g (hdirs q hq) (hplace hat), h.root_eq⟩

theorem Touches.entry_eq (h : Touches fs fs' place dirs) (g : ℕ) : fs'.entry g = fs.entry g := by
  rw [entry, h.file_eq g, entry]

end Touches

/-! ### Taking one file out -/

section Unlink

variable {fs : Fs} {place : List Str → Option ℕ} {p : List Str} {c : Str} {d f : ℕ}

theorem update_none_eq_some {q : List Str} {g : ℕ} (h : update place p none q = some g) :
    q ≠ p ∧ place q = some g := by grind

theorem Forest.unlink (h : fs.Forest place) (hd : place p = some d) (hf : place (p ++ [c]) = some f)
    (hleaf : ∀ c', place (p ++ [c] ++ [c']) = none) (hparent : (fs.file f).ffile = d) :
    ∃ fs', fs.unlink f = .ok fs' ∧ fs'.Forest (update place (p ++ [c]) none) ∧ Touches fs fs' place (· = p) := by
  obtain ⟨xs, hnamed, hxs⟩ := h.sub hd
  have hroom := (h.room hf).2
  have hword : f + faRbtNode < addressSpace := by
    simp only [faRbtNode, fileSize] at hroom ⊢
    omega
  have hmem : f + faRbtNode ∈ xs := (hxs _).mpr ⟨c, f, hf, rfl⟩
  obtain ⟨t, hrun, hnamed', hframes⟩ := Rbt.Keyed.rbtDelete hnamed hmem
  refine ⟨fs.setSub d t, ?_, ⟨?_, ?_, ?_, ?_, ?_, ?_⟩, ⟨fun g ↦ ?_, fun g hg ↦ ?_, fun n hn ↦ ?_, rfl⟩⟩
  · simp [Fs.unlink, hparent, (h.room hd).1, wordAdd_of_lt hword, hrun]
  · rw [update_of_ne (by simp)]
    exact h.root_eq
  · exact fun hq hq' ↦ h.inj (update_none_eq_some hq).2 (update_none_eq_some hq').2
  · grind [h.parent]
  · intro q g hg
    obtain ⟨hq, hg⟩ := update_none_eq_some hg
    by_cases hqp : q = p
    · -- The directory has one child less.
      subst hqp
      obtain rfl : d = g := by simpa [hd] using hg
      refine ⟨xs.erase (f + faRbtNode), ?_, fun n ↦ ?_⟩
      · rw [nameAt_setSub, subRbt_setSub_self]
        exact hnamed'
      · rw [hnamed.nodup.mem_erase_iff, hxs]
        grind [h.inj]
    · -- The trees of the other directories are apart from what has been written.
      obtain ⟨xs', hnamed'', hxs'⟩ := h.sub hg
      refine ⟨xs', subRbt_frame hnamed'' (fun n _ ↦ by rw [nameAt_setSub]) ?_ fun n hn ↦ hframes n ?_, fun n ↦ ?_⟩
      · rw [file_setSub_of_ne t]
        rintro rfl
        exact hqp (h.inj hg hd)
      · obtain ⟨c', g', hg', rfl⟩ := (hxs' n).mp hn
        intro hmem'
        obtain ⟨c'', g'', hg'', heq⟩ := (hxs _).mp hmem'
        exact h.node_ne hqp hg' hg'' heq
      · rw [hxs']
        refine exists_congr fun c' ↦ exists_congr fun g' ↦ ?_
        have hne : q ++ [c'] ≠ p ++ [c] := fun heq ↦ hqp (append_inj' heq rfl).1
        rw [update_of_ne hne]
  · intro q c' g hg
    rw [name_setSub]
    exact h.name_eq (update_none_eq_some hg).2
  · exact fun hg ↦ h.room (update_none_eq_some hg).2
  · by_cases hg : g = d
    · rw [hg, file_setSub_self]
    · rw [file_setSub_of_ne t hg]
  · rw [file_setSub_of_ne t]
    rintro rfl
    exact hg p rfl hd
  · refine hframes n fun hmem' ↦ ?_
    obtain ⟨c', g, hg, heq⟩ := (hxs n).mp hmem'
    exact hn p c' g rfl hg heq

end Unlink

/-! ### The recursion -/

/-- `ffile` leads to the directory of a file. -/
def Parents (fs : Fs) (place : List Str → Option ℕ) : Prop :=
  ∀ ⦃p c f⦄, place (p ++ [c]) = some f → place p = some (fs.file f).ffile

/-- The files are a finite tree, only directories have children, and `ffile` leads to the directory of a file. -/
structure Tidy (fs : Fs) (place : List Str → Option ℕ) : Prop where
  forest : fs.Forest place
  parents : fs.Parents place
  dirs : ∀ {p c f d}, place (p ++ [c]) = some f → place p = some d → (fs.file d).type = .dir
  finite : {q | place q ≠ none}.Finite

def prune (place : List Str → Option ℕ) (p : List Str) : List Str → Option ℕ :=
  fun q ↦ if p <+: q then none else place q

def emptied (place : List Str → Option ℕ) (p : List Str) : List Str → Option ℕ :=
  fun q ↦ if p <+: q ∧ q ≠ p then none else place q

def subtree (place : List Str → Option ℕ) (p : List Str) : Set (List Str) := {q | p <+: q ∧ place q ≠ none}

def below (place : List Str → Option ℕ) (p : List Str) : Set (List Str) :=
  {q | p <+: q ∧ q ≠ p ∧ place q ≠ none}

section Places

variable {place : List Str → Option ℕ} {p q : List Str} {c : Str} {g : ℕ}

theorem of_prune (h : prune place p q = some g) : place q = some g := by
  unfold prune at h
  split_ifs at h
  exact h

theorem of_emptied (h : emptied place p q = some g) : place q = some g := by
  unfold emptied at h
  split_ifs at h
  exact h

theorem lt_of_child (h : p ++ [c] <+: q) : p <+: q ∧ q ≠ p := by
  refine ⟨.trans ⟨[c], rfl⟩ h, ?_⟩
  rintro rfl
  have hlength := h.length_le
  simp at hlength

theorem prune_self_parent : prune place (p ++ [c]) p = place p :=
  if_neg fun hle ↦ (lt_of_child hle).2 rfl

theorem emptied_self : emptied place p p = place p := if_neg fun h ↦ h.2 rfl

theorem emptied_child : emptied place p (p ++ [c]) = none :=
  if_pos ⟨⟨[c], rfl⟩, by simp⟩

theorem emptied_prune : emptied (prune place (p ++ [c])) p = emptied place p := by
  funext q
  unfold emptied
  split_ifs with h
  · rfl
  · exact if_neg fun hle ↦ h (lt_of_child hle)

theorem update_emptied : update (emptied place p) p none = prune place p := by
  funext q
  by_cases hq : q = p
  · rw [hq, update_self, prune, if_pos ⟨[], append_nil p⟩]
  · rw [update_of_ne hq]
    simp [emptied, prune, hq]

theorem prune_emptied : prune (emptied place p) p = prune place p := by
  funext q
  unfold prune
  split_ifs with hle
  · rfl
  · exact if_neg fun h ↦ hle h.1

theorem emptied_of_leaf {fs : Fs} (h : fs.Forest place) (hleaf : ∀ c, place (p ++ [c]) = none) :
    emptied place p = place := by
  funext q
  unfold emptied
  split_ifs with hq
  · obtain ⟨⟨rest, rfl⟩, hne⟩ := hq
    have hrest : rest ≠ [] := fun hnil ↦ hne (by rw [hnil, append_nil])
    obtain ⟨c, rest, rfl⟩ := exists_cons_of_ne_nil hrest
    have hnone := h.none_below (hleaf c) rest
    rw [append_assoc, singleton_append] at hnone
    exact hnone.symm
  · rfl

theorem subtree_eq (hp : place p ≠ none) : subtree place p = insert p (below place p) := by grind [subtree, below]

theorem below_prune : below (prune place (p ++ [c])) p = below place p \ subtree place (p ++ [c]) := by
  ext q
  simp only [below, subtree, prune, Set.mem_ofPred_eq, Set.mem_sdiff]
  grind

theorem subtree_subset_below : subtree place (p ++ [c]) ⊆ below place p :=
  fun _ hq ↦ ⟨(lt_of_child hq.1).1, (lt_of_child hq.1).2, hq.2⟩

theorem ncard_subtree (hfinite : {q | place q ≠ none}.Finite) (hp : place p ≠ none) :
    (subtree place p).ncard = (below place p).ncard + 1 := by
  rw [subtree_eq hp]
  exact Set.ncard_insert_of_notMem (fun h ↦ h.2.1 rfl) (hfinite.subset fun _ hq ↦ hq.2.2)

theorem ncard_below_prune (hfinite : {q | place q ≠ none}.Finite) :
    (below (prune place (p ++ [c])) p).ncard + (subtree place (p ++ [c])).ncard = (below place p).ncard := by
  rw [below_prune]
  exact Set.ncard_sdiff_add_ncard_of_subset subtree_subset_below (hfinite.subset fun _ hq ↦ hq.2.2)

end Places

section Recursion

variable {fs fs' : Fs} {place place' : List Str → Option ℕ} {dirs : List Str → Prop} {p : List Str} {c : Str}
  {d f : ℕ}

theorem Tidy.of_touches (h : fs.Tidy place) (htouches : Touches fs fs' place dirs) (hforest : fs'.Forest place')
    (hplace : ∀ {q g}, place' q = some g → place q = some g) : fs'.Tidy place' := by
  refine ⟨hforest, fun p c f hf ↦ ?_, fun {p c f d} hf hd ↦ ?_, h.finite.subset fun q hq ↦ ?_⟩
  · obtain ⟨d, hd⟩ := hforest.parent hf
    have hparent := h.parents (hplace hf)
    rw [hplace hd] at hparent
    rw [htouches.file_eq f, hd]
    exact hparent
  · rw [htouches.file_eq d]
    exact h.dirs (hplace hf) (hplace hd)
  · obtain ⟨g, hg⟩ := Option.ne_none_iff_exists'.mp hq
    exact Option.ne_none_iff_exists'.mpr ⟨g, hplace hg⟩

theorem Tidy.unlink (h : fs.Tidy place) (hf : place (p ++ [c]) = some f)
    (hleaf : ∀ c', place (p ++ [c] ++ [c']) = none) :
    ∃ fs', fs.unlink f = .ok fs' ∧ fs'.Tidy (prune place (p ++ [c])) ∧
      Touches fs fs' place (fun q ↦ q = p ∨ p ++ [c] <+: q) := by
  obtain ⟨fs', hrun, hforest, htouches⟩ := h.forest.unlink (h.parents hf) hf hleaf rfl
  rw [← emptied_of_leaf h.forest hleaf, update_emptied] at hforest
  exact ⟨fs', hrun, h.of_touches htouches hforest of_prune, htouches.mono (fun _ ↦ .inl) id⟩

theorem Tidy.delete_fuel (fuel : ℕ) :
    (∀ {fs : Fs} {place : List Str → Option ℕ} {p : List Str} {c : Str} {f : ℕ}, fs.Tidy place →
      place (p ++ [c]) = some f → 2 * (subtree place (p ++ [c])).ncard ≤ fuel →
      ∃ fs', fileDeleteRec fuel fs f = .ok fs' ∧ fs'.Tidy (prune place (p ++ [c])) ∧
        Touches fs fs' place (fun q ↦ q = p ∨ p ++ [c] <+: q)) ∧
    (∀ {fs : Fs} {place : List Str → Option ℕ} {p : List Str} {d : ℕ}, fs.Tidy place → place p = some d →
      2 * (below place p).ncard + 1 ≤ fuel → ∃ fs', deleteLoop fuel fs d = .ok fs' ∧ fs'.Tidy (emptied place p) ∧
        Touches fs fs' place (fun q ↦ p <+: q)) := by
  induction fuel with
  | zero =>
    refine ⟨fun {fs place p c f} h hf hfuel ↦ ?_, fun {fs place p d} h hd hfuel ↦ by omega⟩
    rw [ncard_subtree h.finite (by simp [hf])] at hfuel
    omega
  | succ fuel ih =>
    refine ⟨fun {fs place p c f} h hf hfuel ↦ ?_, fun {fs place p d} h hd hfuel ↦ ?_⟩
    · rw [ncard_subtree h.finite (by simp [hf])] at hfuel
      rw [fileDeleteRec]
      split_ifs with htype
      · refine h.unlink hf fun c' ↦ ?_
        by_contra hchild
        obtain ⟨g, hg⟩ := Option.ne_none_iff_exists'.mp hchild
        rw [h.dirs hg hf] at htype
        cases htype
      · obtain ⟨fs₁, hloop, h₁, htouches₁⟩ := ih.2 h hf (by omega)
        obtain ⟨fs₂, hunlink, h₂, htouches₂⟩ := h₁.unlink (c := c) (emptied_self.trans hf) fun _ ↦ emptied_child
        refine ⟨fs₂, bind_eq_ok.mpr ⟨fs₁, hloop, hunlink⟩, ?_, ?_⟩
        · rwa [prune_emptied] at h₂
        · exact (htouches₁.mono (fun _ ↦ .inr) id).trans (htouches₂.mono (fun _ ↦ id) of_emptied)
    · obtain ⟨xs, hnamed, hxs⟩ := h.forest.sub hd
      have hfirst : (fs.subRbt d).rbtFirst = .ok (xs.headD 0) := Rbt.Keyed.rbtFirst hnamed
      rw [deleteLoop, hfirst]
      cases xs with
      | nil =>
        have hleaf : ∀ c, place (p ++ [c]) = none := by
          intro c
          by_contra hchild
          obtain ⟨g, hg⟩ := Option.ne_none_iff_exists'.mp hchild
          exact not_mem_nil ((hxs _).mpr ⟨c, g, hg, rfl⟩)
        refine ⟨fs, rfl, ?_, .refl⟩
        rw [emptied_of_leaf h.forest hleaf]
        exact h
      | cons x xs =>
        obtain ⟨c, g, hg, rfl⟩ := (hxs x).mp mem_cons_self
        have hsplit := ncard_below_prune (p := p) (c := c) h.finite
        have hcount := ncard_subtree h.finite (p := p ++ [c]) (by simp [hg])
        obtain ⟨fs₁, hrun₁, h₁, htouches₁⟩ := ih.1 h hg (by omega)
        obtain ⟨fs₂, hrun₂, h₂, htouches₂⟩ := ih.2 h₁ (prune_self_parent.trans hd) (by omega)
        rw [emptied_prune] at h₂
        refine ⟨fs₂, ?_, h₂, .trans (htouches₁.mono ?_ id) (htouches₂.mono (fun _ ↦ id) of_prune)⟩
        · have hne : g + faRbtNode ≠ 0 := by simp [faRbtNode]
          rw [← Forest.containerOf_node (h.forest.room hg).2] at hrun₁
          refine bind_eq_ok.mpr ⟨_, rfl, ?_⟩
          rw [headD_cons, if_neg hne]
          exact bind_eq_ok.mpr ⟨fs₁, hrun₁, hrun₂⟩
        · rintro q (rfl | hle)
          · exact ⟨[], append_nil q⟩
          · exact (lt_of_child hle).1

end Recursion

/-! ### What the memory of the files held -/

/-- The memory for the names that are missing, from a directory on, held the address of the directory that the file
goes into. -/
def Linked (place : List Str → Option ℕ) : List Str → List Str → ℕ → List Block → Prop
  | [], _, _, _ => True
  | c :: rest, p, d, mems =>
    if place (p ++ [c]) = none then (nextBlock mems).err = .ok →
      (nextBlock mems).ffile = d ∧ Linked place rest (p ++ [c]) (nextBlock mems).addr mems.tail
    else Linked place rest (p ++ [c]) ((place (p ++ [c])).getD 0) mems

instance decidableLinked (place : List Str → Option ℕ) (comps p : List Str) (d : ℕ) (mems : List Block) :
    Decidable (Linked place comps p d mems) :=
  match comps with
  | [] => inferInstanceAs (Decidable True)
  | c :: rest =>
    let _ := decidableLinked place rest (p ++ [c]) (nextBlock mems).addr mems.tail
    let _ := decidableLinked place rest (p ++ [c]) ((place (p ++ [c])).getD 0) mems
    inferInstanceAs (Decidable (if place (p ++ [c]) = none then (nextBlock mems).err = .ok →
        (nextBlock mems).ffile = d ∧ Linked place rest (p ++ [c]) (nextBlock mems).addr mems.tail
      else Linked place rest (p ++ [c]) ((place (p ++ [c])).getD 0) mems))

section Linked

variable {fs fs' : Fs} {place place' : List Str → Option ℕ} {p comps : List Str} {c : Str} {d f ffile : ℕ}
  {mems : List Block} {e : Entry}

theorem Linked.congr (hplace : ∀ c q, place' (p ++ c :: q) = place (p ++ c :: q))
    (h : Linked place comps p d mems) : Linked place' comps p d mems := by
  induction comps generalizing p d mems with
  | nil => trivial
  | cons c rest ih =>
    have hrest : ∀ c' q, place' (p ++ [c] ++ c' :: q) = place (p ++ [c] ++ c' :: q) := by
      intro c' q
      rw [append_assoc, singleton_append]
      exact hplace c (c' :: q)
    unfold Linked at h ⊢
    rw [hplace c []]
    split_ifs at h ⊢
    · exact fun hok ↦ ⟨(h hok).1, ih hrest (h hok).2⟩
    · exact ih hrest h

theorem Added.parents (h : Added fs place (p ++ [c]) f e ffile fs') (hparents : fs.Parents place)
    (hd : place p = some ffile) (hnone : place (p ++ [c]) = none) :
    fs'.Parents (update place (p ++ [c]) (some f)) := by
  intro q c' g hg
  by_cases heq : q ++ [c'] = p ++ [c]
  · grind [append_inj', h.ffile_self]
  · rw [update_of_ne heq] at hg
    have hq := hparents hg
    rw [h.ffile_of hg, update_of_ne, hq]
    rintro rfl
    rw [hnone] at hq
    cases hq

theorem Forest.createLoop_parents {type : FileType} {addr size : ℕ} {err : Errno} (h : fs.Forest place)
    (hparents : fs.Parents place) (hd : place p = some d) (hfresh : Fresh place mems)
    (hlinked : Linked place comps p d mems) (hrun : createLoop type addr size comps fs d mems = .ok (err, fs')) :
    ∃ place', fs'.Forest place' ∧ fs'.Parents place' := by
  induction comps generalizing fs place p d mems with
  | nil =>
    cases hrun
    exact ⟨place, h, hparents⟩
  | cons c rest ih =>
    unfold Linked at hlinked
    cases hf : place (p ++ [c]) with
    | some f =>
      rw [hf, if_neg (by simp)] at hlinked
      rw [createLoop_exist h hd hf] at hrun
      exact ih h hparents hf hfresh hlinked hrun
    | none =>
      rw [if_pos hf] at hlinked
      by_cases hok : (nextBlock mems).err = .ok
      swap
      · grind [createLoop_nomem]
      by_cases hlong : fileMaxNameLen ≤ c.length
      · rw [createLoop_long h hd hf hok hlong] at hrun
        cases hrun
      obtain ⟨hffile, hlinked⟩ := hlinked hok
      have hblock : nextBlock mems ∈ mems := by
        rw [nextBlock_mem hok]
        exact mem_cons_self
      obtain ⟨fs₁, hadded, hnew⟩ := createLoop_new type addr size rest h hd hf hok (hfresh.vacant _ hblock hok)
        (not_le.mp hlong)
      rw [hnew] at hrun
      refine ih hadded.forest (hadded.parents hparents (by rw [hffile, hd]) hf) (update_self ..)
        (hfresh.tail hok _) (hlinked.congr fun c' q ↦ ?_) hrun
      rw [update_of_ne (by simp)]

theorem fileWrite_ffile {cut : Cut} {path : Str} {addr size : ℕ} {err : Errno}
    (hrun : fs.fileWrite cut path addr size = .ok (err, fs')) (g : ℕ) : (fs'.file g).ffile = (fs.file g).ffile := by
  obtain ⟨⟨err', file⟩, -, hrun⟩ := bind_eq_ok.mp hrun
  dsimp only at hrun
  split_ifs at hrun
  · cases hrun
    rfl
  · cases hrun
    grind

end Linked

end Fs

/-! ### The map without a subtree -/

namespace FileMap

def remove (m : FileMap) (comps : List Str) : FileMap := fun q ↦ if comps <+: q then none else m q

theorem remove_eq_some {m : FileMap} {comps q : List Str} {e : Fs.Entry} (h : m.remove comps q = some e) :
    ¬ comps <+: q ∧ m q = some e := by
  unfold remove at h
  split_ifs at h with hle
  exact ⟨hle, h⟩

theorem Wf.remove {m : FileMap} (h : m.Wf) {comps : List Str} (hne : comps ≠ []) : (m.remove comps).Wf := by
  refine ⟨?_, fun hq ↦ h.typed (remove_eq_some hq).2, fun {q c e} hq ↦ ?_, ?_⟩
  · obtain ⟨e, he, hdir⟩ := h.root
    exact ⟨e, (if_neg fun hle ↦ hne (List.length_eq_zero_iff.mp (Nat.le_zero.mp hle.length_le))).trans he, hdir⟩
  · obtain ⟨hle, hq⟩ := remove_eq_some hq
    obtain ⟨d, hd, hdir⟩ := h.parent hq
    exact ⟨d, (if_neg fun hle' ↦ hle (hle'.trans ⟨[c], rfl⟩)).trans hd, hdir⟩
  · obtain ⟨paths, hpaths⟩ := h.finite
    refine ⟨paths, fun q hq ↦ hpaths q ?_⟩
    obtain ⟨e, he⟩ := Option.ne_none_iff_exists'.mp hq
    simp [(remove_eq_some he).2]

end FileMap

/-! ### Runs -/

inductive DeletingCall
  | change (c : TreeCall)
  | delete (path : Str) (cut : Cut)

namespace FileTree

open Fs

def deletingNext (tree : FileTree) : DeletingCall → Result FileTree
  | .change c => tree.next c
  | .delete path cut => do
    let (_, fs) ← tree.fs.fileDelete cut path
    return { tree with fs := fs }

def deletingSystem : System FileTree DeletingCall := System.ofNext Initial deletingNext

/-- The memory of every new file held the address of the directory that the file goes into. -/
def LinkedCall (tree : FileTree) : TreeCall → Prop
  | .create path _ _ _ mems => Linked tree.fs.lookup (pathNames path) [] tree.fs.root mems
  | .write _ _ _ _ => True

instance (tree : FileTree) (c : TreeCall) : Decidable (tree.LinkedCall c) := match c with
  | .create _ _ _ _ _ => inferInstanceAs (Decidable (Linked _ _ _ _ _))
  | .write _ _ _ _ => inferInstanceAs (Decidable True)

/-- Besides what is asked of the other calls: new files find the address of their directory in their memory, and the
root is not deleted. -/
def Careful (tree : FileTree) : DeletingCall → Prop
  | .change c => tree.Allowed c ∧ tree.LinkedCall c
  | .delete path cut => Absolute path ∧ cut.Returns path ∧ pathNames path ≠ []

instance (tree : FileTree) (c : DeletingCall) : Decidable (tree.Careful c) := match c with
  | .change _ => inferInstanceAs (Decidable (_ ∧ _))
  | .delete _ _ => inferInstanceAs (Decidable (_ ∧ _))

/-- What `file_delete` is for: it returns, with `E_OK` exactly for a path that exists and is not the root; then the
path and all below it are gone, everything else is as before, and only the trees of the parents of what is gone
have changed. -/
def DeleteRight (fs : Fs) (cut : Cut) (path : Str) : Prop :=
  ∃ err fs', fs.fileDelete cut path = .ok (err, fs') ∧
    (err = .ok ↔ fs.lookup (pathNames path) ≠ none ∧ pathNames path ≠ []) ∧
    (err ≠ .ok → fs' = fs) ∧
    (err = .ok → fs'.map = fs.map.remove (pathNames path) ∧
      Touches fs fs' fs.lookup fun q ↦ q = (pathNames path).dropLast ∨ pathNames path <+: q)

variable {tree tree' : FileTree} {path : Str} {cut : Cut} {p : List Str} {fs' : Fs}

theorem Inv.tidy (h : tree.Inv) (hparents : tree.fs.Parents tree.fs.lookup) : tree.fs.Tidy tree.fs.lookup := by
  refine ⟨h.forest, hparents, fun {p c f d} hf hd ↦ ?_, ?_⟩
  · obtain ⟨e, he, hdir⟩ := h.wf.parent (q := p) (c := c) (e := tree.fs.entry f) (by simp [Fs.map, view, hf])
    rw [Fs.map, view, hd] at he
    obtain rfl := Option.some_inj.mp he
    exact hdir
  · obtain ⟨paths, hpaths⟩ := h.wf.finite
    exact (finite_toSet paths).subset fun q hq ↦ hpaths q fun hnone ↦ hq (map_eq_none.mp hnone)

theorem Inv.ncard_subtree_le (h : tree.Inv) (p : List Str) :
    (subtree tree.fs.lookup p).ncard ≤ addressSpace / fileSize + 1 := by
  have hmaps : ∀ q ∈ subtree tree.fs.lookup p, (tree.fs.lookup q).getD 0 / fileSize ∈
      (Finset.range (addressSpace / fileSize + 1) : Set ℕ) := by
    intro q hq
    obtain ⟨g, hg⟩ := Option.ne_none_iff_exists'.mp hq.2
    rw [hg, Option.getD_some, Finset.coe_range, Set.mem_Iio]
    exact Nat.lt_succ_of_le (Nat.div_le_div_right (by have := (h.forest.room hg).2; omega))
  have hinj : Set.InjOn (fun q ↦ (tree.fs.lookup q).getD 0 / fileSize) (subtree tree.fs.lookup p) := by
    intro q hq q' hq' heq
    obtain ⟨g, hg⟩ := Option.ne_none_iff_exists'.mp hq.2
    obtain ⟨g', hg'⟩ := Option.ne_none_iff_exists'.mp hq'.2
    simp only [hg, hg', Option.getD_some] at heq
    refine h.forest.inj hg ?_
    by_contra hne
    have hapart := h.apart.forall (h.used hg) (h.used hg') fun hgg ↦ hne (hgg ▸ hg')
    simp only [Fs.Apart, fileSize] at hapart heq
    omega
  have hle := Set.ncard_le_ncard_of_injOn _ hmaps hinj (Finset.finite_toSet _)
  rwa [Set.ncard_coe_finset, Finset.card_range] at hle

theorem Inv.fileDeleteRec (h : tree.Inv) (hparents : tree.fs.Parents tree.fs.lookup) {c : Str} {f : ℕ}
    (hf : tree.fs.lookup (p ++ [c]) = some f) :
    ∃ fs', Fs.fileDeleteRec addressSpace tree.fs f = .ok fs' ∧ fs'.Tidy (prune tree.fs.lookup (p ++ [c])) ∧
      Touches tree.fs fs' tree.fs.lookup fun q ↦ q = p ∨ p ++ [c] <+: q := by
  refine (Tidy.delete_fuel addressSpace).1 (h.tidy hparents) hf ?_
  have hle := h.ncard_subtree_le (p ++ [c])
  simp only [addressSpace, fileSize] at hle ⊢
  omega

theorem map_of_prune {dirs : List Str → Prop} (hforest : fs'.Forest (prune tree.fs.lookup p))
    (htouches : Touches tree.fs fs' tree.fs.lookup dirs) : fs'.map = tree.fs.map.remove p := by
  funext q
  rw [Fs.map, hforest.lookup_eq, view, prune, FileMap.remove]
  split_ifs
  · rfl
  · rw [Fs.map, view]
    congr 1
    exact funext fun g ↦ htouches.entry_eq g

theorem Inv.prune {dirs : List Str → Prop} (h : tree.Inv) (hp : p ≠ [])
    (hforest : fs'.Forest (prune tree.fs.lookup p)) (htouches : Touches tree.fs fs' tree.fs.lookup dirs) :
    Inv { tree with fs := fs' } := by
  have hmap := map_of_prune hforest htouches
  have hlookup := hforest.lookup_eq
  have hold : ∀ {q g}, fs'.lookup q = some g → tree.fs.lookup q = some g := by
    intro q g hg
    rw [hlookup] at hg
    exact of_prune hg
  refine ⟨by rw [hlookup]; exact hforest, fun hg ↦ h.used (hold hg), h.apart, fun hg ↦ h.short (hold hg),
    fun hg ↦ h.terminated (hold hg), ?_, ?_⟩
  all_goals grind [htouches.file_eq, htouches.root_eq, h.rootName, h.wf.remove]

theorem Inv.delete (h : tree.Inv) (hparents : tree.fs.Parents tree.fs.lookup) (hpath : Absolute path)
    (hcut : cut.Returns path) (hroot : pathNames path ≠ []) :
    DeleteRight tree.fs cut path ∧ ∀ err fs', tree.fs.fileDelete cut path = .ok (err, fs') →
      Inv { tree with fs := fs' } ∧ fs'.Parents fs'.lookup := by
  have hfind := h.forest.fileFind hpath hcut
  cases hf : tree.fs.lookup (pathNames path) with
  | none =>
    have hrun : tree.fs.fileDelete cut path = .ok (.notfound, tree.fs) := by
      rw [fileDelete, hfind, hf]
      rfl
    refine ⟨⟨_, _, hrun, by simp [hf], fun _ ↦ rfl, by simp⟩, fun err fs' hrun' ↦ ?_⟩
    obtain ⟨-, rfl⟩ := ok_pair_inj (hrun.symm.trans hrun')
    exact ⟨h, hparents⟩
  | some f =>
    obtain ⟨p, c, hnames⟩ : ∃ p c, pathNames path = p ++ [c] :=
      ⟨_, _, (dropLast_append_getLast hroot).symm⟩
    have hf' := hf
    rw [hnames] at hf'
    obtain ⟨fs₁, hrec, htidy, htouches⟩ := h.fileDeleteRec hparents hf'
    have hrun : tree.fs.fileDelete cut path = .ok (.ok, fs₁) := by
      rw [fileDelete, hfind, hf]
      exact bind_eq_ok.mpr ⟨_, rfl, bind_eq_ok.mpr ⟨fs₁, hrec, rfl⟩⟩
    refine ⟨⟨_, _, hrun, by simp [hf, hroot], by simp, fun _ ↦ ?_⟩, fun err fs' hrun' ↦ ?_⟩
    · rw [hnames, dropLast_concat]
      exact ⟨map_of_prune htidy.forest htouches, htouches⟩
    · obtain ⟨-, rfl⟩ := ok_pair_inj (hrun.symm.trans hrun')
      refine ⟨h.prune (by simp) htidy.forest htouches, ?_⟩
      rw [htidy.forest.lookup_eq]
      exact htidy.parents

/-- The files are a tree in which `ffile` leads to the directories. -/
structure DeletingInv (tree : FileTree) : Prop where
  inv : tree.Inv
  parents : tree.fs.Parents tree.fs.lookup

theorem deletingInv_initial (hinit : Initial tree) : tree.DeletingInv := by
  have h := inv_initial hinit
  refine ⟨h, fun p c f hf ↦ ?_⟩
  obtain ⟨fs, mem, fs', hnew, hroom, hfs, hused⟩ := hinit
  have hlookup := h.forest.parent hf
  have hone := h.used hf
  obtain ⟨d, hd⟩ := hlookup
  have htwo := h.used hd
  rw [hused, mem_singleton] at hone htwo
  have hsame := h.forest.inj hf (by rw [hone, ← htwo]; exact hd)
  simp at hsame

theorem deletingInv_step (h : tree.DeletingInv) {c : DeletingCall} (hcareful : tree.Careful c)
    (hstep : tree.deletingNext c = .ok tree') : tree'.DeletingInv := by
  cases c with
  | change c =>
    obtain ⟨hallowed, hlinked⟩ := hcareful
    have hinv := inv_step h.inv hallowed hstep
    refine ⟨hinv, ?_⟩
    cases c with
    | create path addr size cut mems =>
      obtain ⟨hpath, hcut, hmems⟩ := hallowed
      obtain ⟨⟨err, fs'⟩, hrun, hstep⟩ := bind_eq_ok.mp hstep
      cases hstep
      rw [fileCreate_eq mems addr size hpath hcut] at hrun
      obtain ⟨place', hforest, hparents⟩ := h.inv.forest.createLoop_parents h.parents h.inv.forest.root_eq
        (hmems.fresh h.inv.used) hlinked hrun
      dsimp only
      rw [hforest.lookup_eq]
      exact hparents
    | write path addr size cut =>
      obtain ⟨hpath, hcut⟩ := hallowed
      obtain ⟨⟨err, fs'⟩, hrun, hstep⟩ := bind_eq_ok.mp hstep
      cases hstep
      obtain ⟨fs₁, hrun', hforest, -⟩ := h.inv.forest.fileWrite hpath hcut addr size
      obtain ⟨-, rfl⟩ := ok_pair_inj (hrun'.symm.trans hrun)
      intro p c f hf
      dsimp only at hf ⊢
      rw [hforest.lookup_eq] at hf ⊢
      rw [fileWrite_ffile hrun]
      exact h.parents hf
  | delete path cut =>
    obtain ⟨hpath, hcut, hroot⟩ := hcareful
    obtain ⟨⟨err, fs'⟩, hrun, hstep⟩ := bind_eq_ok.mp hstep
    cases hstep
    obtain ⟨hinv, hparents⟩ := (h.inv.delete h.parents hpath hcut hroot).2 err fs' hrun
    exact ⟨hinv, hparents⟩

/-- In every tree of files that careful calls build, every deletion but that of the root is right. -/
theorem delete_removes (hrun : deletingSystem.Run Careful tree) (hpath : Absolute path) (hcut : cut.Returns path)
    (hroot : pathNames path ≠ []) : DeleteRight tree.fs cut path := by
  have h : tree.DeletingInv := System.Run.invariant (P := DeletingInv) (fun _ hinit ↦ deletingInv_initial hinit)
    (fun _ _ _ hinv hcareful hstep ↦ deletingInv_step hinv hcareful hstep) hrun
  exact (h.inv.delete h.parents hpath hcut hroot).1

/-! ### An example -/

theorem exampleTree_deletingRun : deletingSystem.Run Careful exampleTree :=
  .init ⟨FileState.exampleMemory, ⟨.ok, 4096, 0⟩, _, rfl, by decide, rfl, rfl⟩

/-- `/a/b` is created in memory that held the addresses of the directories. -/
def exampleCareful : List DeletingCall :=
  [.change (.create FileState.examplePath 7 2 FileState.exampleCut [⟨.ok, 8192, 4096⟩, ⟨.ok, 12288, 8192⟩])]

theorem delete_removes_example : ∃ tree : FileTree, tree.fs.lookup (pathNames FileState.examplePath) = some 12288 ∧
    DeleteRight tree.fs FileState.exampleCut FileState.examplePath := by
  have hresult : (exampleCareful.foldlM (System.guarded deletingNext Careful .unset) exampleTree).map
      (fun tree ↦ tree.fs.lookup (pathNames FileState.examplePath)) = .ok (some 12288) := by decide +kernel
  obtain ⟨tree, hcalls, hview⟩ := map_eq_ok.mp hresult
  exact ⟨tree, hview, delete_removes (System.run_of_foldlM exampleTree_deletingRun hcalls) (by decide) (by decide)
    (by decide)⟩

/-- A file whose memory held 0 has no directory to be taken out of; and the root has none at all. -/
theorem delete_loses : (∃ tree : FileTree, system.Run Allowed tree ∧
      ¬ DeleteRight tree.fs FileState.exampleCut FileState.examplePath) ∧
    ¬ DeleteRight exampleTree.fs FileState.exampleCut [slash] := by
  have hresult : (exampleCreate.foldlM (System.guarded next Allowed .unset) exampleTree).map
      (fun tree ↦ (tree.fs.fileDelete FileState.exampleCut FileState.examplePath).map fun _ ↦ ()) =
      .ok (.error .null) := by decide +kernel
  have hroot : (exampleTree.fs.fileDelete FileState.exampleCut [slash]).map (fun _ ↦ ()) = .error .null := by
    decide +kernel
  refine ⟨?_, fun hright ↦ ?_⟩
  · obtain ⟨tree, hcalls, hview⟩ := map_eq_ok.mp hresult
    refine ⟨tree, System.run_of_foldlM exampleTree_run hcalls, fun hright ↦ ?_⟩
    obtain ⟨err, fs', hrun, -⟩ := hright
    rw [hrun] at hview
    cases hview
  · obtain ⟨err, fs', hrun, -⟩ := hright
    rw [hrun] at hroot
    cases hroot

end FileTree

end Lanthorn
