import Lanthorn.Library.Run
import Lanthorn.Usr.File

/-!
# The file service as a map

What the file service is for: a finite map from lists of names to entries, a type with data and size, in which
every entry but the first has a parent (`FileMap`, `FileMap.Wf`). `FileMap.add` is the creation of a path with
the directories above it that are missing, `FileMap.write` the overwriting of an entry.

`Fs.Forest.createLoop_ok` says that `file_create` does what `FileMap.add` says, and
`FileState.file_map_contract` that every run of `file_create`, `file_find`, `file_read` and `file_write` follows
the map. Assumes, for every call: `path_cut` returns its buffer, and `malloc` returns memory apart from all that it
has returned before; and for creations, every component has room in `name`.
-/

namespace Lanthorn

open Function List

open Library Paths

/-! ### The map -/

/-- The entries of the files by their places. -/
abbrev FileMap := List Str → Option Fs.Entry

namespace FileMap

/-- A directory as `file_create` makes it on its way. -/
abbrev dirEntry : Fs.Entry := ⟨.dir, 0, 0⟩

/-- The path and every list of names on the way to it have an entry; those that had one keep it. -/
def add (m : FileMap) (comps : List Str) (e : Fs.Entry) : FileMap := fun q ↦
  match m q with
  | some x => some x
  | none => if q <+: comps then some (if q = comps then e else dirEntry) else none

def write (m : FileMap) (comps : List Str) (data size : ℕ) : FileMap := fun q ↦
  if q = comps then (m q).map fun e ↦ { e with data := data, size := size } else m q

def missing (m : FileMap) (p : List Str) : List Str → List Str
  | [] => []
  | c :: rest => if m (p ++ [c]) = none then c :: rest else m.missing (p ++ [c]) rest

/-- A finite tree of directories: the first entry is a directory, every other one is in a directory, and the
directories are those whose name ends in `/`. -/
structure Wf (m : FileMap) : Prop where
  root : ∃ e, m [] = some e ∧ e.type = .dir
  typed : ∀ {q c e}, m (q ++ [c]) = some e → (e.type = .dir ↔ Closed c)
  parent : ∀ {q c e}, m (q ++ [c]) = some e → ∃ d, m q = some d ∧ d.type = .dir
  finite : ∃ paths : List (List Str), ∀ q, m q ≠ none → q ∈ paths

section Lemmas

variable {m : FileMap} {comps q : List Str} {e x : Fs.Entry} {c : Str}

theorem add_of_some (hq : m q = some x) : m.add comps e q = some x := by simp [add, hq]

theorem add_of_none (hq : m q = none) :
    m.add comps e q = if q <+: comps then some (if q = comps then e else dirEntry) else none := by simp [add, hq]

theorem add_of_all (hall : ∀ q, q <+: comps → m q ≠ none) : m.add comps e = m := by
  funext q
  cases hq : m q with
  | some x => exact add_of_some hq
  | none => rw [add_of_none hq, if_neg fun hle ↦ hall q hle hq]

theorem add_update (hle : q <+: comps) (hq : m q = none) :
    FileMap.add (update m q (some (if q = comps then e else dirEntry))) comps e = m.add comps e := by
  funext q'
  by_cases heq : q' = q
  · rw [heq, add_of_none hq, if_pos hle, add_of_some (update_self ..)]
  · simp only [add, update_of_ne heq]

theorem missing_suffix (m : FileMap) (p comps : List Str) : m.missing p comps <:+ comps := by
  induction comps generalizing p with
  | nil => exact suffix_refl _
  | cons c rest ih =>
    rw [missing]
    split_ifs
    · exact suffix_refl _
    · exact (ih (p ++ [c])).trans (suffix_cons c rest)

theorem missing_of_none {p : List Str} (hnone : ∀ c, m (p ++ [c]) = none) (comps : List Str) :
    m.missing p comps = comps := by
  cases comps with
  | nil => rfl
  | cons c rest => rw [missing, if_pos (hnone c)]

theorem closed_of_lt {t : Str} (hle : q ++ [c] <+: cutPath t) (hne : q ++ [c] ≠ cutPath t) : Closed c := by
  obtain ⟨rest, hrest⟩ := hle
  refine (splits_cutPath t).closed c ?_
  have hrest' : rest ≠ [] := fun hnil ↦ hne (by simpa [hnil] using hrest)
  rw [← hrest, dropLast_append_of_ne_nil hrest']
  simp

theorem closed_last {t : Str} (h : q ++ [c] = cutPath t) : Closed (slash :: t) ↔ Closed c := by
  have hsplits := splits_cutPath t
  rw [← h] at hsplits
  have hc : c ≠ [] := hsplits.ne_nil c (by simp)
  grind [hsplits.flatten_eq, Closed, List.getLast?_append_of_ne_nil]

theorem Wf.add (h : m.Wf) {t : Str} {names : List Str} (hnames : names <+: cutPath t)
    (htype : ∀ q c, names = q ++ [c] → (e.type = .dir ↔ Closed c)) : (m.add names e).Wf := by
  have hclosed : ∀ {q c}, q ++ [c] <+: names → q ++ [c] ≠ names → Closed c := by
    intro q c hle hne
    grind [closed_of_lt, hle.eq_of_length_le]
  refine ⟨?_, fun {q c x} hq ↦ ?_, fun {q c x} hq ↦ ?_, ?_⟩
  · obtain ⟨x, hx, hdir⟩ := h.root
    exact ⟨x, add_of_some hx, hdir⟩
  · cases hold : m (q ++ [c]) with
    | some y =>
      rw [add_of_some hold] at hq
      exact Option.some_inj.mp hq ▸ h.typed hold
    | none => grind [add_of_none]
  · cases hold : m (q ++ [c]) with
    | some y =>
      obtain ⟨d, hd, hdir⟩ := h.parent hold
      exact ⟨d, add_of_some hd, hdir⟩
    | none =>
      have hle : q ++ [c] <+: names := by
        by_contra hle
        simp [add_of_none hold, hle] at hq
      have hle' : q <+: names := .trans ⟨[c], rfl⟩ hle
      have hne : q ≠ names := by grind [length_append]
      cases hd : m q with
      | none => exact ⟨dirEntry, by rw [add_of_none hd, if_pos hle', if_neg hne], rfl⟩
      | some d =>
        refine ⟨d, add_of_some hd, ?_⟩
        rcases eq_nil_or_concat q with rfl | ⟨q', c', rfl⟩
        all_goals grind [h.root, h.typed]
  · obtain ⟨paths, hpaths⟩ := h.finite
    refine ⟨paths ++ names.inits, fun q hq ↦ ?_⟩
    grind [add_of_none, mem_inits]

theorem write_eq_some {data size : ℕ} (hq : m.write comps data size q = some e) :
    ∃ e', m q = some e' ∧ e.type = e'.type := by grind [write, Option.map_eq_some_iff]

theorem write_of_some (data size : ℕ) (hq : m q = some e) :
    ∃ e', m.write comps data size q = some e' ∧ e'.type = e.type := by grind [write]

theorem Wf.write (h : m.Wf) (comps : List Str) (data size : ℕ) : (m.write comps data size).Wf := by
  refine ⟨?_, fun {q c e} hq ↦ ?_, fun {q c e} hq ↦ ?_, ?_⟩
  · obtain ⟨e, he, hdir⟩ := h.root
    obtain ⟨e', he', htype⟩ := write_of_some data size he
    exact ⟨e', he', htype.trans hdir⟩
  · obtain ⟨e', he', htype⟩ := write_eq_some hq
    rw [htype]
    exact h.typed he'
  · obtain ⟨e', he', -⟩ := write_eq_some hq
    obtain ⟨d, hd, hdir⟩ := h.parent he'
    obtain ⟨d', hd', htype⟩ := write_of_some data size hd
    exact ⟨d', hd', htype.trans hdir⟩
  · obtain ⟨paths, hpaths⟩ := h.finite
    refine ⟨paths, fun q hq ↦ hpaths q ?_⟩
    obtain ⟨e, he⟩ := Option.ne_none_iff_exists'.mp hq
    obtain ⟨e', he', -⟩ := write_eq_some he
    simp [he']

end Lemmas

end FileMap

/-! ### The files hold a map -/

namespace Fs

def view (fs : Fs) (place : List Str → Option ℕ) : FileMap := fun q ↦ (place q).map fs.entry

variable {fs fs' : Fs} {place : List Str → Option ℕ} {p comps : List Str} {f d : ℕ} {e : Entry} {ffile : ℕ}

theorem view_eq_none {q : List Str} : fs.view place q = none ↔ place q = none := Option.map_eq_none_iff

theorem missing_of_some {p rest : List Str} {c : Str} {f : ℕ} (hf : place (p ++ [c]) = some f) :
    (fs.view place).missing p (c :: rest) = (fs.view place).missing (p ++ [c]) rest := by
  rw [FileMap.missing, if_neg (by simp [view_eq_none, hf])]

theorem missing_of_none {p rest : List Str} {c : Str} (hf : place (p ++ [c]) = none) :
    (fs.view place).missing p (c :: rest) = c :: rest := by rw [FileMap.missing, if_pos (view_eq_none.mpr hf)]

theorem Added.view (h : Added fs place p f e ffile fs') :
    fs'.view (update place p (some f)) = update (fs.view place) p (some e) := by
  funext q
  by_cases hq : q = p
  · rw [hq, Fs.view, update_self, update_self, Option.map_some, h.entry_self]
  · rw [Fs.view, update_of_ne hq, update_of_ne hq, Fs.view]
    cases hg : place q with
    | none => rfl
    | some g => rw [Option.map_some, Option.map_some, h.entry_of hg]

/-- The first answers of `malloc` are blocks. -/
def Enough (n : ℕ) (mems : List Block) : Prop := n ≤ mems.length ∧ ∀ b ∈ mems.take n, b.err = .ok

instance (n : ℕ) (mems : List Block) : Decidable (Enough n mems) := inferInstanceAs (Decidable (_ ∧ _))

theorem enough_succ {n : ℕ} {mems : List Block} :
    Enough (n + 1) mems ↔ (nextBlock mems).err = .ok ∧ Enough n mems.tail := by
  cases mems with
  | nil => simp [Enough, nextBlock]
  | cons b mems => grind [Enough, nextBlock]

theorem Enough.mono {n n' : ℕ} {mems : List Block} (h : Enough n mems) (hle : n' ≤ n) : Enough n' mems :=
  ⟨hle.trans h.1, fun b hb ↦ h.2 b (take_subset_take_left _ hle hb)⟩

/-- What `file_create` leaves of the files that were there, and where the new ones are. -/
structure Grown (fs : Fs) (place : List Str → Option ℕ) (mems : List Block) (fs' : Fs)
    (place' : List Str → Option ℕ) : Prop where
  forest : fs'.Forest place'
  keep : ∀ {q g}, place q = some g → place' q = some g
  name_eq : ∀ {q g}, place q = some g → (fs'.file g).name = (fs.file g).name
  new : ∀ {q g}, place' q = some g → place q = some g ∨ ∃ b ∈ mems, b.err = .ok ∧ b.addr = g
  short : ∀ {q c g}, place' (q ++ [c]) = some g → place (q ++ [c]) = some g ∨ c.length < fileMaxNameLen

theorem Grown.refl (h : fs.Forest place) (mems : List Block) : Grown fs place mems fs place :=
  ⟨h, id, fun _ ↦ rfl, .inl, .inl⟩

theorem Added.grown {mems : List Block} {place' : List Str → Option ℕ} {fs₁ : Fs} {c : Str}
    (h : Added fs place (p ++ [c]) (nextBlock mems).addr e ffile fs₁) (hok : (nextBlock mems).err = .ok)
    (hp : place (p ++ [c]) = none) (hshort : c.length < fileMaxNameLen)
    (h' : Grown fs₁ (update place (p ++ [c]) (some (nextBlock mems).addr)) mems.tail fs' place') :
    Grown fs place mems fs' place' := by
  have hold : ∀ {q g}, place q = some g → update place (p ++ [c]) (some (nextBlock mems).addr) q = some g := by
    intro q g hg
    rwa [update_of_ne]
    rintro rfl
    simp [hp] at hg
  have hmems := nextBlock_mem hok
  refine ⟨h'.forest, fun hg ↦ h'.keep (hold hg), fun hg ↦ (h'.name_eq (hold hg)).trans (h.name_of hg),
    fun {q g} hg ↦ ?_, fun {q c' g} hg ↦ ?_⟩
  all_goals grind [h'.new, h'.short, append_inj']

theorem Forest.view_below (h : fs.Forest place) (hp : place p = none) (fs' : Fs) (f : ℕ) (c : Str) :
    fs'.view (update place p (some f)) (p ++ [c]) = none := by
  rw [view_eq_none, update_of_ne (by simp), h.none_below hp]

theorem Forest.view_ne_none (h : fs.Forest place) (hd : place p = some d) {q : List Str} (hq : q <+: p) :
    fs.view place q ≠ none := by
  obtain ⟨r, rfl⟩ := hq
  obtain ⟨g, hg⟩ := h.ancestor hd
  rw [Ne, view_eq_none, hg]
  exact Option.some_ne_none g

theorem Added.add_view {type : FileType} {addr size : ℕ} {c : Str} {rest : List Str}
    (h : Added fs place (p ++ [c]) f (newEntry ⟨type, addr, size⟩ rest) ffile fs')
    (hnone : place (p ++ [c]) = none) :
    (fs'.view (update place (p ++ [c]) (some f))).add (p ++ c :: rest) ⟨type, addr, size⟩ =
      (fs.view place).add (p ++ c :: rest) ⟨type, addr, size⟩ := by
  have hentry : newEntry ⟨type, addr, size⟩ rest =
      if p ++ [c] = p ++ c :: rest then (⟨type, addr, size⟩ : Entry) else FileMap.dirEntry := by
    by_cases hnil : rest = [] <;> simp [newEntry, hnil]
  rw [h.view, hentry]
  exact FileMap.add_update ⟨rest, by simp⟩ (view_eq_none.mpr hnone)

section CreateLoop

variable {mems : List Block}

section

variable (type : FileType) (addr size : ℕ) (h : fs.Forest place) (hd : place p = some d)
  (hfresh : Fresh place mems)
include type addr size h hd hfresh

theorem Forest.createLoop_ok (hshort : ∀ c ∈ (fs.view place).missing p comps, c.length < fileMaxNameLen)
    (henough : Enough ((fs.view place).missing p comps).length mems) :
    ∃ fs' place', createLoop type addr size comps fs d mems = .ok (.ok, fs') ∧ Grown fs place mems fs' place' ∧
      fs'.view place' = (fs.view place).add (p ++ comps) ⟨type, addr, size⟩ := by
  induction comps generalizing fs place p d mems with
  | nil =>
    refine ⟨fs, place, rfl, .refl h mems, ?_⟩
    rw [append_nil]
    exact (FileMap.add_of_all fun q hq ↦ h.view_ne_none hd hq).symm
  | cons c rest ih =>
    have happend : p ++ c :: rest = (p ++ [c]) ++ rest := by simp
    cases hf : place (p ++ [c]) with
    | some f =>
      rw [missing_of_some hf] at hshort henough
      rw [createLoop_exist h hd hf, happend]
      exact ih h hf hfresh hshort henough
    | none =>
      rw [missing_of_none hf] at hshort henough
      obtain ⟨hok, henough⟩ := enough_succ.mp henough
      have hblock : nextBlock mems ∈ mems := by
        rw [nextBlock_mem hok]
        exact mem_cons_self
      obtain ⟨fs₁, hadded, hrun⟩ := createLoop_new type addr size rest h hd hf hok
        (hfresh.vacant _ hblock hok) (hshort c mem_cons_self)
      have hall := FileMap.missing_of_none (h.view_below hf fs₁ (nextBlock mems).addr) rest
      obtain ⟨fs', place', hrun', hgrown, hview⟩ := ih hadded.forest (update_self ..)
        (hfresh.tail hok _) (by rw [hall]; exact fun d hd ↦ hshort d (mem_cons_of_mem _ hd))
        (by rw [hall]; exact henough)
      grind [hadded.grown, hadded.add_view]

theorem Forest.createLoop_fails
    (hfails : ¬ ((∀ c ∈ (fs.view place).missing p comps, c.length < fileMaxNameLen) ∧
      Enough ((fs.view place).missing p comps).length mems)) :
    createLoop type addr size comps fs d mems = .error .unset ∨
      ∃ err fs' place' names, createLoop type addr size comps fs d mems = .ok (err, fs') ∧ err ≠ .ok ∧
        Grown fs place mems fs' place' ∧ p <+: names ∧ names <+: p ++ comps ∧ names ≠ p ++ comps ∧
        fs'.view place' = (fs.view place).add names FileMap.dirEntry := by
  induction comps generalizing fs place p d mems with
  | nil => exact absurd ⟨by simp [FileMap.missing], by simp [FileMap.missing, Enough]⟩ hfails
  | cons c rest ih =>
    have happend : p ++ c :: rest = (p ++ [c]) ++ rest := by simp
    cases hf : place (p ++ [c]) with
    | some f =>
      rw [missing_of_some hf] at hfails
      rw [createLoop_exist h hd hf, happend]
      rcases ih h hf hfresh hfails with hunset | ⟨err, fs', place', names, hrun, herr, hgrown, hle, hrest⟩
      · exact .inl hunset
      · exact .inr ⟨err, fs', place', names, hrun, herr, hgrown, .trans ⟨[c], rfl⟩ hle, hrest⟩
    | none =>
      rw [missing_of_none hf] at hfails
      by_cases hok : (nextBlock mems).err = .ok
      swap
      · refine .inr ⟨_, fs, place, p, createLoop_nomem h hd hf hok, hok, .refl h mems, ⟨[], by simp⟩, ⟨_, rfl⟩,
          by simp, ?_⟩
        exact (FileMap.add_of_all fun q hq ↦ h.view_ne_none hd hq).symm
      by_cases hlong : fileMaxNameLen ≤ c.length
      · exact .inl (createLoop_long h hd hf hok hlong)
      have hblock : nextBlock mems ∈ mems := by
        rw [nextBlock_mem hok]
        exact mem_cons_self
      obtain ⟨fs₁, hadded, hrun⟩ := createLoop_new type addr size rest h hd hf hok
        (hfresh.vacant _ hblock hok) (not_le.mp hlong)
      have hall := FileMap.missing_of_none (h.view_below hf fs₁ (nextBlock mems).addr) rest
      have hfails' : ¬ ((∀ c ∈ rest, c.length < fileMaxNameLen) ∧ Enough rest.length mems.tail) := by
        grind [enough_succ]
      rw [hrun, happend]
      rcases ih hadded.forest (update_self ..) (hfresh.tail hok _) (by rw [hall]; exact hfails') with
        hunset | ⟨err, fs', place', names, hrun', herr, hgrown, hfrom, hle, hne, hview⟩
      · exact .inl hunset
      · refine .inr ⟨err, fs', place', names, hrun', herr, hadded.grown hok hf (not_le.mp hlong) hgrown,
          .trans ⟨[c], rfl⟩ hfrom, hle, hne, ?_⟩
        -- The loop has stopped further on, so the new file is a directory.
        grind [hle.eq_of_length_le, view_eq_none, FileMap.add_update, hadded.view, newEntry]

end

end CreateLoop

/-! ### Absolute paths -/

/-- A string that begins with `/`. -/
def Absolute (path : Str) : Prop := path.head? = some slash ∧ path.Terminated

instance (path : Str) : Decidable (Absolute path) := inferInstanceAs (Decidable (_ ∧ _))

def pathNames (path : Str) : List Str := cutPath path.tail

/-- Every component has room in `name` with its terminator. -/
def Fits (path : Str) : Prop := ∀ c ∈ pathNames path, c.length < fileMaxNameLen

instance (path : Str) : Decidable (Fits path) := inferInstanceAs (Decidable (∀ c ∈ _, _))

theorem Absolute.eq_cons {path : Str} (h : Absolute path) : path = slash :: path.tail := by
  cases path with
  | nil => simp [Absolute] at h
  | cons c rest =>
    obtain rfl : c = slash := by simpa using h.1
    rfl

theorem Absolute.components {path : Str} {cut : Cut} (h : Absolute path) (hcut : cut.Returns path) :
    components cut path = .ok (pathNames path) := by
  have hcons := h.eq_cons
  have hterminated : Str.Terminated path.tail := fun c hc ↦ h.2 c (mem_of_mem_tail hc)
  rw [hcons] at hcut ⊢
  exact components_eq hcut hterminated

theorem Absolute.type_eq {path c : Str} {q : List Str} (h : Absolute path) (hq : pathNames path = q ++ [c]) :
    pathType path = .dir ↔ Closed c := by
  rw [← FileMap.closed_last hq.symm, ← h.eq_cons, pathType]
  split_ifs with hclosed <;> simp [hclosed]

section Paths

variable {path : Str} {cut : Cut}

theorem Forest.fileFind (h : fs.Forest place) (hpath : Absolute path) (hcut : cut.Returns path) :
    fs.fileFind cut path = .ok (match place (pathNames path) with
      | some f => (.ok, f)
      | none => (.notfound, 0)) := by
  rw [Fs.fileFind, if_neg (by simp [hpath.1]), hpath.components hcut]
  exact h.findLoop h.root_eq _

theorem fileCreate_eq (mems : List Block) (addr size : ℕ) (hpath : Absolute path) (hcut : cut.Returns path) :
    fs.fileCreate cut mems path addr size =
      createLoop (pathType path) addr size (pathNames path) fs fs.root mems := by
  rw [fileCreate, if_neg (by simp [hpath.1]), hpath.components hcut]
  rfl

theorem Forest.fileRead (h : fs.Forest place) (hpath : Absolute path) (hcut : cut.Returns path) :
    fs.fileRead cut path = .ok (match fs.view place (pathNames path) with
      | some e => (.ok, e.data, e.size)
      | none => (.notfound, 0, 0)) := by
  rw [Fs.fileRead, h.fileFind hpath hcut, view]
  cases place (pathNames path) <;> rfl

theorem Forest.fileWrite (h : fs.Forest place) (hpath : Absolute path) (hcut : cut.Returns path) (addr size : ℕ) :
    ∃ fs', fs.fileWrite cut path addr size =
        .ok (if place (pathNames path) = none then .notfound else .ok, fs') ∧ fs'.Forest place ∧
      fs'.view place = (fs.view place).write (pathNames path) addr size ∧
      ∀ g, (fs'.file g).name = (fs.file g).name := by
  rw [Fs.fileWrite, h.fileFind hpath hcut]
  cases hf : place (pathNames path) with
  | none =>
    refine ⟨fs, rfl, h, ?_, fun _ ↦ rfl⟩
    grind [FileMap.write, view]
  | some f =>
    let fs' : Fs := { fs with file := update fs.file f { fs.file f with data := addr, size := size } }
    have hself : fs'.file f = { fs.file f with data := addr, size := size } := update_self ..
    have hother : ∀ {g}, g ≠ f → fs'.file g = fs.file g := fun hg ↦ update_of_ne hg ..
    have hname : ∀ g, (fs'.file g).name = (fs.file g).name := by
      intro g
      by_cases hg : g = f
      · rw [hg, hself]
      · rw [hother hg]
    have hsub : ∀ g, (fs'.file g).subfile = (fs.file g).subfile := by
      intro g
      by_cases hg : g = f
      · rw [hg, hself]
      · rw [hother hg]
    refine ⟨fs', rfl, h.frame rfl (fun _ ↦ hname _) (fun _ ↦ hsub _) fun _ ↦ .refl _ _, ?_, hname⟩
    funext q
    rw [FileMap.write]
    split_ifs with hq
    · grind [view, entry]
    · rw [view, view]
      cases hg : place q with
      | none => rfl
      | some g => grind [h.inj, entry]

end Paths

/-- The answers of `malloc` for one call are blocks apart from those that it has returned before, and from each
other. -/
def Available (used : List ℕ) (mems : List Block) : Prop :=
  (∀ b ∈ mems, b.err = .ok → b.addr ≠ 0 ∧ b.addr + fileSize ≤ addressSpace ∧ ∀ a ∈ used, Apart b.addr a) ∧
  mems.Pairwise fun b b' ↦ b.err = .ok → b'.err = .ok → Apart b.addr b'.addr

instance (used : List ℕ) (mems : List Block) : Decidable (Available used mems) :=
  inferInstanceAs (Decidable (_ ∧ _))

def taken (mems : List Block) : List ℕ := (mems.filter fun b ↦ b.err = .ok).map Block.addr

theorem Available.fresh {used : List ℕ} {mems : List Block} (h : Available used mems)
    (hused : ∀ {q g}, place q = some g → g ∈ used) : Fresh place mems := by
  refine ⟨fun b hb hok ↦ ?_, h.2⟩
  obtain ⟨hne, hroom, hapart⟩ := h.1 b hb hok
  exact ⟨hne, hroom, fun q g hg ↦ hapart g (hused hg)⟩

theorem Available.pairwise {used : List ℕ} {mems : List Block} (h : Available used mems)
    (hused : used.Pairwise Apart) : (used ++ taken mems).Pairwise Apart := by
  refine List.pairwise_append.mpr ⟨hused, ?_, fun a ha a' ha' ↦ ?_⟩
  · refine List.pairwise_map.mpr ((h.2.sublist filter_sublist).imp_of_mem fun hb hb' hapart ↦ hapart ?_ ?_)
    · simpa using (List.mem_filter.mp hb).2
    · simpa using (List.mem_filter.mp hb').2
  · obtain ⟨b, hb, rfl⟩ := List.mem_map.mp ha'
    obtain ⟨hb, hok⟩ := List.mem_filter.mp hb
    exact ((h.1 b hb (by simpa using hok)).2.2 a ha).symm

section

variable {mems : List Block} {place' : List Str → Option ℕ} (h : Grown fs place mems fs' place')
include h

theorem Grown.used {used : List ℕ} (hused : ∀ {q g}, place q = some g → g ∈ used) {q : List Str} {g : ℕ}
    (hg : place' q = some g) : g ∈ used ++ taken mems := by
  rcases h.new hg with hold | ⟨b, hb, hok, rfl⟩
  · exact mem_append_left _ (hused hold)
  · exact mem_append_right _ (mem_map_of_mem (List.mem_filter.mpr ⟨hb, by simpa using hok⟩))

theorem Grown.root_eq (hforest : fs.Forest place) : fs'.root = fs.root :=
  Option.some_inj.mp (h.forest.root_eq.symm.trans (h.keep hforest.root_eq))

end

end Fs

/-! ### Runs -/

/-- The files with what they stand for: the map, and the blocks that `malloc` has returned. -/
structure FileState where
  fs : Fs
  map : FileMap
  used : List ℕ

inductive FileCall
  | create (path : Str) (addr size : ℕ) (cut : Cut) (mems : List Block)
  | find (path : Str) (cut : Cut)
  | read (path : Str) (cut : Cut)
  | write (path : Str) (addr size : ℕ) (cut : Cut)

namespace FileState

open Fs

/-- The entry that `file_create` makes for its path. -/
def created (path : Str) (addr size : ℕ) : Entry := ⟨pathType path, addr, size⟩

def next (st : FileState) : FileCall → Result FileState
  | .create path addr size cut mems => do
    let (_, fs) ← st.fs.fileCreate cut mems path addr size
    return ⟨fs, st.map.add (pathNames path) (created path addr size), st.used ++ taken mems⟩
  | .find path cut => do
    let _ ← st.fs.fileFind cut path
    return st
  | .read path cut => do
    let _ ← st.fs.fileRead cut path
    return st
  | .write path addr size cut => do
    let (_, fs) ← st.fs.fileWrite cut path addr size
    return { st with fs := fs, map := st.map.write (pathNames path) addr size }

/-- `init`: `file_new` makes the root. -/
def Initial (st : FileState) : Prop :=
  ∃ (fs : Fs) (mem : Block) (fs' : Fs), fs.fileNew mem [slash] .dir 0 0 = .ok (.ok, mem.addr, fs') ∧
    Available [] [mem] ∧
    st.fs = { fs' with root := mem.addr } ∧ (st.map = fun q ↦ if q = [] then some FileMap.dirEntry else none) ∧
    st.used = [mem.addr]

def system : System FileState FileCall := System.ofNext Initial next

/-- The calls are on absolute paths, `path_cut` returns its buffer, and for a creation there is memory for every
component and room for its name. -/
def Allowed (st : FileState) : FileCall → Prop
  | .create path _ _ cut mems => Absolute path ∧ cut.Returns path ∧ Fits path ∧ Available st.used mems ∧
    Enough (pathNames path).length mems
  | .find path cut => Absolute path ∧ cut.Returns path
  | .read path cut => Absolute path ∧ cut.Returns path
  | .write path _ _ cut => Absolute path ∧ cut.Returns path

instance (st : FileState) (c : FileCall) : Decidable (st.Allowed c) := match c with
  | .create _ _ _ _ _ => inferInstanceAs (Decidable (_ ∧ _))
  | .find _ _ => inferInstanceAs (Decidable (_ ∧ _))
  | .read _ _ => inferInstanceAs (Decidable (_ ∧ _))
  | .write _ _ _ _ => inferInstanceAs (Decidable (_ ∧ _))

structure Inv (st : FileState) : Prop where
  holds : ∃ place, st.fs.Forest place ∧ st.map = st.fs.view place ∧ ∀ {q g}, place q = some g → g ∈ st.used
  rootName : (st.fs.file st.fs.root).name = [slash]
  wf : st.map.Wf

section Runs

variable {st st' : FileState}

theorem inv_initial (hinit : Initial st) : st.Inv := by
  obtain ⟨fs, mem, fs', hnew, hroom, hfs, hmap, hused⟩ := hinit
  obtain ⟨err, addr, ffile⟩ := mem
  have hok : err = .ok := by
    by_contra hne
    simp [fileNew, hne] at hnew
  obtain ⟨hne, hroom, -⟩ := hroom.1 _ (mem_singleton_self _) hok
  obtain rfl : { fs with file := update fs.file addr ⟨.dir, [slash], 0, 0, 0, ffile⟩ } = fs' := by
    simpa [fileNew, hok, fileMaxNameLen] using hnew
  obtain ⟨stfs, stmap, stused⟩ := st
  dsimp only at hfs hmap hused
  subst hfs hmap hused
  let place : List Str → Option ℕ := fun q ↦ if q = [] then some addr else none
  have hplace : ∀ {q g}, place q = some g → q = [] ∧ g = addr := by grind
  refine ⟨⟨place, ⟨rfl, ?_, ?_, ?_, ?_, ?_⟩, ?_, ?_⟩, ?_, ⟨⟨_, rfl, rfl⟩, ?_, ?_, [[]], ?_⟩⟩
  · intro p q g hp hq
    rw [(hplace hp).1, (hplace hq).1]
  · intro p c g hg
    exact absurd (hplace hg).1 (by simp)
  · intro p d hd
    obtain ⟨rfl, rfl⟩ := hplace hd
    refine ⟨[], ?_, fun n ↦ iff_of_false not_mem_nil ?_⟩
    all_goals grind [subRbt, Rbt.Keyed.empty]
  · intro p c g hg
    exact absurd (hplace hg).1 (by simp)
  · intro p g hg
    obtain ⟨-, rfl⟩ := hplace hg
    exact ⟨hne, hroom⟩
  · grind [view, entry]
  · intro q g hg
    simp [(hplace hg).2]
  · simp
  · intro q c e he
    simp at he
  · intro q c e he
    simp at he
  · intro q hq
    by_contra hne
    simp_all

theorem Inv.create (h : st.Inv) {path : Str} {addr size : ℕ} {cut : Cut} {mems : List Block}
    (hallowed : st.Allowed (.create path addr size cut mems)) :
    ∃ fs', st.fs.fileCreate cut mems path addr size = .ok (.ok, fs') ∧
      Inv ⟨fs', st.map.add (pathNames path) (created path addr size), st.used ++ taken mems⟩ := by
  obtain ⟨hpath, hcut, hfits, hmems, henough⟩ := hallowed
  obtain ⟨place, hforest, hmap, hused⟩ := h.holds
  obtain ⟨fs', place', hrun, hgrown, hview⟩ := hforest.createLoop_ok (p := []) _ addr size hforest.root_eq
    (hmems.fresh hused) (fun c hc ↦ hfits c ((FileMap.missing_suffix _ _ _).mem hc))
    (henough.mono (FileMap.missing_suffix _ _ _).length_le)
  refine ⟨fs', ?_, ⟨place', hgrown.forest, ?_, fun {q g} hg ↦ ?_⟩, ?_, ?_⟩
  · rw [fileCreate_eq mems addr size hpath hcut, hrun]
  · rw [hview, hmap]
    rfl
  · exact hgrown.used hused hg
  · rw [hgrown.root_eq hforest, hgrown.name_eq hforest.root_eq]
    exact h.rootName
  · exact h.wf.add (show pathNames path <+: cutPath path.tail from ⟨[], append_nil _⟩)
      fun q c hq ↦ hpath.type_eq hq

theorem Inv.write (h : st.Inv) {path : Str} {cut : Cut} (hpath : Absolute path) (hcut : cut.Returns path)
    (addr size : ℕ) : ∃ fs', st.fs.fileWrite cut path addr size =
        .ok (if st.map (pathNames path) = none then .notfound else .ok, fs') ∧
      Inv { st with fs := fs', map := st.map.write (pathNames path) addr size } := by
  obtain ⟨place, hforest, hmap, hused⟩ := h.holds
  obtain ⟨fs', hrun, hforest', hview, hname⟩ := hforest.fileWrite hpath hcut addr size
  have hroot : fs'.root = st.fs.root := Option.some_inj.mp (hforest'.root_eq.symm.trans hforest.root_eq)
  refine ⟨fs', ?_, ⟨place, hforest', by rw [hview, hmap], hused⟩, ?_, h.wf.write _ _ _⟩
  · rw [hrun, hmap]
    simp only [view_eq_none]
  · rw [hroot, hname]
    exact h.rootName

theorem inv_step (h : st.Inv) {c : FileCall} (hallowed : st.Allowed c) (hstep : st.next c = .ok st') : st'.Inv := by
  cases c with
  | create path addr size cut mems =>
    obtain ⟨fs', hrun, h'⟩ := h.create hallowed
    simp only [next, hrun, Except.ok.injEq, ok_bind, pure_eq] at hstep
    exact hstep ▸ h'
  | find path cut =>
    obtain ⟨_, -, hstep⟩ := bind_eq_ok.mp hstep
    exact Except.ok.inj hstep ▸ h
  | read path cut =>
    obtain ⟨_, -, hstep⟩ := bind_eq_ok.mp hstep
    exact Except.ok.inj hstep ▸ h
  | write path addr size cut =>
    obtain ⟨fs', hrun, h'⟩ := h.write hallowed.1 hallowed.2 addr size
    simp only [next, hrun, Except.ok.injEq, ok_bind, pure_eq] at hstep
    exact hstep ▸ h'

/-- The service follows the map: creations and writes return and lead to files that hold the map they are meant
to lead to, `file_find` succeeds for the paths of the map and `file_read` gives their data; the map is a finite
tree of directories, and the directories are the files whose name ends in `/`. -/
structure Contract (st : FileState) : Prop where
  create : ∀ path addr size cut mems, st.Allowed (.create path addr size cut mems) →
    ∃ fs', st.fs.fileCreate cut mems path addr size = .ok (.ok, fs')
  write : ∀ path addr size cut, Absolute path → cut.Returns path → ∃ fs', st.fs.fileWrite cut path addr size =
      .ok (if st.map (pathNames path) = none then .notfound else .ok, fs')
  find : ∀ path cut, Absolute path → cut.Returns path →
    (st.map (pathNames path) = none ∧ st.fs.fileFind cut path = .ok (.notfound, 0)) ∨
      ∃ f e, st.map (pathNames path) = some e ∧ st.fs.fileFind cut path = .ok (.ok, f) ∧ st.fs.entry f = e ∧
        (e.type = .dir ↔ Closed (st.fs.file f).name)
  read : ∀ path cut, Absolute path → cut.Returns path →
    st.fs.fileRead cut path = .ok (match st.map (pathNames path) with
      | some e => (.ok, e.data, e.size)
      | none => (.notfound, 0, 0))
  wf : st.map.Wf

theorem Inv.contract (h : st.Inv) : st.Contract := by
  obtain ⟨place, hforest, hmap, -⟩ := h.holds
  refine ⟨fun path addr size cut mems hallowed ↦ ?_, fun path addr size cut hpath hcut ↦ ?_,
    fun path cut hpath hcut ↦ ?_, fun path cut hpath hcut ↦ ?_, h.wf⟩
  · obtain ⟨fs', hrun, -⟩ := h.create hallowed
    exact ⟨fs', hrun⟩
  · obtain ⟨fs', hrun, -⟩ := h.write hpath hcut addr size
    exact ⟨fs', hrun⟩
  · have hfind := hforest.fileFind hpath hcut
    cases hf : place (pathNames path) with
    | none => exact .inl ⟨by rw [hmap, view_eq_none, hf], by rw [hfind, hf]⟩
    | some f =>
      have he : st.map (pathNames path) = some (st.fs.entry f) := by rw [hmap, view, hf, Option.map_some]
      refine .inr ⟨f, st.fs.entry f, he, by rw [hfind, hf], rfl, ?_⟩
      rcases eq_nil_or_concat (pathNames path) with hnil | ⟨q, c, hconcat⟩
      · rw [hnil, hforest.root_eq] at hf
        obtain ⟨e, hroot, hdir⟩ := h.wf.root
        rw [hnil, hroot] at he
        rw [← Option.some_inj.mp he, ← Option.some_inj.mp hf, h.rootName]
        exact iff_of_true hdir rfl
      grind [hforest.name_eq, h.wf.typed]
  · rw [hforest.fileRead hpath hcut, hmap]

/-- In every run of the service on absolute paths whose components have room in `name`, with memory for what is
created and with `path_cut` returning its buffer, the service follows the map. -/
theorem file_map_contract (hrun : system.Run Allowed st) : st.Contract :=
  Inv.contract (System.Run.invariant (P := Inv) (fun _ hinit ↦ inv_initial hinit)
    (fun _ _ _ hinv hallowed hstep ↦ inv_step hinv hallowed hstep) hrun)

end Runs

/-! ### An example -/

def exampleMemory : Fs := ⟨fun _ ↦ ⟨.entity, [], 0, 0, 0, 0⟩, ⟨fun _ ↦ .black, fun _ ↦ 0, fun _ _ ↦ 0⟩, 0⟩

def exampleInit : FileState where
  fs := { exampleMemory with
    file := update exampleMemory.file 4096 ⟨.dir, [slash], 0, 0, 0, 0⟩
    root := 4096 }
  map q := if q = [] then some FileMap.dirEntry else none
  used := [4096]

theorem exampleInit_initial : Initial exampleInit :=
  ⟨exampleMemory, ⟨.ok, 4096, 0⟩, _, rfl, by decide, rfl, rfl, rfl⟩

def exampleCut : Cut := ⟨(.ok, 65536), 65536, fun _ ↦ 0⟩

/-- The path `/a/b`. -/
def examplePath : Str := [slash, 0x61#8, slash, 0x62#8]

/-- `/a/b` is created and overwritten. -/
def exampleCalls : List FileCall :=
  [.create examplePath 7 2 exampleCut [⟨.ok, 8192, 0⟩, ⟨.ok, 12288, 0⟩], .write examplePath 9 3 exampleCut]

theorem file_map_contract_example : ∃ st : FileState,
    st.map (pathNames examplePath) = some ⟨.entity, 9, 3⟩ ∧ st.Contract := by
  have hresult : (exampleCalls.foldlM (System.guarded next Allowed .unset) exampleInit).map
      (fun st ↦ st.map (pathNames examplePath)) = .ok (some ⟨.entity, 9, 3⟩) := by decide +kernel
  obtain ⟨st, hcalls, hview⟩ := map_eq_ok.mp hresult
  exact ⟨st, hview, file_map_contract (System.run_of_foldlM (.init exampleInit_initial) hcalls)⟩

end FileState

end Lanthorn
