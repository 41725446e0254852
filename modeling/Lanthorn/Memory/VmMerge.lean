import Lanthorn.Memory.VmCalls

/-!
# How far `vm_merge` merges

`vm_merge` joins a region with the free regions that follow it immediately, and then with those in front.
If there is a next region that does not follow immediately, it returns before it has looked in front.

`VpageAlct.Coalesced` says that no free region ends where another begins. `vmMerge_gapped` says when a merge
restores this: exactly if no free region ends where the new one begins, or if nothing is left behind the new
one once the region that follows it has been taken in. Runs whose calls are all of this kind keep the free
regions coalesced, and no other call does (`VmState.run_coalesced`). In other runs there are two adjacent
free regions (`VmState.reachable_adjacent`).
-/

namespace Lanthorn

open Library List

namespace VpageAlct

def Coalesced (s : VpageAlct) : Prop :=
  ∀ p ∈ s.frees, ∀ q ∈ s.frees, p ≠ q → s.addr p + s.size p ≠ s.addr q

def Gapped (s : VpageAlct) (vps : List ℕ) : Prop :=
  vps.Pairwise fun p q ↦ s.addr p + s.size p ≠ s.addr q

/-- A region `[a, a + n)` that `vm_merge` joins with every neighbour among the free ones: none ends at `a`,
or none is behind but the one that begins at `a + n`. -/
def Mergeable (s : VpageAlct) (a n : ℕ) : Prop :=
  (∀ p ∈ s.frees, s.addr p + s.size p ≠ a) ∨ ∀ q ∈ s.frees, a < s.addr q → s.addr q = a + n

section Merge

variable {s s' : VpageAlct} {free live xs ys : List ℕ} {covered : ℕ → Prop} {now vp : ℕ}

theorem Gapped.congr {vps : List ℕ} (h : Gapped s vps)
    (hagree : ∀ p ∈ vps, s'.addr p = s.addr p ∧ s'.size p = s.size p) : Gapped s' vps :=
  h.imp_of_mem fun {p q} hp hq hgap ↦ by rwa [(hagree p hp).1, (hagree p hp).2, (hagree q hq).1]

theorem Gapped.sublist {vps wps : List ℕ} (h : Gapped s wps) (hsub : vps.Sublist wps) : Gapped s vps :=
  List.Pairwise.sublist hsub h

theorem Valid.coalesced_iff (h : Valid s free live covered) : s.Coalesced ↔ Gapped s free := by
  rw [Coalesced, h.trees.frees_eq]
  have hnodup := (List.nodup_append.mp h.trees.nodup).1
  constructor
  · intro hcoalesced
    refine h.free_sorted.imp_of_mem fun {p q} hp hq hlt ↦ hcoalesced p hp q hq ?_
    rintro rfl
    exact Nat.lt_irrefl _ hlt
  · intro hgapped p hp q hq hne hadjacent
    -- the regions are not empty, so `p` is in front of `q`
    have hpos := h.regions.pos p (mem_append_left _ hp)
    have hboth := h.free_sorted.and hgapped
    have hcase : (s.addr p < s.addr q ∧ s.addr p + s.size p ≠ s.addr q) ∨ s.addr q < s.addr p := by
      by_contra hnot
      obtain ⟨as, bs, rfl⟩ := append_of_mem hp
      grind [pairwise_cons]
    omega

section

variable (h : Valid s (xs ++ now :: ys) live covered)
include h

theorem Valid.around :
    (∀ p ∈ xs, s.addr p + s.size p ≤ s.addr now) ∧ ∀ q ∈ ys, s.addr now + s.size now ≤ s.addr q := by
  have hsorted := List.pairwise_append.mp h.free_sorted
  grind [h.regions.before, pairwise_cons]

theorem Valid.behind_ne (hstop : ∀ q ∈ ys.head?, wordAdd (s.addr now) (s.size now) ≠ s.addr q) :
    ∀ q ∈ ys, s.addr now + s.size now ≠ s.addr q := by
  rw [wordAdd_of_lt (h.regions.bound now (by simp))] at hstop
  intro q hq
  cases ys with
  | nil => cases hq
  | cons t ys =>
    have hfirst := hstop t rfl
    have hle := h.around.2 t (by simp)
    rcases List.mem_cons.mp hq with rfl | hq
    · exact hfirst
    · have hsorted := (List.pairwise_cons.mp (List.pairwise_append.mp h.free_sorted).2.1).2
      have hlt := (List.pairwise_cons.mp hsorted).1 q hq
      omega

theorem Valid.before_ne (hstop : ∀ p ∈ xs.getLast?, wordAdd (s.addr p) (s.size p) ≠ s.addr now) :
    ∀ p ∈ xs, s.addr p + s.size p ≠ s.addr now := by
  intro p hp
  obtain ⟨zs, z, rfl⟩ := eq_nil_or_concat xs |>.resolve_left (ne_nil_of_mem hp)
  rw [concat_eq_append] at *
  have hlast := hstop z (by simp)
  rw [wordAdd_of_lt (h.regions.bound z (by simp))] at hlast
  rcases List.mem_append.mp hp with hp | hp
  · have hsorted := (List.pairwise_append.mp h.free_sorted).1
    have hlt := (List.pairwise_append.mp hsorted).2.2 p hp z (by simp)
    have hbefore := h.regions.before (by simp [hp]) (by simp) hlt
    have hpos := h.regions.pos z (by simp)
    have := h.around.1 z (by simp)
    omega
  · obtain rfl := List.mem_singleton.mp hp
    exact hlast

theorem Valid.gapped_iff (hxs : Gapped s xs) (hys : Gapped s ys) : Gapped s (xs ++ now :: ys) ↔
      (∀ p ∈ xs, s.addr p + s.size p ≠ s.addr now) ∧ ∀ q ∈ ys, s.addr now + s.size now ≠ s.addr q := by
  grind [h.around, Gapped, pairwise_cons]

end

/-- What the first loop of `vm_merge` has done when `ys'` is left behind: nothing, or the region that
followed immediately has been taken in. -/
structure MergedNext (s s' : VpageAlct) (now : ℕ) (ys ys' : List ℕ) : Prop where
  same : SameBut s s' [now]
  addr : s'.addr now = s.addr now
  taken : ys' = ys ∧ s'.size now = s.size now ∨ ∃ t, ys = t :: ys' ∧
    s.addr t = s.addr now + s.size now ∧ s'.addr now + s'.size now = s.addr t + s.size t

theorem mergeNext_gapped (h : Valid s (xs ++ now :: ys) live covered) (hys : Gapped s ys) {fuel : ℕ}
    (hfuel : ys.length < fuel) : ∃ s' ys', mergeNext (now + vpageRbtNode) fuel s = .ok (s', !ys'.isEmpty) ∧
      Valid s' (xs ++ now :: ys') live covered ∧ SameBut s s' [now] ∧ s'.addr now = s.addr now ∧
      ys'.Sublist ys ∧ (∀ q ∈ ys', s'.addr now + s'.size now ≠ s'.addr q) ∧
      (ys' = [] ↔ ∀ q ∈ ys, s.addr q = s.addr now + s.size now) := by
  have hother : ∀ q ∈ ys, q ∉ [now] := by
    have hnodup := (List.nodup_append.mp h.trees.nodup).1
    grind
  obtain ⟨s', ys', hrun, ⟨h', hmerged⟩, -, hstop⟩ := mergeNext_rule
    (P := fun s' ys' ↦ Valid s' (xs ++ now :: ys') live covered ∧ MergedNext s s' now ys ys')
    (fun s' ys' h' ↦ ⟨xs, live, h'.1.trees⟩) (fun s' tmp ys' ⟨h', hmerged⟩ hadjacent ↦ by
      obtain ⟨s₁, s₂, hrun₁, hrun₂, h₂, hsame₂, haddr₂, hsize₂⟩ := joinNext_valid h' hadjacent
      rw [wordAdd_of_lt (h'.regions.bound now (by simp))] at hadjacent
      refine ⟨s₁, s₂, hrun₁, hrun₂, h₂, hmerged.same.trans hsame₂, haddr₂.trans hmerged.addr, .inr ?_⟩
      obtain ⟨rfl, hsize⟩ | ⟨t, rfl, hfollows, hend⟩ := hmerged.taken
      · grind [hmerged.same.addr, hmerged.addr, hmerged.same.size]
      · -- a second region would follow the first immediately
        rw [hend, hmerged.same.addr tmp (hother tmp (by simp))] at hadjacent
        exact absurd hadjacent ((List.pairwise_cons.mp hys).1 tmp (by simp)))
    ⟨h, .refl s _, rfl, .inl ⟨rfl, rfl⟩⟩ hfuel
  have hbound := h'.regions.bound now (by simp)
  have hsub : ys'.Sublist ys := by grind [hmerged.taken]
  have hsorted := (List.pairwise_cons.mp (List.pairwise_append.mp h.free_sorted).2.1).2
  refine ⟨s', ys', hrun, h', hmerged.same, hmerged.addr, hsub, h'.behind_ne hstop, ?_, ?_⟩
  · rintro rfl q hq
    obtain ⟨rfl, -⟩ | ⟨t, rfl, hfollows, -⟩ := hmerged.taken
    · cases hq
    · rwa [List.mem_singleton.mp hq]
  · intro hall
    cases ys' with
    | nil => rfl
    | cons t' ys' =>
      exfalso
      have hfirst := hstop t' rfl
      grind [wordAdd_of_lt, hmerged.same.addr, hmerged.taken, hmerged.addr]

theorem mergePrev_gapped (h : Valid s (xs ++ [now]) live covered) (hxs : Gapped s xs) {fuel : ℕ}
    (hfuel : xs.length < fuel) : ∃ s' xs', mergePrev (now + vpageRbtNode) fuel s = .ok s' ∧
      Valid s' (xs' ++ [now]) live covered ∧ Gapped s' (xs' ++ [now]) := by
  obtain ⟨s', xs', hrun, ⟨h', hsame, hsub⟩, -, hstop⟩ := mergePrev_rule
    (P := fun s' xs' ↦ Valid s' (xs' ++ [now]) live covered ∧ SameBut s s' [now] ∧ xs'.Sublist xs)
    (fun s' xs' h' ↦ ⟨[], live, h'.1.trees⟩) (fun s' tmp xs' ⟨h', hsame, hsub⟩ hadjacent ↦ by
      obtain ⟨s₁, s₂, hrun₁, hrun₂, h₂, hsame₂, -⟩ := joinPrev_valid h' hadjacent
      exact ⟨s₁, s₂, hrun₁, hrun₂, h₂, hsame.trans hsame₂, (sublist_append_left _ _).trans hsub⟩)
    ⟨h, .refl s _, .refl _⟩ hfuel
  have hnodup := (List.nodup_append.mp h.trees.nodup).1
  have hother : ∀ p ∈ xs', p ∉ [now] := fun p hp ↦ by
    have := hsub.subset hp
    grind
  have hxs' : Gapped s' xs' := (Gapped.sublist hxs hsub).congr fun p hp ↦
    ⟨hsame.addr p (hother p hp), hsame.size p (hother p hp)⟩
  exact ⟨s', xs', hrun, h', (h'.gapped_iff hxs' .nil).mpr ⟨h'.before_ne hstop, by simp⟩⟩

theorem vmMerge_gapped (h : Valid s (xs ++ now :: ys) live covered) (hgapped : Gapped s (xs ++ ys)) :
    ∃ s' free', s.vmMerge now = .ok s' ∧ Valid s' free' live covered ∧
      (Gapped s' free' ↔ (∀ p ∈ xs, s.addr p + s.size p ≠ s.addr now) ∨
        ∀ q ∈ ys, s.addr q = s.addr now + s.size now) := by
  obtain ⟨hxs, hys, -⟩ := List.pairwise_append.mp hgapped
  have hlength := h.trees.length_lt
  rw [length_append, length_cons] at hlength
  have hnodup := (List.nodup_append.mp h.trees.nodup).1
  have hother : ∀ p ∈ xs ++ ys, p ∉ [now] := by grind
  obtain ⟨s₁, ys', hrun₁, h₁, hsame, haddr, hsub, hbehind, hnil⟩ :=
    mergeNext_gapped h hys (show ys.length < addressSpace by omega)
  have hagree : ∀ p ∈ xs ++ ys, s₁.addr p = s.addr p ∧ s₁.size p = s.size p := fun p hp ↦
    ⟨hsame.addr p (hother p hp), hsame.size p (hother p hp)⟩
  have hxs₁ : Gapped s₁ xs := Gapped.congr hxs fun p hp ↦ hagree p (by simp [hp])
  cases hys' : ys' with
  | nil =>
    subst hys'
    obtain ⟨s', xs', hrun, h', hgapped'⟩ :=
      mergePrev_gapped h₁ hxs₁ (show xs.length < addressSpace by omega)
    refine ⟨s', _, ?_, h', iff_of_true hgapped' (.inr (hnil.mp rfl))⟩
    simp [vmMerge, hrun₁, hrun]
  | cons t zs =>
    have hne : ys' ≠ [] := by simp [hys']
    have hys₁ : Gapped s₁ ys' := (Gapped.sublist hys hsub).congr fun p hp ↦
      hagree p (mem_append_right _ (hsub.subset hp))
    refine ⟨s₁, _, ?_, h₁, ?_⟩
    · simp [vmMerge, hrun₁, hys']
    · rw [h₁.gapped_iff hxs₁ hys₁, and_iff_left hbehind, or_iff_left (hnil.not.mp hne), haddr]
      refine forall₂_congr fun p hp ↦ ?_
      rw [(hagree p (by simp [hp])).1, (hagree p (by simp [hp])).2]

theorem Valid.mergeable_iff (h : Valid s' (xs ++ vp :: ys) live covered) (hfrees : s.frees = xs ++ ys)
    (hagree : ∀ p ∈ xs ++ ys, s'.addr p = s.addr p ∧ s'.size p = s.size p) :
    s.Mergeable (s'.addr vp) (s'.size vp) ↔ (∀ p ∈ xs, s'.addr p + s'.size p ≠ s'.addr vp) ∨
      ∀ q ∈ ys, s'.addr q = s'.addr vp + s'.size vp := by
  obtain ⟨hbefore, hafter⟩ := h.around
  have hpos := h.regions.pos vp (by simp)
  grind [Mergeable]

theorem coalesced_of_links {s₁ : VpageAlct} {err : Errno} (hcoalesced : Gapped s (xs ++ ys))
    (hfrees : s.frees = xs ++ ys) (h₁ : Valid s₁ (xs ++ vp :: ys) live covered)
    (hagree : ∀ p ∈ xs ++ ys, s₁.addr p = s.addr p ∧ s₁.size p = s.size p)
    (hrun : (s₁.vmMerge vp).map (.ok, ·) = .ok (err, s')) :
    s'.Coalesced ↔ s.Mergeable (s₁.addr vp) (s₁.size vp) := by
  obtain ⟨s'', free', hmerge, h', hiff⟩ := vmMerge_gapped h₁ (hcoalesced.congr hagree)
  obtain rfl : s'' = s' := by
    rw [hmerge] at hrun
    exact (ok_pair_inj hrun).2
  rw [h'.coalesced_iff, hiff, h₁.mergeable_iff hfrees hagree]

theorem Takes.coalesced {free' : List ℕ} {r n : ℕ} (htakes : Takes s s' free free' vp r n)
    (h : Valid s free live covered) (hr : r ∈ free) (hvp : vp ∉ free) (hpos : 0 < n) (hle : n ≤ s.size r)
    (hfrees : s'.frees = free') (hcoalesced : s.Coalesced) : s'.Coalesced := by
  have hbound := h.regions.bound r (mem_append_left _ hr)
  have hword : wordAdd (s.addr r) n = s.addr r + n := wordAdd_of_lt (by omega)
  have hnodup := (List.nodup_append.mp h.trees.nodup).1
  have hmem : ∀ p ∈ free', p ∈ free := by grind [htakes.frees]
  have hextent : ∀ p ∈ free', s'.addr p + s'.size p = s.addr p + s.size p ∧
      (s'.addr p = s.addr p ∨ p = r ∧ s'.addr p = s.addr p + n) := by grind [htakes.frees, htakes.others]
  rw [Coalesced, hfrees]
  intro p hp q hq hne hadjacent
  rw [(hextent p hp).1] at hadjacent
  obtain ⟨-, hsame | ⟨rfl, hmoved⟩⟩ := hextent q hq
  · grind [Coalesced, h.trees.frees_eq]
  · -- the new start is inside the old region
    have hapart := h.regions.apart.forall (mem_append_left _ (hmem p hp))
      (mem_append_left _ hr) hne
    have hpos_p := h.regions.pos p (mem_append_left _ (hmem p hp))
    unfold Apart at hapart
    omega

end Merge

end VpageAlct

namespace VmState

open VpageAlct

/-- The calls whose region `vm_merge` joins with every neighbour. -/
def Merging (st : VmState) : VmCall → Prop
  | .insert _ addr size => st.alct.Mergeable addr size
  | .free vp => st.alct.Mergeable (st.alct.addr vp) (st.alct.size vp)
  | _ => True

theorem coalesced_step {st st' : VmState} {call : VmCall} (h : st.Inv) (hround : st.Roundable call)
    (hcoalesced : st.alct.Coalesced) (hstep : system.step st call st') : st'.alct.Coalesced ↔ st.Merging call := by
  obtain ⟨free, live, hvalid⟩ := h
  have hfrees := hvalid.trees.frees_eq
  have hgapped := hvalid.coalesced_iff.mp hcoalesced
  have hfresh : ∀ vp, st.alct.Fresh vp → IsDesc vp ∧ vp ∉ free ++ live := fun vp hvp ↦ by
    rwa [Fresh, hfrees, hvalid.trees.lives_eq] at hvp
  cases call with
  | insert vp addr size =>
    obtain ⟨hins, hvp, alct, hrun, rfl⟩ := hstep
    obtain ⟨hdesc, hvp⟩ := hfresh vp hvp
    obtain ⟨s₁, xs, ys, hlinks, rfl, hvalid₁, hsame⟩ := vmInsert_links hvalid hvp hdesc
      hins.addr_aligned hins.size_aligned hins.size_pos hins.bound hins.not_covered
    have hagree : ∀ p ∈ xs ++ ys, s₁.addr p = st.alct.addr p ∧ s₁.size p = st.alct.size p := by
      intro p hp
      have hne : p ≠ vp := fun heq ↦ hvp (heq ▸ mem_append_left _ hp)
      simp [hsame.addr, hsame.size, setExtent, hne]
    have hiff := coalesced_of_links hgapped hfrees hvalid₁ hagree (hlinks ▸ hrun)
    rwa [show s₁.addr vp = addr by simp [hsame.addr, setExtent],
      show s₁.size vp = size by simp [hsame.size, setExtent]] at hiff
  | free vp =>
    obtain ⟨hvp, alct, hrun, rfl⟩ := hstep
    rw [hvalid.trees.lives_eq] at hvp
    obtain ⟨s₁, xs, ys, hlinks, rfl, hvalid₁, hsame⟩ := vmFree_links hvalid hvp
    have hiff := coalesced_of_links hgapped hfrees hvalid₁
      (fun p _ ↦ ⟨by rw [hsame.addr], by rw [hsame.size]⟩) (hlinks ▸ hrun)
    rwa [hsame.addr, hsame.size] at hiff
  | alloc vp size =>
    obtain ⟨hpos, -, hvp, res, alct, hrun, rfl⟩ := hstep
    obtain ⟨hdesc, hvp⟩ := hfresh vp hvp
    obtain ⟨hround', -⟩ := roundUp_spec hpos hround
    rcases rbtSearchSize_spec hvalid.trees (roundUp size pageSize) with hnone | ⟨r, hr, hsome, hle⟩
    · simp [vmAlloc, hnone] at hrun
    obtain ⟨s', free', live', hrun', htrees, htakes, -⟩ := vmAlloc_takes hvalid.trees hvp hdesc hr hsome
    obtain ⟨-, rfl⟩ : res = vp ∧ alct = s' := by simpa [hrun] using hrun'
    exact iff_of_true (htakes.coalesced hvalid hr (fun hmem ↦ hvp (mem_append_left _ hmem)) (by omega)
      hle htrees.frees_eq hcoalesced) trivial
  | slice new₁ new₂ vpage addr size =>
    obtain ⟨hvpage, hnew₁, hnew₂, hne, res, alct, hrun, rfl⟩ := hstep
    rw [hvalid.trees.lives_eq] at hvpage
    obtain ⟨live', hvalid', -, -, hkept⟩ := vmSlice_valid hvalid hvpage (hfresh _ hnew₁).2
      (hfresh _ hnew₁).1 (hfresh _ hnew₂).2 (hfresh _ hnew₂).1 hne hrun
    exact iff_of_true (hvalid'.coalesced_iff.mpr (hgapped.congr hkept)) trivial
  | other =>
    obtain ⟨alct, huntouched, rfl⟩ := hstep
    refine iff_of_true ((huntouched.valid hvalid).coalesced_iff.mpr (hgapped.congr fun p hp ↦ ?_)) trivial
    grind [huntouched.addr, huntouched.size]

/-- In runs of calls that are rounded without wrapping and are merging, no free region ever ends where
another begins. The next call keeps this exactly if it is merging. -/
theorem run_coalesced {st : VmState} (h : system.Run (fun st call ↦ st.Roundable call ∧ st.Merging call) st) :
    st.alct.Coalesced ∧ ∀ call st', st.Roundable call → system.step st call st' →
      (st'.alct.Coalesced ↔ st.Merging call) := by
  have hinv : st.Inv ∧ st.alct.Coalesced := by
    refine h.invariant (P := fun st ↦ st.Inv ∧ st.alct.Coalesced) (fun st hinit ↦ ?_)
      fun st call st' hst hallowed hstep ↦ ?_
    · have hinv := inv_init hinit
      obtain ⟨s, rfl⟩ := hinit
      exact ⟨hinv, (vmInit_valid s).coalesced_iff.mpr .nil⟩
    grind [inv_step, coalesced_step]
  exact ⟨hinv.2, fun call st' hround hstep ↦ coalesced_step hinv.1 hround hinv.2 hstep⟩

/-! ### Examples -/

theorem insert_step {st : VmState} {alct : VpageAlct} {held : List ℕ} {vp addr size : ℕ}
    (hins : st.Insertable addr size) (hheld : st.alct.frees ++ st.alct.lives = held) (hvp : vp ∉ held)
    (hdesc : vp + vpageTSize ≤ addressSpace) (hrun : st.alct.vmInsert (.ok vp) addr size = .ok (.ok, alct)) :
    system.step st (.insert vp addr size) ⟨alct, (addr, size) :: st.inserted⟩ :=
  ⟨hins, ⟨hdesc, hheld ▸ hvp⟩, alct, hrun, rfl⟩

theorem first_step {s₁ : VpageAlct} (hrun₁ : blank.vmInit.vmInsert (.ok 0x1000) 0x2000 0x1000 = .ok (.ok, s₁)) :
    system.step ⟨blank.vmInit, []⟩ (.insert 0x1000 0x2000 0x1000) ⟨s₁, [(0x2000, 0x1000)]⟩ :=
  insert_step ⟨by decide, by decide, by decide, by decide, by simp⟩ blank_empty (by simp) (by decide) hrun₁

def exampleJoined : Result (List Errno × List (List ℕ) × List ℕ) := do
  let (err₁, s₁) ← blank.vmInit.vmInsert (.ok 0x1000) 0x2000 0x1000
  let (err₂, s₂) ← s₁.vmInsert (.ok 0x1030) 0x3000 0x1000
  return ([err₁, err₂], [s₁.frees ++ s₁.lives, s₁.frees, s₂.frees], [s₁.addr 0x1000, s₂.size 0x1030])

theorem exampleJoined_eq : exampleJoined = .ok ([.ok, .ok], [[0x1000], [0x1000], [0x1030]], [0x2000, 0x2000]) := by
  decide +kernel

/-- A page behind another one that is free: one region of two pages. -/
theorem run_coalesced_example : ∃ st, system.Run (fun st call ↦ st.Roundable call ∧ st.Merging call) st ∧
      st.alct.frees = [0x1030] ∧ st.alct.size 0x1030 = 0x2000 ∧ st.alct.Coalesced := by
  obtain ⟨⟨err₁, s₁⟩, hrun₁, hview⟩ := bind_eq_ok.mp exampleJoined_eq
  obtain ⟨⟨err₂, s₂⟩, hrun₂, hview⟩ := bind_eq_ok.mp hview
  obtain ⟨⟨rfl, rfl⟩, ⟨hheld₁, hfrees₁, hfrees₂⟩, haddr₁, hsize₂⟩ : (err₁ = .ok ∧ err₂ = .ok) ∧
      (s₁.frees ++ s₁.lives = [0x1000] ∧ s₁.frees = [0x1000] ∧ s₂.frees = [0x1030]) ∧
      s₁.addr 0x1000 = 0x2000 ∧ s₂.size 0x1030 = 0x2000 := by
    simpa only [Except.ok.injEq, Prod.mk.injEq, List.cons.injEq, and_true, pure_eq] using hview
  have hstep₁ := first_step hrun₁
  have hstep₂ : system.step ⟨s₁, [(0x2000, 0x1000)]⟩ (.insert 0x1030 0x3000 0x1000)
      ⟨s₂, [(0x3000, 0x1000), (0x2000, 0x1000)]⟩ :=
    insert_step ⟨by decide, by decide, by decide, by decide, by simp⟩ hheld₁ (by decide) (by decide) hrun₂
  have hmerging₁ : blank.vmInit.Mergeable 0x2000 0x1000 := .inl fun p hp ↦ by
    simp [(List.append_eq_nil_iff.mp blank_empty).1] at hp
  have hmerging₂ : s₁.Mergeable 0x3000 0x1000 := .inr fun q hq hlt ↦ by grind
  have hrun : system.Run (fun st call ↦ st.Roundable call ∧ st.Merging call)
      ⟨s₂, [(0x3000, 0x1000), (0x2000, 0x1000)]⟩ := by
    refine .step (.step (.init ⟨blank, rfl⟩) ?_ hstep₁) ?_ hstep₂
    · exact ⟨trivial, hmerging₁⟩
    · exact ⟨trivial, hmerging₂⟩
  exact ⟨_, hrun, hfrees₂, hsize₂, (run_coalesced hrun).1⟩

/-- Three pages, the last one between the others and behind the first one. -/
def exampleApart : Result (List Errno × List (List ℕ) × List ℕ) := do
  let (err₁, s₁) ← blank.vmInit.vmInsert (.ok 0x1000) 0x2000 0x1000
  let (err₂, s₂) ← s₁.vmInsert (.ok 0x1030) 0x8000 0x1000
  let (err₃, s₃) ← s₂.vmInsert (.ok 0x1060) 0x3000 0x1000
  return ([err₁, err₂, err₃], [s₁.frees ++ s₁.lives, s₂.frees ++ s₂.lives, s₃.frees],
    [s₃.addr 0x1000, s₃.size 0x1000, s₃.addr 0x1060])

theorem exampleApart_eq : exampleApart =
    .ok ([.ok, .ok, .ok], [[0x1000], [0x1000, 0x1030], [0x1000, 0x1060, 0x1030]], [0x2000, 0x1000, 0x3000]) := by
  decide +kernel

/-- A page behind another one that is free, with a third one further up: the first two stay apart. -/
theorem reachable_adjacent : ∃ st, system.Run Roundable st ∧ st.alct.frees = [0x1000, 0x1060, 0x1030] ∧
      st.alct.addr 0x1000 + st.alct.size 0x1000 = st.alct.addr 0x1060 ∧ ¬ st.alct.Coalesced := by
  obtain ⟨⟨err₁, s₁⟩, hrun₁, hview⟩ := bind_eq_ok.mp exampleApart_eq
  obtain ⟨⟨err₂, s₂⟩, hrun₂, hview⟩ := bind_eq_ok.mp hview
  obtain ⟨⟨err₃, s₃⟩, hrun₃, hview⟩ := bind_eq_ok.mp hview
  obtain ⟨⟨rfl, rfl, rfl⟩, ⟨hheld₁, hheld₂, hfrees₃⟩, haddr₃, hsize₃, hnext₃⟩ :
      (err₁ = .ok ∧ err₂ = .ok ∧ err₃ = .ok) ∧ (s₁.frees ++ s₁.lives = [0x1000] ∧
        s₂.frees ++ s₂.lives = [0x1000, 0x1030] ∧ s₃.frees = [0x1000, 0x1060, 0x1030]) ∧
      s₃.addr 0x1000 = 0x2000 ∧ s₃.size 0x1000 = 0x1000 ∧ s₃.addr 0x1060 = 0x3000 := by
    simpa only [Except.ok.injEq, Prod.mk.injEq, List.cons.injEq, and_true, pure_eq] using hview
  have hstep₁ := first_step hrun₁
  have hstep₂ : system.step ⟨s₁, [(0x2000, 0x1000)]⟩ (.insert 0x1030 0x8000 0x1000)
      ⟨s₂, [(0x8000, 0x1000), (0x2000, 0x1000)]⟩ :=
    insert_step ⟨by decide, by decide, by decide, by decide, by simp⟩ hheld₁ (by decide) (by decide) hrun₂
  have hstep₃ : system.step ⟨s₂, [(0x8000, 0x1000), (0x2000, 0x1000)]⟩ (.insert 0x1060 0x3000 0x1000)
      ⟨s₃, [(0x3000, 0x1000), (0x8000, 0x1000), (0x2000, 0x1000)]⟩ :=
    insert_step ⟨by decide, by decide, by decide, by decide, by simp⟩ hheld₂ (by decide) (by decide) hrun₃
  have hadjacent : s₃.addr 0x1000 + s₃.size 0x1000 = s₃.addr 0x1060 := by rw [haddr₃, hsize₃, hnext₃]
  have hrun : system.Run Roundable ⟨s₃, [(0x3000, 0x1000), (0x8000, 0x1000), (0x2000, 0x1000)]⟩ := by
    refine .step (.step (.step (.init ⟨blank, rfl⟩) ?_ hstep₁) ?_ hstep₂) ?_ hstep₃ <;> trivial
  refine ⟨_, hrun, hfrees₃, hadjacent, fun hcoalesced ↦ ?_⟩
  exact hcoalesced 0x1000 (by simp [hfrees₃]) 0x1060 (by simp [hfrees₃]) (by decide) hadjacent

end VmState

end Lanthorn
