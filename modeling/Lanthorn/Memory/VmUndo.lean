import Lanthorn.Memory.VmMerge

/-!
# A region that is allocated and freed at once

`vm_free` of the region that `vm_alloc` has just returned joins it with what is left of the free region
that it was taken from. `vm_merge` then goes on, so the free regions are as before if and only if that
region has no free neighbour that `vm_merge` would find (`vmFree_vmAlloc`, `Unmerged`): `vm_merge` looks
for one in front only if no region is left behind.
-/

namespace Lanthorn

open Library List

namespace VpageAlct

def extents (s : VpageAlct) (vps : List ℕ) : List (ℕ × ℕ) := vps.map fun p ↦ (s.addr p, s.size p)

structure SameRegions (s s' : VpageAlct) : Prop where
  free : s'.extents s'.frees = s.extents s.frees
  live : s'.extents s'.lives = s.extents s.lives

/-- Freeing a region would not join it with another free one: none begins where it ends, and there is one
behind it or none ends where it begins. -/
def Unmerged (s : VpageAlct) (res : ℕ) : Prop :=
  (∀ q ∈ s.frees, s.addr q ≠ s.addr res + s.size res) ∧
    ((∃ q ∈ s.frees, s.addr res < s.addr q) ∨ ∀ p ∈ s.frees, s.addr p + s.size p ≠ s.addr res)

section Merge

variable {s : VpageAlct} {free live xs ys : List ℕ} {covered : ℕ → Prop} {now : ℕ}

theorem mergeNext_rejoin {ts bs : List ℕ} {n fuel : ℕ} (h : Valid s (xs ++ now :: (ts ++ bs)) live covered)
    (hts : ts = [] ∧ s.size now = n ∨
      ∃ r, ts = [r] ∧ s.addr r = s.addr now + s.size now ∧ s.size now + s.size r = n)
    (hfuel : (ts ++ bs).length < fuel) : ∃ s' ys', mergeNext (now + vpageRbtNode) fuel s = .ok (s', !ys'.isEmpty) ∧
      Valid s' (xs ++ now :: ys') live covered ∧ SameBut s s' [now] ∧ s'.addr now = s.addr now ∧
      (ys' = bs ∧ s'.size now = n ∧ (∀ q ∈ bs, s.addr now + n ≠ s.addr q) ∨
        ys'.length < bs.length ∧ ∃ q ∈ bs, s.addr now + n = s.addr q) := by
  have hother : ∀ q ∈ ts ++ bs, q ∉ [now] := by
    have hnodup := (List.nodup_append.mp h.trees.nodup).1
    grind
  obtain ⟨s', ys', hrun, ⟨h', hsame, haddr, hstage⟩, -, hstop⟩ := mergeNext_rule
    (P := fun s' ys' ↦ Valid s' (xs ++ now :: ys') live covered ∧ SameBut s s' [now] ∧ s'.addr now = s.addr now ∧
      (ys' = ts ++ bs ∧ s'.size now = s.size now ∨ ys' = bs ∧ s'.size now = n ∨
        ys'.length < bs.length ∧ ∃ q ∈ bs, s.addr now + n = s.addr q))
    (fun s' ys' h' ↦ ⟨xs, live, h'.1.trees⟩) (fun s' tmp ys' ⟨h', hsame, haddr, hstage⟩ hadjacent ↦ by
      obtain ⟨s₁, s₂, hrun₁, hrun₂, h₂, hsame₂, haddr₂, hsize₂⟩ := joinNext_valid h' hadjacent
      rw [wordAdd_of_lt (h'.regions.bound now (by simp)), haddr] at hadjacent
      have htmp : tmp ∈ ts ++ bs → s'.addr tmp = s.addr tmp ∧ s'.size tmp = s.size tmp := fun hmem ↦
        ⟨hsame.addr tmp (hother tmp hmem), hsame.size tmp (hother tmp hmem)⟩
      refine ⟨s₁, s₂, hrun₁, hrun₂, h₂, hsame.trans hsame₂, haddr₂.trans haddr, .inr ?_⟩
      grind)
    ⟨h, .refl s _, rfl, .inl ⟨rfl, rfl⟩⟩ hfuel
  have hagree : ∀ q ∈ ts ++ bs, s'.addr q = s.addr q := fun q hq ↦ hsame.addr q (hother q hq)
  have hwhole : ys' = bs → s'.size now = n → ∀ q ∈ bs, s.addr now + n ≠ s.addr q := by
    rintro rfl hn q hq
    have hne := h'.behind_ne hstop q hq
    rwa [haddr, hn, hagree q (by simp [hq])] at hne
  refine ⟨s', ys', hrun, h', hsame, haddr, ?_⟩
  obtain ⟨rfl, hsize⟩ | ⟨hys, hsize⟩ | hover := hstage
  · obtain ⟨rfl, hn⟩ | ⟨r, rfl, hr, -⟩ := hts
    · exact .inl ⟨rfl, hsize.trans hn, hwhole rfl (hsize.trans hn)⟩
    · -- the part that was cut off follows immediately
      refine absurd ?_ (h'.behind_ne hstop r (by simp))
      rw [haddr, hsize, hagree r (by simp), hr]
  · exact .inl ⟨hys, hsize, hwhole hys hsize⟩
  · exact .inr hover

theorem mergePrev_unless {fuel : ℕ} (h : Valid s (xs ++ now :: ys) live covered) (hfuel : xs.length < fuel) :
    ∃ s' xs', mergePrev (now + vpageRbtNode) fuel s = .ok s' ∧
      Valid s' (xs' ++ now :: ys) live covered ∧ SameBut s s' [now] ∧
      (xs' = xs ∧ s'.addr now = s.addr now ∧ s'.size now = s.size now ∧
          (∀ p ∈ xs, s.addr p + s.size p ≠ s.addr now) ∨
        xs'.length < xs.length ∧ ∃ p ∈ xs, s.addr p + s.size p = s.addr now) := by
  have hother : ∀ p ∈ xs, p ∉ [now] := by
    have hnodup := (List.nodup_append.mp h.trees.nodup).1
    grind
  obtain ⟨s', xs', hrun, ⟨h', hsame, hstage⟩, -, hstop⟩ := mergePrev_rule
    (P := fun s' xs' ↦ Valid s' (xs' ++ now :: ys) live covered ∧ SameBut s s' [now] ∧
      (xs' = xs ∧ s'.addr now = s.addr now ∧ s'.size now = s.size now ∨
        xs'.length < xs.length ∧ ∃ p ∈ xs, s.addr p + s.size p = s.addr now))
    (fun s' xs' h' ↦ ⟨ys, live, h'.1.trees⟩) (fun s' tmp xs' ⟨h', hsame, hstage⟩ hadjacent ↦ by
      obtain ⟨s₁, s₂, hrun₁, hrun₂, h₂, hsame₂, -⟩ := joinPrev_valid h' hadjacent
      rw [wordAdd_of_lt (h'.regions.bound tmp (by simp))] at hadjacent
      refine ⟨s₁, s₂, hrun₁, hrun₂, h₂, hsame.trans hsame₂, .inr ?_⟩
      grind [hsame.addr, hsame.size])
    ⟨h, .refl s _, .inl ⟨rfl, rfl, rfl⟩⟩ hfuel
  refine ⟨s', xs', hrun, h', hsame, ?_⟩
  obtain ⟨rfl, haddr, hsize⟩ | hover := hstage
  · refine .inl ⟨rfl, haddr, hsize, fun p hp ↦ ?_⟩
    have hne := h'.before_ne hstop p hp
    rwa [hsame.addr p (hother p hp), hsame.size p (hother p hp), haddr] at hne
  · exact .inr hover

/-- `vm_merge` of a region of which the part `ts` has been cut off: it joins the part, and nothing else if
no region begins where the two end, and there is one behind or none that ends where they begin. -/
theorem vmMerge_rejoin {ts bs : List ℕ} {n : ℕ} (h : Valid s (xs ++ now :: (ts ++ bs)) live covered)
    (hts : ts = [] ∧ s.size now = n ∨
      ∃ r, ts = [r] ∧ s.addr r = s.addr now + s.size now ∧ s.size now + s.size r = n) :
    ∃ s' free', s.vmMerge now = .ok s' ∧ Valid s' free' live covered ∧ SameBut s s' [now] ∧
      (free' = xs ++ now :: bs ∧ s'.addr now = s.addr now ∧ s'.size now = n ∧
          ((∀ q ∈ bs, s.addr now + n ≠ s.addr q) ∧ (bs ≠ [] ∨ ∀ p ∈ xs, s.addr p + s.size p ≠ s.addr now)) ∨
        free'.length < (xs ++ now :: bs).length ∧ ((∃ q ∈ bs, s.addr now + n = s.addr q) ∨
            bs = [] ∧ ∃ p ∈ xs, s.addr p + s.size p = s.addr now)) := by
  have hlength := h.trees.length_lt
  rw [length_append, length_cons] at hlength
  obtain ⟨s₁, ys', hrun₁, h₁, hsame₁, haddr₁, hstage₁⟩ :=
    mergeNext_rejoin h hts (show (ts ++ bs).length < addressSpace by omega)
  have hother : ∀ p ∈ xs, p ∉ [now] := by
    have hnodup := (List.nodup_append.mp h.trees.nodup).1
    grind
  by_cases hlast : ys' = []
  · subst hlast
    obtain ⟨s', xs', hrun', h', hsame', hstage'⟩ :=
      mergePrev_unless h₁ (show xs.length < addressSpace by omega)
    have hagree : ∀ p ∈ xs, s₁.addr p + s₁.size p ≠ s₁.addr now ↔ s.addr p + s.size p ≠ s.addr now := by
      intro p hp
      rw [hsame₁.addr p (hother p hp), hsame₁.size p (hother p hp), haddr₁]
    refine ⟨s', _, by simp [vmMerge, hrun₁, hrun'], h', hsame₁.trans hsame', ?_⟩
    grind
  · refine ⟨s₁, _, by simp [vmMerge, hrun₁, hlast], h₁, hsame₁, ?_⟩
    grind

end Merge

/-! ### `vm_alloc` and `vm_free` -/

section Undo

variable {s : VpageAlct} {free live : List ℕ} {covered : ℕ → Prop} {vp : ℕ}

theorem append_inj_of_split {addr : ℕ → ℕ} {a : ℕ} {as bs xs ys : List ℕ} (heq : as ++ bs = xs ++ ys)
    (has : ∀ p ∈ as, addr p < a) (hbs : ∀ p ∈ bs, a ≤ addr p) (hxs : ∀ p ∈ xs, addr p < a)
    (hys : ∀ p ∈ ys, a ≤ addr p) : as = xs ∧ bs = ys := by
  have hfilter : ∀ {us vs : List ℕ}, (∀ p ∈ us, addr p < a) → (∀ p ∈ vs, a ≤ addr p) →
      (us ++ vs).filter (addr · < a) = us := by
    intro us vs hus hvs
    rw [filter_append, List.filter_eq_self.mpr (by simpa using hus),
      List.filter_eq_nil_iff.mpr (by simpa using hvs), append_nil]
  have hfront : as = xs := by rw [← hfilter has hbs, heq, hfilter hxs hys]
  subst hfront
  exact ⟨rfl, append_cancel_left heq⟩

theorem Valid.unmerged_iff {as bs : List ℕ} {res : ℕ} (h : Valid s (as ++ res :: bs) live covered) :
    s.Unmerged res ↔ (∀ q ∈ bs, s.addr res + s.size res ≠ s.addr q) ∧
      (bs ≠ [] ∨ ∀ p ∈ as, s.addr p + s.size p ≠ s.addr res) := by
  obtain ⟨hbefore, hafter⟩ := h.around
  have hpos : ∀ p ∈ as ++ res :: bs, 0 < s.size p := fun p hp ↦
    h.regions.pos p (mem_append_left _ hp)
  grind [Unmerged, h.trees.frees_eq, exists_mem_of_ne_nil]

theorem Takes.split {s₁ s₂ : VpageAlct} {as bs xs ys free₁ live₁ : List ℕ} {res n : ℕ}
    (htakes : Takes s s₁ (as ++ res :: bs) free₁ vp res n)
    (h : Valid s (as ++ res :: bs) live covered) (hvp : vp ∉ as ++ res :: bs) (hpos : 0 < n)
    (hle : n ≤ s.size res) (h₂ : Valid s₂ (xs ++ vp :: ys) live₁ covered) (hsplit : free₁ = xs ++ ys)
    (haddr : s₂.addr = s₁.addr) (hsize : s₂.size = s₁.size) :
    xs = as ∧ ∃ ts, ys = ts ++ bs ∧ (ts = [] ∧ s₂.size vp = s.size res ∨
      ∃ r, ts = [r] ∧ s₂.addr r = s₂.addr vp + s₂.size vp ∧ s₂.size vp + s₂.size r = s.size res) := by
  obtain ⟨hbefore, hafter⟩ := h.around
  obtain ⟨hbefore₂, hafter₂⟩ := h₂.around
  have hnodup := (List.nodup_append.mp h.trees.nodup).1
  have hpos' : ∀ p ∈ as ++ res :: bs, 0 < s.size p := fun p hp ↦
    h.regions.pos p (mem_append_left _ hp)
  have hpos₂ : ∀ p ∈ xs, 0 < s₂.size p := fun p hp ↦ h₂.regions.pos p (by simp [hp])
  have hkept : ∀ p ∈ as ++ bs, s₂.addr p = s.addr p := by
    intro p hp
    rw [haddr]
    refine (htakes.others p ?_ ?_).1
    · rintro rfl
      exact hvp (by grind)
    · rintro rfl
      grind
  have hstart : s₂.addr vp = s.addr res := by rw [haddr, htakes.addr]
  have hlen : s₂.size vp = n := by rw [hsize, htakes.size]
  have has : ∀ p ∈ as, s₂.addr p < s₂.addr vp := by grind
  have hbs : ∀ q ∈ bs, s₂.addr vp ≤ s₂.addr q := by
    intro q hq
    have := hafter q hq
    rw [hkept q (by simp [hq]), hstart]
    omega
  have hxs : ∀ p ∈ xs, s₂.addr p < s₂.addr vp := by
    intro p hp
    have := hbefore₂ p hp
    have := hpos₂ p hp
    omega
  have hys : ∀ q ∈ ys, s₂.addr vp ≤ s₂.addr q := by
    intro q hq
    have := hafter₂ q hq
    omega
  obtain ⟨hexact, hfree⟩ | ⟨-, hfree, hres, hrest⟩ := htakes.frees
  · have herase : (as ++ res :: bs).erase res = as ++ bs := by rw [erase_append_right _ (by grind), erase_cons_head]
    obtain ⟨rfl, rfl⟩ := append_inj_of_split (herase.symm.trans (hfree.symm.trans hsplit)) has hbs hxs hys
    exact ⟨rfl, [], rfl, .inl ⟨rfl, by rw [hlen, hexact]⟩⟩
  · have hbound := h.regions.bound res (by simp)
    rw [wordAdd_of_lt (by omega)] at hres
    obtain ⟨rfl, rfl⟩ := append_inj_of_split (hfree.symm.trans hsplit) has (fun q hq ↦ by grind) hxs hys
    refine ⟨rfl, [res], rfl, .inr ⟨res, rfl, ?_, ?_⟩⟩
    · rw [hstart, hlen, haddr, hres]
    · rw [hlen, hsize, hrest]
      omega

theorem vmFree_vmAlloc (h : Valid s free live covered) (hvp : s.Fresh vp) {n res : ℕ} (hpos : 0 < n)
    (hunit : n % pageSize = 0) (hword : n < addressSpace) (hsearch : s.rbtSearchSize n = .ok (some res)) :
    ∃ s₁ free₁ live₁, s.vmAlloc (.ok vp) n = .ok (.ok, some vp, s₁) ∧
      Valid s₁ free₁ live₁ covered ∧ s₁.addr vp = s.addr res ∧ s₁.size vp = n ∧
      ∀ type, ∃ s₂, { s₁ with type := type }.vmFree vp = .ok (.ok, s₂) ∧ (s.SameRegions s₂ ↔ s.Unmerged res) := by
  obtain ⟨hdesc, hfresh⟩ := hvp
  rw [h.trees.frees_eq, h.trees.lives_eq] at hfresh
  have hround : roundUp n pageSize = n := by
    unfold roundUp pageSize addressSpace at *
    omega
  have hle : n ≤ addressSpace - pageSize := by
    unfold pageSize addressSpace at *
    omega
  obtain ⟨hres, hlarge⟩ : res ∈ free ∧ n ≤ s.size res := by grind [rbtSearchSize_spec, h.trees]
  obtain ⟨hnone, -⟩ | ⟨s₁, free₁, live₁, hrun₁, h₁, -, hperm₁, -, hkept₁, -⟩ :=
    vmAlloc_valid h hfresh hdesc hpos hle
  · rw [hround, hsearch] at hnone
    cases hnone
  obtain ⟨s₁', free₁', live₁', hrun₁', htrees', htakes, -⟩ :=
    vmAlloc_takes h.trees hfresh hdesc hres (hround.symm ▸ hsearch)
  obtain rfl : s₁' = s₁ := by simpa [hrun₁] using hrun₁'.symm
  obtain rfl : free₁' = free₁ := htrees'.frees_eq.symm.trans h₁.trees.frees_eq
  rw [hround] at htakes
  refine ⟨s₁', free₁', live₁, hrun₁, h₁, htakes.addr, htakes.size, fun type ↦ ?_⟩
  have hlive : vp ∈ live₁ := hperm₁.mem_iff.mpr (by simp)
  obtain ⟨s₂, xs, ys, hfree, hsplit, h₂, hsame₂⟩ := vmFree_links (h₁.setType type) hlive
  obtain ⟨as, bs, rfl⟩ := append_of_mem hres
  have hfresh' : vp ∉ as ++ res :: bs := fun hmem ↦ hfresh (mem_append_left _ hmem)
  obtain ⟨rfl, ts, rfl, hts⟩ :=
    htakes.split h hfresh' hpos hlarge h₂ hsplit hsame₂.addr hsame₂.size
  obtain ⟨s', free', hmerge, h', hsame', hstage⟩ := vmMerge_rejoin h₂ hts
  refine ⟨s', by rw [hfree, hmerge]; rfl, ?_⟩
  -- what the free regions around and the live ones are
  have hagree : ∀ p, p ≠ vp → p ≠ res → s₂.addr p = s.addr p ∧ s₂.size p = s.size p := by
    intro p hp hp_res
    rw [hsame₂.addr, hsame₂.size]
    exact htakes.others p hp hp_res
  have hextents : ∀ vps, vp ∉ vps → res ∉ vps → s'.extents vps = s.extents vps := by
    refine fun vps hvps hres ↦ map_congr_left fun p hp ↦ ?_
    have hp_vp : p ≠ vp := fun heq ↦ hvps (heq ▸ hp)
    obtain ⟨haddr, hsize⟩ := hagree p hp_vp fun heq ↦ hres (heq ▸ hp)
    rw [hsame'.addr p (by simpa using hp_vp), hsame'.size p (by simpa using hp_vp), haddr, hsize]
  have hstart : s₂.addr vp = s.addr res := by rw [hsame₂.addr, ← htakes.addr]
  have hnodup := h.trees.nodup
  have haround : ∀ p ∈ xs ++ bs, p ≠ vp ∧ p ≠ res := by grind
  have hlives : live₁.erase vp = live := by
    have hperm : (live₁.erase vp).Perm live := by simpa using hperm₁.erase vp
    have hsorted : Sorted s.addr (live₁.erase vp) := h'.live_sorted.congr fun p hp ↦ ?_
    · exact hperm.eq_of_pairwise (fun p q _ _ hpq hqp ↦ by omega) hsorted h.live_sorted
    · have hp := hperm.mem_iff.mp hp
      have hne : p ≠ vp ∧ p ≠ res := by grind
      rw [hsame'.addr p (by simpa using hne.1), (hagree p hne.1 hne.2).1]
  have hsame_iff : s.SameRegions s' ↔ s'.extents free' = s.extents (xs ++ res :: bs) := by
    have hlive' : s'.extents live = s.extents live := hextents live (by grind) (by grind)
    refine ⟨fun hsame ↦ ?_, fun hfrees ↦ ⟨?_, ?_⟩⟩
    · rw [← h'.trees.frees_eq, ← h.trees.frees_eq]
      exact hsame.free
    · rw [h'.trees.frees_eq, h.trees.frees_eq, hfrees]
    · rw [h'.trees.lives_eq, h.trees.lives_eq, hlives, hlive']
  have hbehind_iff : ∀ q ∈ bs, s₂.addr vp + s.size res = s₂.addr q ↔ s.addr res + s.size res = s.addr q := by
    intro q hq
    obtain ⟨hq_vp, hq_res⟩ := haround q (by simp [hq])
    rw [hstart, (hagree q hq_vp hq_res).1]
  have hfront_iff : ∀ p ∈ xs, s₂.addr p + s₂.size p = s₂.addr vp ↔ s.addr p + s.size p = s.addr res := by
    intro p hp
    obtain ⟨hp_vp, hp_res⟩ := haround p (by simp [hp])
    rw [hstart, (hagree p hp_vp hp_res).1, (hagree p hp_vp hp_res).2]
  grind [h.unmerged_iff, extents, length_append]

end Undo

end VpageAlct

end Lanthorn
